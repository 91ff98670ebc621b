import NoteCell.Proofs.Tree.Shape

/-!
Numbering. It changes nothing but ids, and the ids it gives depend on the shape alone: two cells of
one shape that were built node by node differ only in their places.
-/
namespace NoteCell

section

variable {α β γ σ τ υ : Type} {m : Type → Type} [Monad m] [LawfulMonad m]

theorem List.map_mapM (f : α → m β) (g : β → γ) (l : List α) :
    List.map g <$> l.mapM f = l.mapM fun a => g <$> f a := by
  induction l
  case nil => simp
  case cons a l ih => simp [← ih]

theorem ExprForm.map_id (form : ExprForm α) : form.map (fun a => a) = form := by
  cases form <;> simp [map]

theorem ExprForm.traverse_map (f : α → β) (g : β → m γ) (form : ExprForm α) :
    (form.map f).traverse g = form.traverse fun a => g (f a) := by
  cases form <;> simp [map, traverse, Function.comp_def]

theorem ExprForm.map_traverse (f : α → m β) (g : β → γ) (form : ExprForm α) :
    (map g <$> form.traverse f) = form.traverse fun a => g <$> f a := by
  cases form <;> simp [map, traverse, ← List.map_mapM]
  case dict entries =>
    have := List.map_mapM (fun x : α × α => do
      let k ← f x.1
      Prod.mk k <$> f x.2) (fun x => (g x.1, g x.2)) entries
    simp at this
    rw [← this]
    simp
  case compare left rest =>
    have := List.map_mapM (fun x : CompareOp × α => Prod.mk x.1 <$> f x.2)
      (fun x => (x.1, g x.2)) rest
    simp at this
    rw [← this]
    simp
  case call func args keywords =>
    have := List.map_mapM (fun x : String × α => Prod.mk x.1 <$> f x.2)
      (fun x => (x.1, g x.2)) keywords
    simp at this
    rw [← this]
    simp

theorem ExprForm.traverse_attach (f : α → m β) (form : ExprForm α) :
    form.attach.traverse (fun a => f a.1) = form.traverse f := by
  have h := traverse_map (fun a : { a // a ∈ form.children } => a.1) f form.attach
  have h' := map_attach (fun a => a) form
  rw [map_id] at h'
  rw [h'] at h
  exact h.symm

theorem StmtForm.map_id (form : StmtForm σ) : form.map (fun e => e) (fun s => s) = form := by
  cases form <;> simp [map]

omit [LawfulMonad m] in
theorem StmtForm.traverseOption_map (f : Expr → Expr) (g : Expr → m Expr) (value : Option Expr) :
    traverseOption g (value.map f) = traverseOption (fun e => g (f e)) value := by
  cases value <;> rfl

theorem StmtForm.map_traverseOption (f : Expr → m Expr) (g : Expr → Expr) (value : Option Expr) :
    (Option.map g <$> traverseOption f value) = traverseOption (fun e => g <$> f e) value := by
  cases value <;> simp [traverseOption]

theorem StmtForm.traverse_map (f : Expr → Expr) (f' : Expr → m Expr) (g : σ → τ) (g' : τ → m υ)
    (form : StmtForm σ) :
    (form.map f g).traverse f' g' = form.traverse (fun e => f' (f e)) fun s => g' (g s) := by
  cases form <;> simp [map, traverse, traverseOption_map, Function.comp_def]

theorem StmtForm.map_traverse (f : Expr → m Expr) (f' : Expr → Expr) (g : σ → m τ) (g' : τ → υ)
    (form : StmtForm σ) :
    (map f' g' <$> form.traverse f g)
      = form.traverse (fun e => f' <$> f e) fun s => g' <$> g s := by
  cases form <;> simp [map, traverse, ← List.map_mapM, ← map_traverseOption]
  case define params _ _ =>
    have := List.map_mapM (fun p : Param => Param.mk p.name <$> traverseOption f p.default?)
      (fun p => Param.mk p.name (p.default?.map f')) params
    simp at this
    rw [← this]
    simp

theorem StmtForm.traverse_attach (f : Expr → m Expr) (g : σ → m τ) (form : StmtForm σ) :
    form.attach.traverse f (fun s => g s.1) = form.traverse f g := by
  have h := traverse_map (fun e => e) f (fun s : { s // s ∈ form.stmts } => s.1) g form.attach
  have h' := map_attach (fun e => e) (fun s => s) form
  rw [map_id] at h'
  rw [h'] at h
  exact h.symm

theorem ExprForm.traverse_congr {f g : α → m β} {form : ExprForm α}
    (h : ∀ a ∈ form.children, f a = g a) : form.traverse f = form.traverse g := by
  rw [← traverse_attach f, ← traverse_attach g]
  congr 1
  funext a
  exact h a.1 a.2

theorem StmtForm.traverse_congr {f : Expr → m Expr} {g g' : σ → m τ} {form : StmtForm σ}
    (h : ∀ s ∈ form.stmts, g s = g' s) : form.traverse f g = form.traverse f g' := by
  rw [← traverse_attach f g, ← traverse_attach f g']
  congr 1
  funext s
  exact h s.1 s.2

end

/-! ### Numbering -/

section

variable {f g : NodeInfo → NodeInfo}

theorem Expr.number_node (info : NodeInfo) (form : ExprForm Expr) :
    number (node info form) = do
      let id ← freshId
      return node (info.withId id) (← form.traverse number) := by
  rw [number]
  congr
  funext id
  exact congrArg (· >>= fun form => pure (node (info.withId id) form))
    (ExprForm.traverse_attach number form)

theorem Stmt.number_node (info : NodeInfo) (form : StmtForm Stmt) :
    number (node info form) = do
      let id ← freshId
      return node (info.withId id) (← form.traverse Expr.number number) := by
  rw [number]
  congr
  funext id
  exact congrArg (· >>= fun form => pure (node (info.withId id) form))
    (StmtForm.traverse_attach Expr.number number form)

-- A change that leaves ids alone may come before the numbering or after it.
theorem Expr.mapInfo_number (h : ∀ info id, g (info.withId id) = (f info).withId id) (e : Expr) :
    mapInfo g <$> e.number = (e.mapInfo f).number := by
  induction e using childrenInduction
  case h info form ih =>
    rw [mapInfo_node, number_node, number_node, ExprForm.traverse_map,
      ← ExprForm.traverse_congr ih, ← ExprForm.map_traverse]
    simp [mapInfo_node, h]

theorem Stmt.mapInfo_number (h : ∀ info id, g (info.withId id) = (f info).withId id) (s : Stmt) :
    mapInfo g <$> s.number = (s.mapInfo f).number := by
  induction s using stmtsInduction
  case h info form ih =>
    have he : (fun e => Expr.mapInfo g <$> e.number) = fun e : Expr => (e.mapInfo f).number :=
      funext (Expr.mapInfo_number h)
    rw [mapInfo_node, number_node, number_node, StmtForm.traverse_map, ← he,
      ← StmtForm.traverse_congr ih, ← StmtForm.map_traverse]
    simp [mapInfo_node, h]

end

/-! ### What a pass makes -/

-- A way of saying what a pass makes, by what its steps make.
structure Sequential (T : ∀ α : Type, StateM Nat α → α → Prop) : Prop where
  pure {α : Type} {a : α} : T α (Pure.pure a) a
  bind {α β : Type} {x : StateM Nat α} {a : α} {q : α → StateM Nat β} {b : β}
    (hx : T α x a) (hq : T β (q a) b) : T β (x >>= q) b

namespace Sequential

variable {T : ∀ α : Type, StateM Nat α → α → Prop} (hT : Sequential T) {α β γ σ τ : Type}
include hT

theorem map {x : StateM Nat α} {a : α} {f : α → β} (hx : T α x a) : T β (f <$> x) (f a) := by
  rw [map_eq_pure_bind]
  exact hT.bind hx hT.pure

theorem mapM {f : α → StateM Nat β} {h : α → β} {l : List α}
    (hf : ∀ a ∈ l, T β (f a) (h a)) : T (List β) (l.mapM f) (l.map h) := by
  induction l
  case nil => exact hT.pure
  case cons a l ih =>
    rw [List.mapM_cons]
    exact hT.bind (hf a (by simp))
      (hT.bind (ih fun b hb => hf b (List.mem_cons_of_mem _ hb)) hT.pure)

theorem traverse {f : α → StateM Nat β} {h : α → β} {form : ExprForm α}
    (hf : ∀ a ∈ form.children, T β (f a) (h a)) : T (ExprForm β) (form.traverse f) (form.map h) := by
  cases form
  case list | tuple => exact hT.bind (hT.mapM hf) hT.pure
  case dict entries =>
    refine hT.bind (hT.mapM fun entry he => ?_) hT.pure
    have hm {a : α} (ha : a ∈ [entry.1, entry.2]) : a ∈ (ExprForm.dict entries).children :=
      List.mem_flatMap.mpr ⟨entry, he, ha⟩
    exact hT.bind (hf _ (hm (by simp))) (hT.bind (hf _ (hm (by simp))) hT.pure)
  case binary | logical | subscript =>
    exact hT.bind (hf _ (by simp [ExprForm.children]))
      (hT.bind (hf _ (by simp [ExprForm.children])) hT.pure)
  case unary | member | await => exact hT.bind (hf _ (by simp [ExprForm.children])) hT.pure
  case compare left rest =>
    refine hT.bind (hf _ (by simp [ExprForm.children])) (hT.bind (hT.mapM fun part hp => ?_) hT.pure)
    exact hT.bind (hf _ (List.mem_cons_of_mem _ (List.mem_map_of_mem hp))) hT.pure
  case conditional =>
    exact hT.bind (hf _ (by simp [ExprForm.children]))
      (hT.bind (hf _ (by simp [ExprForm.children]))
        (hT.bind (hf _ (by simp [ExprForm.children])) hT.pure))
  case call func args keywords =>
    refine hT.bind (hf _ (by simp [ExprForm.children])) (hT.bind (hT.mapM fun a ha => hf a ?_)
      (hT.bind (hT.mapM fun k hk => ?_) hT.pure))
    · exact List.mem_cons_of_mem _ (List.mem_append_left _ ha)
    · exact hT.bind (hf _ (List.mem_cons_of_mem _ (List.mem_append_right _
        (List.mem_map_of_mem hk)))) hT.pure
  all_goals exact hT.pure

theorem traverseOption {f : Expr → StateM Nat Expr} {h : Expr → Expr} {value : Option Expr}
    (hf : ∀ e ∈ value, T Expr (f e) (h e)) :
    T (Option Expr) (StmtForm.traverseOption f value) (value.map h) := by
  cases value
  case none => exact hT.pure
  case some e => exact hT.bind (hf e rfl) hT.pure

theorem traverseStmt {f : Expr → StateM Nat Expr} {h : Expr → Expr} {g : σ → StateM Nat τ}
    {h' : σ → τ} {form : StmtForm σ} (hf : ∀ e ∈ form.exprs, T Expr (f e) (h e))
    (hg : ∀ s ∈ form.stmts, T τ (g s) (h' s)) :
    T (StmtForm τ) (form.traverse f g) (form.map h h') := by
  cases form
  case expr => exact hT.bind (hf _ (by simp [StmtForm.exprs])) hT.pure
  case assign targets value =>
    exact hT.bind (hf _ (by simp [StmtForm.exprs]))
      (hT.bind (hT.mapM fun t ht => hf t (List.mem_cons_of_mem _ ht)) hT.pure)
  case augAssign =>
    exact hT.bind (hf _ (by simp [StmtForm.exprs]))
      (hT.bind (hf _ (by simp [StmtForm.exprs])) hT.pure)
  case ifElse =>
    exact hT.bind (hf _ (by simp [StmtForm.exprs]))
      (hT.bind (hT.mapM fun s hs => hg s (List.mem_append_left _ hs))
        (hT.bind (hT.mapM fun s hs => hg s (List.mem_append_right _ hs)) hT.pure))
  case whileLoop => exact hT.bind (hf _ (by simp [StmtForm.exprs])) (hT.bind (hT.mapM hg) hT.pure)
  case forEach =>
    exact hT.bind (hf _ (by simp [StmtForm.exprs]))
      (hT.bind (hf _ (by simp [StmtForm.exprs])) (hT.bind (hT.mapM hg) hT.pure))
  case define name params body isAsync =>
    refine hT.bind (hT.mapM fun p hp => ?_) (hT.bind (hT.mapM hg) hT.pure)
    exact hT.bind (hT.traverseOption fun e he => hf e (List.mem_filterMap.mpr ⟨p, hp, he⟩)) hT.pure
  case ret | raise =>
    exact hT.bind (hT.traverseOption fun e he => hf e (by simpa [StmtForm.exprs] using he)) hT.pure
  all_goals exact hT.pure

end Sequential

/-! ### Results that do not depend on the state -/

-- The result from every state.
def Yields {α : Type} (x : StateM Nat α) (a : α) : Prop := ∀ k, (x.run k).1 = a

theorem sequential_yields : Sequential (fun _ => Yields) where
  pure _ := rfl
  bind {α β x a q b} hx hq k := by
    change ((q (x.run k).1).run (x.run k).2).1 = b
    rw [hx k]
    exact hq _

section

variable {f : NodeInfo → NodeInfo} (hf : ∀ info id, f (info.withId id) = f info)

include hf

-- Whatever is kept of nodes but their ids is not changed by numbering them.
theorem Expr.number_mapInfo (e : Expr) : Yields (mapInfo f <$> e.number) (e.mapInfo f) := by
  induction e using childrenInduction
  case h info form ih =>
    rw [number_node, mapInfo_node, map_bind]
    refine fun k => ?_
    change (((fun form => (node (info.withId k) form).mapInfo f) <$> form.traverse number).run
      (k + 1)).1 = _
    have hform : Yields (ExprForm.map (mapInfo f) <$> form.traverse number) (form.map (mapInfo f)) := by
      rw [ExprForm.map_traverse]
      exact sequential_yields.traverse ih
    have := sequential_yields.map (f := node (f info)) hform (k + 1)
    simpa [mapInfo_node, hf] using this

theorem Stmt.number_mapInfo (s : Stmt) : Yields (mapInfo f <$> s.number) (s.mapInfo f) := by
  induction s using stmtsInduction
  case h info form ih =>
    rw [number_node, mapInfo_node, map_bind]
    refine fun k => ?_
    change (((fun form => (node (info.withId k) form).mapInfo f)
      <$> form.traverse Expr.number number).run (k + 1)).1 = _
    have hform : Yields (StmtForm.map (Expr.mapInfo f) (mapInfo f) <$> form.traverse Expr.number number)
        (form.map (Expr.mapInfo f) (mapInfo f)) := by
      rw [StmtForm.map_traverse]
      exact sequential_yields.traverseStmt (fun e _ => e.number_mapInfo hf) ih
    have := sequential_yields.map (f := node (f info)) hform (k + 1)
    simpa [mapInfo_node, hf] using this

theorem Cell.mapInfo_ofBody (body : List Stmt) :
    (ofBody body).body.map (Stmt.mapInfo f) = body.map (Stmt.mapInfo f) := by
  have h : Yields (List.map (Stmt.mapInfo f) <$> body.mapM Stmt.number) (body.map (Stmt.mapInfo f)) := by
    rw [List.map_mapM]
    exact sequential_yields.mapM fun s _ => s.number_mapInfo hf
  exact h 0

end

theorem Cell.bare_ofBody (body : List Stmt) : (ofBody body).bare = body.map Stmt.bare :=
  mapInfo_ofBody (fun _ _ => rfl) body

/-! ### Trees of one shape -/

-- Without its place.
def NodeInfo.placeless (info : NodeInfo) : NodeInfo := { info with location := .unknown }

-- Everything about a cell but its places.
def Cell.placeless (c : Cell) : Cell :=
  { c with body := c.body.map (Stmt.mapInfo NodeInfo.placeless) }

-- A tree built again from its shape.
def Expr.rebuild : Expr → Expr
  | node _ form => build (form.attach.map fun ⟨c, _h⟩ => rebuild c) .unknown
termination_by e => sizeOf e
decreasing_by exact sizeOf_lt_of_mem _h

def Stmt.rebuild : Stmt → Stmt
  | node _ form => build (form.attach.map Expr.rebuild fun ⟨s, _h⟩ => rebuild s) .unknown
termination_by s => sizeOf s
decreasing_by exact sizeOf_lt_of_mem _h

section

variable {f : NodeInfo → NodeInfo}

theorem Expr.rebuild_node (info : NodeInfo) (form : ExprForm Expr) :
    rebuild (node info form) = build (form.map rebuild) .unknown := by
  rw [rebuild]
  exact congrArg (build · .unknown) (ExprForm.map_attach rebuild form)

theorem Stmt.rebuild_node (info : NodeInfo) (form : StmtForm Stmt) :
    rebuild (node info form) = build (form.map Expr.rebuild rebuild) .unknown := by
  rw [rebuild]
  exact congrArg (build · .unknown) (StmtForm.map_attach Expr.rebuild rebuild form)

theorem Expr.rebuild_mapInfo (e : Expr) : (e.mapInfo f).rebuild = e.rebuild := by
  induction e using childrenInduction
  case h info form ih =>
    rw [mapInfo_node, rebuild_node, rebuild_node, ExprForm.map_map, ExprForm.map_congr ih]

theorem Stmt.rebuild_mapInfo (s : Stmt) : (s.mapInfo f).rebuild = s.rebuild := by
  induction s using stmtsInduction
  case h info form ih =>
    rw [mapInfo_node, rebuild_node, rebuild_node, StmtForm.map_map,
      StmtForm.map_congr (fun e _ => e.rebuild_mapInfo) ih]

-- Only the depth is kept.
def NodeInfo.anonymous (info : NodeInfo) : NodeInfo := ⟨0, .unknown, info.nesting⟩

theorem Expr.nesting_anonymous (e : Expr) :
    (e.mapInfo NodeInfo.anonymous).info.nesting = e.info.nesting := by
  rw [info_mapInfo, NodeInfo.anonymous]

theorem Expr.WellNested.rebuild_eq {e : Expr} (h : e.WellNested) :
    e.rebuild = e.mapInfo NodeInfo.anonymous := by
  induction h
  case node info form here below ih =>
    rw [rebuild_node, mapInfo_node, ExprForm.map_congr ih, build, NodeInfo.anonymous, here,
      ExprForm.children_map, List.map_map]
    congr 3
    exact List.map_congr_left fun c _ => c.nesting_anonymous

theorem Stmt.nesting_anonymous (s : Stmt) :
    (s.mapInfo NodeInfo.anonymous).info.nesting = s.info.nesting := by
  cases s
  rw [mapInfo_node, info, info, NodeInfo.anonymous]

theorem Stmt.WellNested.rebuild_eq {s : Stmt} (h : s.WellNested) :
    s.rebuild = s.mapInfo NodeInfo.anonymous := by
  induction h
  case node info form here below ih =>
    rw [rebuild_node, mapInfo_node,
      StmtForm.map_congr (fun e he => (here.1 e he).rebuild_eq) ih, build, NodeInfo.anonymous,
      here.2, StmtForm.exprs_map, StmtForm.stmts_map, List.map_map, List.map_map]
    congr 4
    · exact List.map_congr_left fun e _ => e.nesting_anonymous
    · exact List.map_congr_left fun s _ => s.nesting_anonymous

end

theorem Cell.placeless_ofBody (body : List Stmt) : (ofBody body).placeless
    = ⟨((body.map (Stmt.mapInfo NodeInfo.anonymous)).mapM Stmt.number |>.run 0).1,
      ((body.map (Stmt.mapInfo NodeInfo.anonymous)).mapM Stmt.number |>.run 0).2⟩ := by
  have h := List.map_mapM Stmt.number (Stmt.mapInfo NodeInfo.placeless) body
  have hnumber : (fun s => Stmt.mapInfo NodeInfo.placeless <$> s.number)
      = fun s : Stmt => (s.mapInfo NodeInfo.anonymous).number :=
    funext (Stmt.mapInfo_number fun _ _ => rfl)
  rw [hnumber] at h
  rw [List.mapM_map]
  change _ = Cell.mk ((body.mapM fun s : Stmt => (s.mapInfo NodeInfo.anonymous).number).run 0).1
    ((body.mapM fun s : Stmt => (s.mapInfo NodeInfo.anonymous).number).run 0).2
  rw [← h]
  rfl

theorem Cell.placeless_ofBody_congr {body body' : List Stmt}
    (hb : body'.map Stmt.bare = body.map Stmt.bare) (h : ∀ s ∈ body, s.WellNested)
    (h' : ∀ s ∈ body', s.WellNested) :
    (ofBody body').placeless = (ofBody body).placeless := by
  have key {ss : List Stmt} (hs : ∀ s ∈ ss, s.WellNested) :
      ss.map (Stmt.mapInfo NodeInfo.anonymous) = (ss.map Stmt.bare).map Stmt.rebuild := by
    rw [List.map_map]
    refine List.map_congr_left fun s hm => ?_
    rw [← (hs s hm).rebuild_eq]
    exact s.rebuild_mapInfo.symm
  rw [placeless_ofBody, placeless_ofBody, key h, key h', hb]

end NoteCell
