import NoteCell.Proofs.Tree.Numbered
import NoteCell.Proofs.Tree.Shape
import NoteCell.Tree.Completion

/-!
Ids. A pass visits the children of a node in their order, and numbering gives the nodes of a cell the
ids from zero on, in the order of its nodes. Completing locations leaves ids and shapes alone.
-/
namespace NoteCell

theorem Location.isComplete_orElse {l around : Location} (h : around.isComplete) :
    (l.orElse around).isComplete := by
  simp only [isComplete, orElse, Option.isSome_or, Bool.and_eq_true] at h ⊢
  simp [h]

namespace Expr

theorem repair_node (around : Location) (info : NodeInfo) (form : ExprForm Expr) :
    repair around (node info form)
      = node (info.withLocation ((node info form).covered.orElse around))
          (form.map (repair ((node info form).covered.orElse around))) := by
  rw [repair]
  exact congrArg _ (ExprForm.map_attach (repair _) form)

theorem bare_repair (e : Expr) (around : Location) : (e.repair around).bare = e.bare := by
  induction e using childrenInduction generalizing around
  case h info form ih =>
    rw [repair_node, bare_node, bare_node, ExprForm.map_map,
      ExprForm.map_congr fun c hc => ih c hc _]

theorem nodes_node (info : NodeInfo) (form : ExprForm Expr) :
    nodes (node info form) = node info form :: form.children.flatMap nodes := by
  rw [nodes, List.flatMap, List.flatMap]
  congr 2
  exact List.attach_map_val

theorem isComplete_repair (e : Expr) {around : Location} (h : around.isComplete) :
    ∀ n ∈ (e.repair around).nodes, n.info.location.isComplete := by
  induction e using childrenInduction generalizing around
  case h info form ih =>
    have hown := Location.isComplete_orElse (l := (node info form).covered) h
    rw [repair_node, nodes_node, ExprForm.children_map]
    refine List.forall_mem_cons.mpr ⟨hown, fun n hn => ?_⟩
    obtain ⟨_, hmem, hn⟩ := List.mem_flatMap.mp hn
    obtain ⟨c, hc, rfl⟩ := List.mem_map.mp hmem
    exact ih c hc hown n hn

end Expr

namespace Stmt

theorem repair_node (around : Location) (info : NodeInfo) (form : StmtForm Stmt) :
    repair around (node info form)
      = node (info.withLocation ((node info form).covered.orElse around))
          (form.map (Expr.repair ((node info form).covered.orElse around))
            (repair ((node info form).covered.orElse around))) := by
  rw [repair]
  exact congrArg _ (StmtForm.map_attach (Expr.repair _) (repair _) form)

theorem bare_repair (s : Stmt) (around : Location) : (s.repair around).bare = s.bare := by
  induction s using stmtsInduction generalizing around
  case h info form ih =>
    rw [repair_node, bare_node, bare_node, StmtForm.map_map,
      StmtForm.map_congr (fun e _ => e.bare_repair _) fun s hs => ih s hs _]

theorem nodes_node (info : NodeInfo) (form : StmtForm Stmt) :
    nodes (node info form) = .stmt (node info form)
      :: ((form.exprs.flatMap Expr.nodes).map .expr ++ form.stmts.flatMap nodes) := by
  rw [nodes, List.flatMap, List.flatMap]
  congr 3
  exact List.attach_map_val

theorem isComplete_repair (s : Stmt) {around : Location} (h : around.isComplete) :
    ∀ n ∈ (s.repair around).nodes, n.info.location.isComplete := by
  induction s using stmtsInduction generalizing around
  case h info form ih =>
    have hown := Location.isComplete_orElse (l := (node info form).covered) h
    rw [repair_node, nodes_node, StmtForm.exprs_map, StmtForm.stmts_map]
    refine List.forall_mem_cons.mpr ⟨hown, fun n hn => ?_⟩
    obtain hn | hn := List.mem_append.mp hn
    · obtain ⟨x, hx, rfl⟩ := List.mem_map.mp hn
      obtain ⟨_, he, hx⟩ := List.mem_flatMap.mp hx
      obtain ⟨e, _, rfl⟩ := List.mem_map.mp he
      exact e.isComplete_repair hown x hx
    · obtain ⟨_, hmem, hn⟩ := List.mem_flatMap.mp hn
      obtain ⟨t, ht, rfl⟩ := List.mem_map.mp hmem
      exact ih t ht hown n hn

end Stmt

theorem Cell.bare_repair (c : Cell) : c.repair.bare = c.bare := by
  rw [bare, repair, List.map_map]
  exact List.map_congr_left fun s _ => s.bare_repair _

theorem Cell.missingLocations_repair (c : Cell) : c.repair.missingLocations = [] := by
  rw [missingLocations, List.map_eq_nil_iff, List.filter_eq_nil_iff]
  intro n hn
  obtain ⟨_, hs, hn⟩ := List.mem_flatMap.mp hn
  obtain ⟨s, _, rfl⟩ := List.mem_map.mp hs
  simp [s.isComplete_repair rfl n hn]

/-! ### Passes child by child -/

section

variable {α β γ δ σ τ : Type} {m : Type → Type} [Monad m] [LawfulMonad m]

theorem List.flatMap_mapM {f : δ → m β} {F : α → m γ} {g : α → List δ} {h : γ → List β}
    (hF : ∀ a, h <$> F a = (g a).mapM f) (l : List α) :
    List.flatMap h <$> l.mapM F = (l.flatMap g).mapM f := by
  induction l
  case nil => simp
  case cons a l ih =>
    rw [List.flatMap_cons, List.mapM_append, ← hF a, ← ih]
    simp

theorem List.map_snd_mapM (f : α → m β) (l : List (γ × α)) :
    List.map (·.2) <$> l.mapM (fun x => Prod.mk x.1 <$> f x.2) = l.mapM (f ∘ (·.2)) := by
  rw [List.map_mapM]
  simp [Function.comp_def]

-- The children of a node are visited in their order.
theorem ExprForm.children_traverse (f : α → m β) (form : ExprForm α) :
    children <$> form.traverse f = form.children.mapM f := by
  cases form <;> simp [traverse, children]
  case dict entries => exact List.flatMap_mapM (fun x => by simp) entries
  case compare left rest => simp [← List.map_snd_mapM]
  case call func args keywords => simp [← List.map_snd_mapM]

theorem StmtForm.toList_traverseOption (f : Expr → m Expr) (value : Option Expr) :
    Option.toList <$> traverseOption f value = value.toList.mapM f := by
  cases value <;> simp [traverseOption]

-- The expressions of a statement are visited before the statements inside it.
theorem StmtForm.parts_traverse (f : Expr → m Expr) (g : σ → m τ) (form : StmtForm σ) :
    (fun form => (form.exprs, form.stmts)) <$> form.traverse f g = do
      let es ← form.exprs.mapM f
      let ss ← form.stmts.mapM g
      return (es, ss) := by
  cases form <;> simp [traverse, exprs, stmts]
  case define name params body isAsync =>
    have hparams := List.flatMap_mapM (fun p : Param => by
      simpa using toList_traverseOption f p.default?) params
      (F := fun p => Param.mk p.name <$> traverseOption f p.default?)
      (g := fun p => p.default?.toList) (h := fun p => p.default?.toList)
    simp only [List.filterMap_eq_flatMap_toList, ← hparams]
    simp
  case ret value | raise value => simp [← toList_traverseOption]

end

section

variable {α β σ τ : Type}

theorem ExprForm.run_traverse (f : α → StateM Nat β) (form : ExprForm α) (n : Nat) :
    ((form.traverse f).run n).1.children = ((form.children.mapM f).run n).1
      ∧ ((form.traverse f).run n).2 = ((form.children.mapM f).run n).2 := by
  rw [← children_traverse]
  exact ⟨rfl, rfl⟩

theorem StmtForm.run_traverse (f : Expr → StateM Nat Expr) (g : σ → StateM Nat τ)
    (form : StmtForm σ) (n : Nat) :
    ((form.traverse f g).run n).1.exprs = ((form.exprs.mapM f).run n).1
      ∧ ((form.traverse f g).run n).1.stmts
        = ((form.stmts.mapM g).run ((form.exprs.mapM f).run n).2).1
      ∧ ((form.traverse f g).run n).2
        = ((form.stmts.mapM g).run ((form.exprs.mapM f).run n).2).2 := by
  have h := congrArg (fun x : StateM Nat (List Expr × List τ) => x.run n) (parts_traverse f g form)
  exact ⟨congrArg (·.1.1) h, congrArg (·.1.2) h, congrArg (·.2) h⟩

theorem List.run_mapM_cons (f : α → StateM Nat β) (a : α) (l : List α) (n : Nat) :
    ((a :: l).mapM f).run n = (((f a).run n).1 :: ((l.mapM f).run ((f a).run n).2).1,
      ((l.mapM f).run ((f a).run n).2).2) := by
  rw [List.mapM_cons]
  rfl

end

/-! ### Numbering -/

def Expr.ids (e : Expr) : List Nat := e.nodes.map (·.info.id)

def Stmt.ids (s : Stmt) : List Nat := s.nodes.map (·.info.id)

def Cell.ids (c : Cell) : List Nat := c.nodes.map (·.info.id)

theorem Expr.ids_node (info : NodeInfo) (form : ExprForm Expr) :
    (node info form).ids = info.id :: form.children.flatMap ids := by
  rw [ids, nodes_node, List.map_cons, List.map_flatMap]
  rfl

theorem Stmt.ids_node (info : NodeInfo) (form : StmtForm Stmt) :
    (node info form).ids = info.id :: (form.exprs.flatMap Expr.ids ++ form.stmts.flatMap ids) := by
  rw [ids, nodes_node, List.map_cons, List.map_append, List.map_map, List.map_flatMap,
    List.map_flatMap]
  rfl

theorem Cell.ids_eq (c : Cell) : c.ids = c.body.flatMap Stmt.ids := List.map_flatMap

-- A pass that gives what it makes the ids that are next.
def Numbers {β : Type} (ids : β → List Nat) (x : StateM Nat β) : Prop :=
  ∀ k, ∃ size, ids (x.run k).1 = List.range' k size ∧ (x.run k).2 = k + size

theorem Numbers.mapM {α β : Type} {ids : β → List Nat} {f : α → StateM Nat β} {l : List α}
    (h : ∀ a ∈ l, Numbers ids (f a)) : Numbers (List.flatMap ids) (l.mapM f) := by
  induction l
  case nil => exact fun k => ⟨0, rfl, rfl⟩
  case cons a l ih =>
    intro k
    obtain ⟨size, hids, hnext⟩ := h a List.mem_cons_self k
    obtain ⟨size', hids', hnext'⟩ := ih (fun b hb => h b (List.mem_cons_of_mem _ hb)) (k + size)
    refine ⟨size + size', ?_, ?_⟩
    · rw [List.run_mapM_cons, List.flatMap_cons, hids, hnext, hids', List.range'_append_1]
    · rw [List.run_mapM_cons, hnext, hnext', Nat.add_assoc]

theorem Expr.numbers_number (e : Expr) : Numbers ids e.number := by
  induction e using childrenInduction
  case h info form ih =>
    intro k
    obtain ⟨size, hids, hnext⟩ := Numbers.mapM ih (k + 1)
    obtain ⟨hchildren, hstate⟩ := ExprForm.run_traverse number form (k + 1)
    have hrun : ((node info form).number).run k
        = (node (info.withId k) ((form.traverse number).run (k + 1)).1,
          ((form.traverse number).run (k + 1)).2) := by
      rw [number_node]
      rfl
    rw [hrun, ids_node, hchildren, hids, hstate, hnext]
    refine ⟨size + 1, ?_, by omega⟩
    rw [List.range'_succ]
    rfl

theorem Stmt.numbers_number (s : Stmt) : Numbers ids s.number := by
  induction s using stmtsInduction
  case h info form ih =>
    intro k
    obtain ⟨size, hids, hnext⟩ := Numbers.mapM (fun e (_ : e ∈ form.exprs) => e.numbers_number) (k + 1)
    obtain ⟨size', hids', hnext'⟩ := Numbers.mapM ih (k + 1 + size)
    obtain ⟨hexprs, hstmts, hstate⟩ := StmtForm.run_traverse Expr.number number form (k + 1)
    rw [hnext] at hstmts hstate
    have hrun : ((node info form).number).run k
        = (node (info.withId k) ((form.traverse Expr.number number).run (k + 1)).1,
          ((form.traverse Expr.number number).run (k + 1)).2) := by
      rw [number_node]
      rfl
    rw [hrun, ids_node, hexprs, hids, hstmts, hids', hstate, hnext']
    refine ⟨size + size' + 1, ?_, by omega⟩
    rw [List.range'_append_1, List.range'_succ]
    rfl

theorem Cell.ids_ofBody (body : List Stmt) :
    (ofBody body).ids = List.range (ofBody body).nextId := by
  obtain ⟨size, hids, hnext⟩ := Numbers.mapM (fun s (_ : s ∈ body) => s.numbers_number) 0
  change (Cell.mk ((body.mapM Stmt.number).run 0).1 ((body.mapM Stmt.number).run 0).2).ids
    = List.range ((body.mapM Stmt.number).run 0).2
  rw [ids_eq, hids, hnext, List.range_eq_range', Nat.zero_add]

end NoteCell
