import NoteCell.Proofs.Reading.Statements
import NoteCell.Proofs.Suspension.Shape
import NoteCell.Proofs.Tree.Ids

/-!
What the insertion of suspension points does to a tree. It puts an await around each call of the
primitive that stands below none, and nothing else: without the new awaits the tree is what it was.
-/
namespace NoteCell

/-! ### Places in a tree -/

-- An expression where it stands, with those that it stands in, the innermost first.
structure Site where
  expr : Expr
  above : List Expr

namespace Site

def isAwaited (s : Site) : Bool := s.above.any (·.form.isAwait)

-- A call of the primitive that waits for no answer.
def lacksAwait (p : String) (s : Site) : Bool := s.expr.calls p && !s.isAwaited

-- An await with an id that was free before.
def isAdded (limit : Nat) (s : Site) : Bool := s.expr.form.isAwait && decide (limit ≤ s.expr.info.id)

end Site

-- The places in an expression, each after those below it.
def Expr.sites (above : List Expr) : Expr → List Site
  | node info form =>
    (form.children.attach.flatMap fun ⟨c, _h⟩ => sites (node info form :: above) c)
      ++ [⟨node info form, above⟩]
termination_by e => sizeOf e
decreasing_by exact sizeOf_lt_of_mem _h

def Stmt.sites : Stmt → List Site
  | node _ form =>
    form.exprs.flatMap (Expr.sites []) ++ form.stmts.attach.flatMap fun ⟨s, _h⟩ => sites s
termination_by s => sizeOf s
decreasing_by exact sizeOf_lt_of_mem _h

def Cell.sites (c : Cell) : List Site := c.body.flatMap Stmt.sites

-- What an await waits for.
def Expr.awaited? : Expr → Option Expr
  | node _ (.await e) => some e
  | _ => none

-- The tree without the awaits whose ids were free before.
def Expr.contract (limit : Nat) : Expr → Expr
  | node info form =>
    let e := node info (form.attach.map fun ⟨c, _h⟩ => contract limit c)
    if limit ≤ info.id then e.awaited?.getD e else e
termination_by e => sizeOf e
decreasing_by exact sizeOf_lt_of_mem _h

def Stmt.contract (limit : Nat) : Stmt → Stmt
  | node info form =>
    node info (form.attach.map (Expr.contract limit) fun ⟨s, _h⟩ => contract limit s)
termination_by s => sizeOf s
decreasing_by exact sizeOf_lt_of_mem _h

def Cell.contract (limit : Nat) (c : Cell) : Cell := ⟨c.body.map (Stmt.contract limit), limit⟩

variable {p : String} {limit : Nat}

theorem Expr.sites_node (above : List Expr) (info : NodeInfo) (form : ExprForm Expr) :
    (node info form).sites above
      = form.children.flatMap (sites (node info form :: above)) ++ [⟨node info form, above⟩] := by
  rw [sites, List.flatMap, List.flatMap]
  congr 2
  exact List.attach_map_val

theorem Stmt.sites_node (info : NodeInfo) (form : StmtForm Stmt) :
    (node info form).sites = form.exprs.flatMap (Expr.sites []) ++ form.stmts.flatMap sites := by
  rw [sites, List.flatMap, List.flatMap, List.flatMap]
  congr 2
  exact List.attach_map_val

theorem Expr.contract_node {info : NodeInfo} (form : ExprForm Expr) (h : info.id < limit) :
    contract limit (node info form) = node info (form.map (contract limit)) := by
  rw [contract, if_neg (Nat.not_le.mpr h)]
  exact congrArg _ (ExprForm.map_attach (contract limit) form)

theorem Expr.contract_awaited (e : Expr) {id : Nat} (h : limit ≤ id) :
    (e.awaited id).contract limit = e.contract limit := by
  change contract limit (node _ (.await e)) = _
  rw [contract]
  exact if_pos h

theorem Stmt.contract_node (info : NodeInfo) (form : StmtForm Stmt) :
    contract limit (node info form) = node info (form.map (Expr.contract limit) (contract limit)) := by
  rw [contract]
  exact congrArg _ (StmtForm.map_attach (Expr.contract limit) (contract limit) form)

/-! ### How many ids are used -/

theorem Expr.pending_node (inAwait : Bool) (info : NodeInfo) (form : ExprForm Expr) :
    (node info form).pending p inAwait
      = if !inAwait && (node info form).calls p then
          info.id :: form.children.flatMap (pending p (inAwait || form.isAwait))
        else form.children.flatMap (pending p (inAwait || form.isAwait)) := by
  have h : form.children.flatMap (pending p (inAwait || form.isAwait))
      = form.children.attach.flatMap fun c => pending p (inAwait || form.isAwait) c.1 :=
    congrArg List.flatten (List.attach_map_val).symm
  rw [pending, h]

theorem Stmt.pending_node (info : NodeInfo) (form : StmtForm Stmt) :
    (node info form).pending p
      = form.exprs.flatMap (Expr.pending p false) ++ form.stmts.flatMap (pending p) := by
  rw [pending, List.flatMap, List.flatMap, List.flatMap]
  congr 2
  exact List.attach_map_val

theorem Expr.run_suspend (inAwait : Bool) (info : NodeInfo) (form : ExprForm Expr) (n : Nat) :
    ((node info form).suspend p inAwait).run n
      = let inner := (form.traverse (suspend p (inAwait || form.isAwait))).run n
        if !inAwait && (node info form).calls p then
          ((node info inner.1).awaited (inner.2 - 1), inner.2 - 1)
        else (node info inner.1, inner.2) := by
  rw [suspend_node]
  split <;> rfl

theorem Stmt.run_suspend (info : NodeInfo) (form : StmtForm Stmt) (n : Nat) :
    ((node info form).suspend p).run n
      = let inner := (form.traverse (Expr.suspend p false) (suspend p)).run n
        (node info inner.1, inner.2) := by
  rw [suspend_node]
  rfl

-- A pass that takes so many ids.
def Spends {α : Type} (x : StateM Nat α) (count : Nat) : Prop := ∀ n, (x.run n).2 = n - count

theorem Spends.mapM {α β γ : Type} {f : α → StateM Nat β} {ids : α → List γ} {l : List α}
    (h : ∀ a ∈ l, Spends (f a) (ids a).length) : Spends (l.mapM f) (l.flatMap ids).length := by
  induction l
  case nil => exact fun n => rfl
  case cons a l ih =>
    intro n
    rw [List.run_mapM_cons, h a List.mem_cons_self n,
      ih (fun b hb => h b (List.mem_cons_of_mem _ hb)), List.flatMap_cons, List.length_append]
    omega

theorem Expr.spends_suspend (e : Expr) (inAwait : Bool) :
    Spends (e.suspend p inAwait) (e.pending p inAwait).length := by
  induction e using childrenInduction generalizing inAwait
  case h info form ih =>
    intro n
    have hinner := Spends.mapM (fun c hc => ih c hc (inAwait || form.isAwait)) n
    rw [← (ExprForm.run_traverse _ _ _).2] at hinner
    rw [run_suspend, pending_node]
    dsimp only
    split
    · rw [hinner, List.length_cons, Nat.sub_sub]
    · exact hinner

theorem Stmt.spends_suspend (s : Stmt) :
    Spends (s.suspend p) (s.pending p).length := by
  induction s using stmtsInduction
  case h info form ih =>
    intro n
    have hexprs := Spends.mapM
      (fun e (_ : e ∈ form.exprs) => e.spends_suspend (p := p) false) n
    have hstmts := Spends.mapM ih (n - (form.exprs.flatMap (Expr.pending p false)).length)
    rw [← hexprs, ← (StmtForm.run_traverse _ _ _ _).2.2, hexprs] at hstmts
    rw [run_suspend, pending_node, List.length_append, ← Nat.sub_sub]
    exact hstmts

/-! ### Taking the awaits out again -/

-- What a pass makes if it starts with ids enough above the limit.
def Restores (limit : Nat) {α : Type} (x : StateM Nat α) (a : α) : Prop :=
  ∃ count, ∀ n, limit + count ≤ n → (x.run n).1 = a ∧ (x.run n).2 = n - count

theorem sequential_restores (limit : Nat) : Sequential (fun _ => Restores limit) where
  pure := ⟨0, fun _ _ => ⟨rfl, rfl⟩⟩
  bind {α β x a q b} hx hq := by
    obtain ⟨count, hx⟩ := hx
    obtain ⟨count', hq⟩ := hq
    refine ⟨count + count', fun n hn => ?_⟩
    obtain ⟨hvalue, hstate⟩ := hx n (by omega)
    obtain ⟨hvalue', hstate'⟩ := hq (n - count) (by omega)
    change ((q (x.run n).1).run (x.run n).2).1 = b ∧ ((q (x.run n).1).run (x.run n).2).2 = _
    rw [hvalue, hstate]
    exact ⟨hvalue', by omega⟩

theorem Expr.restores_suspend (e : Expr) (inAwait : Bool) (hids : ∀ id ∈ e.ids, id < limit) :
    Restores limit (contract limit <$> e.suspend p inAwait) e := by
  induction e using childrenInduction generalizing inAwait
  case h info form ih =>
    rw [ids_node, List.forall_mem_cons] at hids
    have hinner : Restores limit
        (ExprForm.map (contract limit) <$> form.traverse (suspend p (inAwait || form.isAwait)))
        form := by
      rw [ExprForm.map_traverse]
      have h := (sequential_restores limit).traverse fun c hc =>
        ih c hc (inAwait || form.isAwait) fun id hid => hids.2 id (List.mem_flatMap.mpr ⟨c, hc, hid⟩)
      rwa [ExprForm.map_id] at h
    obtain ⟨count, hinner⟩ := hinner
    have hcontract (inner : ExprForm Expr) := contract_node inner hids.1
    rw [suspend_node]
    split
    case isTrue =>
      refine ⟨count + 1, fun n hn => ?_⟩
      obtain ⟨hvalue, hstate⟩ := hinner n (by omega)
      have hid : limit ≤ ((form.traverse (suspend p (inAwait || form.isAwait))).run n).2 - 1 := by
        have hstate : ((form.traverse (suspend p (inAwait || form.isAwait))).run n).2 = _ := hstate
        omega
      refine ⟨(contract_awaited _ hid).trans ((hcontract _).trans (congrArg _ hvalue)), ?_⟩
      exact (congrArg (· - 1) hstate).trans (by omega)
    case isFalse =>
      refine ⟨count, fun n hn => ?_⟩
      obtain ⟨hvalue, hstate⟩ := hinner n hn
      exact ⟨(hcontract _).trans (congrArg _ hvalue), hstate⟩

theorem Stmt.restores_suspend (s : Stmt) (hids : ∀ id ∈ s.ids, id < limit) :
    Restores limit (contract limit <$> s.suspend p) s := by
  induction s using stmtsInduction
  case h info form ih =>
    rw [ids_node, List.forall_mem_cons, List.forall_mem_append] at hids
    have hinner : Restores limit (StmtForm.map (Expr.contract limit) (contract limit)
        <$> form.traverse (Expr.suspend p false) (suspend p)) form := by
      rw [StmtForm.map_traverse]
      have h := (sequential_restores limit).traverseStmt
        (fun e he => e.restores_suspend (p := p) false fun id hid =>
          hids.2.1 id (List.mem_flatMap.mpr ⟨e, he, hid⟩))
        fun s hs => ih s hs fun id hid => hids.2.2 id (List.mem_flatMap.mpr ⟨s, hs, hid⟩)
      rwa [StmtForm.map_id] at h
    obtain ⟨count, hinner⟩ := hinner
    rw [suspend_node]
    refine ⟨count, fun n hn => ?_⟩
    obtain ⟨hvalue, hstate⟩ := hinner n hn
    exact ⟨(contract_node info _).trans (congrArg _ hvalue), hstate⟩

-- As many ids are used as calls are pending.
theorem Restores.run_eq {α β : Type} {x : StateM Nat α} {f : α → β} {b : β} {count n : Nat}
    (h : Restores limit (f <$> x) b) (hx : Spends x count) (hn : limit + count ≤ n) :
    f (x.run n).1 = b := by
  obtain ⟨count', h⟩ := h
  have hstate := (h (limit + count + count') (by omega)).2
  have hcount : (x.run (limit + count + count')).2 = limit + count + count' - count' := hstate
  rw [hx] at hcount
  exact (h n (by omega)).1

/-! ### Calls without an await -/

-- The calls of the primitive among some places that no await stands above.
def lacking (p : String) (sites : List Site) : List Expr :=
  (sites.filter (Site.lacksAwait p)).map (·.expr)

theorem lacking_append (ss ts : List Site) : lacking p (ss ++ ts) = lacking p ss ++ lacking p ts := by
  rw [lacking, List.filter_append, List.map_append]
  rfl

theorem lacking_flatMap {α : Type} (f : α → List Site) (l : List α) :
    lacking p (l.flatMap f) = l.flatMap fun a => lacking p (f a) := by
  rw [lacking, List.filter_flatMap, List.map_flatMap]
  rfl

theorem Expr.lacking_node (above : List Expr) (info : NodeInfo) (form : ExprForm Expr) :
    lacking p ((node info form).sites above)
      = (form.children.flatMap fun c => lacking p (c.sites (node info form :: above)))
        ++ if (!above.any (·.form.isAwait)) && (node info form).calls p then [node info form] else [] := by
  rw [sites_node, lacking_append, lacking_flatMap, lacking, List.filter_singleton, Site.lacksAwait,
    Site.isAwaited, Bool.and_comm]
  dsimp only
  cases (!above.any (·.form.isAwait)) && (node info form).calls p <;> rfl

theorem Expr.length_lacking (e : Expr) (above : List Expr) :
    (lacking p (e.sites above)).length = (e.pending p (above.any (·.form.isAwait))).length := by
  induction e using childrenInduction generalizing above
  case h info form ih =>
    have hinner : (form.children.flatMap fun c => lacking p (c.sites (node info form :: above))).length
        = (form.children.flatMap
          (pending p (above.any (·.form.isAwait) || form.isAwait))).length := by
      rw [List.length_flatMap, List.length_flatMap]
      refine congrArg List.sum (List.map_congr_left fun c hc => ?_)
      rw [ih c hc, List.any_cons, Bool.or_comm]
      rfl
    rw [lacking_node, pending_node, List.length_append, hinner]
    split <;> rfl

theorem Stmt.length_lacking (s : Stmt) : (lacking p s.sites).length = (s.pending p).length := by
  induction s using stmtsInduction
  case h info form ih =>
    rw [sites_node, pending_node, lacking_append, List.length_append, List.length_append,
      lacking_flatMap, lacking_flatMap, List.length_flatMap, List.length_flatMap, List.length_flatMap,
      List.length_flatMap]
    congr 2
    · exact List.map_congr_left fun e _ => e.length_lacking []
    · exact List.map_congr_left ih

/-! ### The awaits that are put in -/

-- A pass with ids below `n` to give puts an await around each expression of `missing`.
structure Fills (limit n : Nat) (ids : List Nat) (missing : List Expr) (ids' : List Nat)
    (sites' : List Site) : Prop where
  ids_perm : ids'.Perm (ids ++ List.range' (n - missing.length) missing.length)
  added : (sites'.filter (Site.isAdded limit)).map (fun s => (s.expr.info.id, s.expr.contract limit))
    = (List.range' (n - missing.length) missing.length).reverse.zip missing

namespace Fills

variable {n : Nat} {i i' j j' : List Nat} {m k : List Expr} {s' t' : List Site}

theorem perm (h : Fills limit n i m i' s') (hi : i.Perm j) (hi' : i'.Perm j') :
    Fills limit n j m j' s' where
  ids_perm := hi'.symm.trans (h.ids_perm.trans (hi.append_right _))
  added := h.added

theorem cons (h : Fills limit n i m i' s') (id : Nat) : Fills limit n (id :: i) m (id :: i') s' where
  ids_perm := h.ids_perm.cons id
  added := h.added

theorem append (h : Fills limit n i m i' s') (h' : Fills limit (n - m.length) j k j' t')
    (hn : m.length + k.length ≤ n) : Fills limit n (i ++ j) (m ++ k) (i' ++ j') (s' ++ t') := by
  have hrange := @List.range'_append_1 (n - m.length - k.length) k.length m.length
  rw [Nat.sub_add_cancel (by omega), Nat.sub_sub, Nat.add_comm k.length, ← Nat.sub_sub] at hrange
  refine ⟨?_, ?_⟩
  · have hids := h.ids_perm
    have hids' := h'.ids_perm
    rw [List.perm_iff_count] at hids hids' ⊢
    intro id
    have hid := hids id
    have hid' := hids' id
    rw [List.length_append, ← Nat.sub_sub, ← hrange]
    simp only [List.count_append] at hid hid' ⊢
    omega
  · rw [List.length_append, ← Nat.sub_sub, ← hrange, List.reverse_append, List.filter_append, List.map_append, h.added, h'.added,
      List.zip_append (by simp)]

theorem nil : Fills limit n [] [] [] [] := ⟨.nil, rfl⟩

-- An expression that stays as it is, apart from what is below it.
theorem kept (e : Expr) (h : e.info.id < limit) (above : List Expr) :
    Fills limit n [e.info.id] [] [e.info.id] [⟨e, above⟩] where
  ids_perm := .refl _
  added := by
    rw [List.filter_singleton, Site.isAdded, decide_eq_false (Nat.not_le.mpr h), Bool.and_false]
    rfl

theorem wrapped {e : Expr} (e' : Expr) (h : e'.info.id < limit) (hn : limit < n)
    (hcontract : e'.contract limit = e) (above above' : List Expr) :
    Fills limit n [e'.info.id] [e] [n - 1, e'.info.id] [⟨e', above⟩, ⟨e'.awaited (n - 1), above'⟩] where
  ids_perm := .swap _ _ _
  added := by
    have hkept : Site.isAdded limit ⟨e', above⟩ = false := by
      rw [Site.isAdded, decide_eq_false (Nat.not_le.mpr h), Bool.and_false]
    have hadded : Site.isAdded limit ⟨e'.awaited (n - 1), above'⟩ = true :=
      decide_eq_true (Nat.le_sub_one_of_lt hn)
    rw [List.filter_cons_of_neg (by simp [hkept]), List.filter_cons_of_pos hadded, List.filter_nil,
      List.map_singleton, Expr.contract_awaited e' (Nat.le_sub_one_of_lt hn), hcontract]
    rfl

theorem mapM {α β : Type} {f : α → StateM Nat β} (ids : α → List Nat) (missing : α → List Expr)
    (ids' : β → List Nat) (sites' : β → List Site) {l : List α}
    (hspends : ∀ a ∈ l, Spends (f a) (missing a).length)
    (h : ∀ a ∈ l, ∀ n, limit + (missing a).length ≤ n →
      Fills limit n (ids a) (missing a) (ids' ((f a).run n).1) (sites' ((f a).run n).1))
    (hn : limit + (l.flatMap missing).length ≤ n) :
    Fills limit n (l.flatMap ids) (l.flatMap missing) (((l.mapM f).run n).1.flatMap ids')
      (((l.mapM f).run n).1.flatMap sites') := by
  induction l generalizing n
  case nil => exact .nil
  case cons a l ih =>
    rw [List.flatMap_cons, List.length_append] at hn
    have hroom : limit + (l.flatMap missing).length ≤ n - (missing a).length := by omega
    have hrest := ih (fun b hb => hspends b (List.mem_cons_of_mem _ hb))
      (fun b hb => h b (List.mem_cons_of_mem _ hb)) hroom
    rw [List.run_mapM_cons, hspends a List.mem_cons_self]
    simp only [List.flatMap_cons]
    exact (h a List.mem_cons_self n (by omega)).append hrest (by omega)

end Fills

theorem Expr.ids_awaited (e : Expr) (id : Nat) : (e.awaited id).ids = id :: e.ids := by
  change ids (node _ (.await e)) = _
  rw [ids_node]
  exact congrArg (_ :: ·) (List.append_nil _)

theorem Expr.sites_awaited (e : Expr) (id : Nat) (above : List Expr) :
    (e.awaited id).sites above = e.sites (e.awaited id :: above) ++ [⟨e.awaited id, above⟩] := by
  change sites above (node _ (.await e)) = _
  rw [sites_node]
  exact congrArg (· ++ _) (List.append_nil _)

-- What goes for the children of a node, goes for those of the node that is made of it.
theorem Expr.fills_children {info : NodeInfo} {form : ExprForm Expr} {above : List Expr}
    {inAwait : Bool} (above' : List Expr) {n : Nat}
    (hbelow : (node info form :: above).any (·.form.isAwait) = inAwait)
    (hn : limit + (form.children.flatMap fun c =>
      lacking p (c.sites (node info form :: above))).length ≤ n)
    (h : ∀ c ∈ form.children, ∀ n, limit + (lacking p (c.sites (node info form :: above))).length ≤ n →
      Fills limit n c.ids (lacking p (c.sites (node info form :: above)))
        ((c.suspend p inAwait).run n).1.ids (((c.suspend p inAwait).run n).1.sites above')) :
    Fills limit n (form.children.flatMap ids)
        (form.children.flatMap fun c => lacking p (c.sites (node info form :: above)))
        (((form.traverse (suspend p inAwait)).run n).1.children.flatMap ids)
        (((form.traverse (suspend p inAwait)).run n).1.children.flatMap (sites above'))
      ∧ ((form.traverse (suspend p inAwait)).run n).2
        = n - (form.children.flatMap fun c => lacking p (c.sites (node info form :: above))).length := by
  have hspends (c : Expr) (_ : c ∈ form.children) :
      Spends (suspend p inAwait c) (lacking p (c.sites (node info form :: above))).length := by
    rw [Expr.length_lacking, hbelow]
    exact c.spends_suspend _
  rw [(ExprForm.run_traverse _ _ _).1, (ExprForm.run_traverse _ _ _).2]
  exact ⟨.mapM ids _ ids (sites above') hspends h hn, Spends.mapM hspends n⟩

theorem Expr.fills_suspend (e : Expr) (above above' : List Expr) {n : Nat}
    (hids : ∀ id ∈ e.ids, id < limit) (hn : limit + (lacking p (e.sites above)).length ≤ n) :
    Fills limit n e.ids (lacking p (e.sites above))
      ((e.suspend p (above.any (·.form.isAwait))).run n).1.ids
      (((e.suspend p (above.any (·.form.isAwait))).run n).1.sites above') := by
  induction e using childrenInduction generalizing above above' n
  case h info form ih =>
    have hcontract : (((node info form).suspend p (above.any (·.form.isAwait))).run n).1.contract limit
        = node info form :=
      ((node info form).restores_suspend _ hids).run_eq ((node info form).spends_suspend _)
        (by rwa [← Expr.length_lacking _ above])
    rw [ids_node, List.forall_mem_cons] at hids
    generalize hinAwait : above.any (·.form.isAwait) = inAwait at hcontract ⊢
    have hbelow : (node info form :: above).any (·.form.isAwait) = (inAwait || form.isAwait) := by
      rw [List.any_cons, hinAwait, Bool.or_comm]
      rfl
    rw [lacking_node, hinAwait, List.length_append] at hn
    have hroom := Nat.le_trans (Nat.add_le_add_left (Nat.le_add_right _ _) _) hn
    have hchildren (around : List Expr) := fills_children around hbelow hroom
      fun c hc n hn => hbelow ▸ ih c hc (node info form :: above) around
        (fun id hid => hids.2 id (List.mem_flatMap.mpr ⟨c, hc, hid⟩)) hn
    rw [run_suspend] at hcontract ⊢
    rw [lacking_node, hinAwait, ids_node]
    generalize (form.traverse (suspend p (inAwait || form.isAwait))).run n = inner
      at hchildren hcontract
    obtain ⟨inner, next⟩ := inner
    have hnext := (hchildren []).2
    dsimp only at hchildren hcontract hnext ⊢
    split at hcontract
    case isTrue hcalls =>
      rw [if_pos hcalls] at hn ⊢
      rw [List.length_singleton] at hn
      rw [contract_awaited _ (by omega)] at hcontract
      rw [if_pos hcalls, ids_awaited, ids_node, sites_awaited, sites_node, List.append_assoc]
      generalize hwrapper : (node info inner).awaited (next - 1) = wrapper
      have hwrapped := Fills.wrapped (node info inner) hids.1 (n := next) (by omega) hcontract
        (wrapper :: above') above'
      rw [hwrapper, hnext] at hwrapped
      have htop := (hchildren (node info inner :: wrapper :: above')).1.append hwrapped
        (by rw [List.length_singleton]; omega)
      rw [← hnext] at htop
      exact htop.perm (List.perm_append_singleton _ _) List.perm_append_comm
    case isFalse hcalls =>
      rw [if_neg hcalls, if_neg hcalls, ids_node, sites_node]
      have htop := (hchildren (node info inner :: above')).1.append
        (.kept (node info inner) hids.1 above') (by rw [List.length_nil]; omega)
      exact htop.perm (List.perm_append_singleton _ _) (List.perm_append_singleton _ _)

theorem Stmt.fills_suspend (s : Stmt) {n : Nat} (hids : ∀ id ∈ s.ids, id < limit)
    (hn : limit + (lacking p s.sites).length ≤ n) :
    Fills limit n s.ids (lacking p s.sites) ((s.suspend p).run n).1.ids
      ((s.suspend p).run n).1.sites := by
  induction s using stmtsInduction generalizing n
  case h info form ih =>
    rw [ids_node, List.forall_mem_cons, List.forall_mem_append] at hids
    rw [sites_node, lacking_append, lacking_flatMap, lacking_flatMap, List.length_append] at hn
    have hspends (e : Expr) (_ : e ∈ form.exprs) :
        Spends (e.suspend p false) (lacking p (e.sites [])).length := by
      rw [Expr.length_lacking]
      exact e.spends_suspend false
    have hspends' (s : Stmt) (_ : s ∈ form.stmts) : Spends (s.suspend p) (lacking p s.sites).length := by
      rw [length_lacking]
      exact s.spends_suspend
    obtain ⟨hexprs, hstmts, hstate⟩ := StmtForm.run_traverse (Expr.suspend p false) (suspend p) form n
    have hfills := Fills.mapM Expr.ids (fun e => lacking p (e.sites [])) Expr.ids (Expr.sites [])
      hspends (fun e he n hn => e.fills_suspend [] [] (fun id hid =>
        hids.2.1 id (List.mem_flatMap.mpr ⟨e, he, hid⟩)) hn)
      (Nat.le_trans (Nat.add_le_add_left (Nat.le_add_right _ _) _) hn)
    rw [Spends.mapM hspends] at hstmts
    have hfills' := Fills.mapM ids (fun s => lacking p s.sites) ids sites hspends'
      (fun s hs n hn => ih s hs (fun id hid => hids.2.2 id (List.mem_flatMap.mpr ⟨s, hs, hid⟩)) hn)
      (n := n - (form.exprs.flatMap fun e => lacking p (e.sites [])).length) (by omega)
    rw [run_suspend, sites_node, sites_node, ids_node, ids_node, lacking_append, lacking_flatMap,
      lacking_flatMap, hexprs, hstmts]
    exact (hfills.append hfills' (by omega)).cons info.id

/-! ### Where an await is above a call afterwards -/

theorem List.exists_of_mem_run_mapM {α β : Type} {f : α → StateM Nat β} {l : List α} {n : Nat} {b : β}
    (h : b ∈ ((l.mapM f).run n).1) : ∃ a ∈ l, ∃ k, b = ((f a).run k).1 := by
  induction l generalizing n
  case nil => cases h
  case cons a l ih =>
    rw [List.run_mapM_cons] at h
    obtain rfl | h := List.mem_cons.mp h
    · exact ⟨a, List.mem_cons_self, n, rfl⟩
    · obtain ⟨c, hc, k, hb⟩ := ih h
      exact ⟨c, List.mem_cons_of_mem _ hc, k, hb⟩

theorem Expr.bare_traverse (inAwait : Bool) (form : ExprForm Expr) (n : Nat) :
    ((form.traverse (suspend p inAwait)).run n).1.map bare
      = (form.map (suspended p inAwait)).map bare := by
  have hshape : Yields (ExprForm.map bare <$> form.traverse (suspend p inAwait))
      ((form.map (suspended p inAwait)).map bare) := by
    rw [ExprForm.map_traverse, ExprForm.map_map]
    exact sequential_yields.traverse fun c _ => c.yields_suspend inAwait
  exact hshape n

-- A call is a call of what it was a call of before.
theorem Expr.calls_traverse (inAwait : Bool) (info : NodeInfo) (form : ExprForm Expr) (n : Nat) :
    (node info ((form.traverse (suspend p inAwait)).run n).1).calls p = (node info form).calls p := by
  rw [← calls_bare, bare_node, bare_traverse, ← bare_node info, calls_bare, calls,
    callTarget?_suspended, calls]

theorem Expr.isAwait_traverse (inAwait : Bool) (form : ExprForm Expr) (n : Nat) :
    ((form.traverse (suspend p inAwait)).run n).1.isAwait = form.isAwait := by
  rw [← ExprForm.isAwait_map bare, bare_traverse, ExprForm.isAwait_map, ExprForm.isAwait_map]

theorem Expr.isAwaited_suspend (e : Expr) {inAwait : Bool} {above : List Expr} {n : Nat}
    (habove : inAwait → above.any (·.form.isAwait)) :
    ∀ s ∈ ((e.suspend p inAwait).run n).1.sites above, s.expr.calls p → s.isAwaited := by
  induction e using childrenInduction generalizing inAwait above n
  case h info form ih =>
    have hbelow {around : List Expr} (haround : (inAwait || form.isAwait) → around.any (·.form.isAwait))
        (s : Site) (hs : s ∈ ((form.traverse (suspend p (inAwait || form.isAwait))).run n).1.children.flatMap
          (sites around)) : s.expr.calls p → s.isAwaited := by
      rw [(ExprForm.run_traverse _ _ _).1] at hs
      obtain ⟨c', hc', hs⟩ := List.mem_flatMap.mp hs
      obtain ⟨c, hc, k, rfl⟩ := List.exists_of_mem_run_mapM hc'
      exact ih c hc haround s hs
    have hcalls := calls_traverse (p := p) (inAwait || form.isAwait) info form n
    have hisAwait := isAwait_traverse (p := p) (inAwait || form.isAwait) form n
    rw [run_suspend]
    dsimp only
    generalize (form.traverse (suspend p (inAwait || form.isAwait))).run n = inner at hbelow hcalls hisAwait
    intro s hs
    split at hs
    case isTrue =>
      rw [sites_awaited, sites_node] at hs
      obtain hs | hs := List.mem_append.mp hs
      · obtain hs | hs := List.mem_append.mp hs
        · refine hbelow (fun _ => ?_) s hs
          rw [List.any_cons, List.any_cons]
          exact Bool.or_eq_true_iff.mpr (.inr rfl)
        · obtain rfl := List.mem_singleton.mp hs
          exact fun _ => rfl
      · obtain rfl := List.mem_singleton.mp hs
        intro hcall
        cases hcall
    case isFalse hno =>
      rw [sites_node] at hs
      obtain hs | hs := List.mem_append.mp hs
      · refine hbelow (fun h => ?_) s hs
        rw [List.any_cons]
        obtain h | h := Bool.or_eq_true_iff.mp h
        · exact Bool.or_eq_true_iff.mpr (.inr (habove h))
        · exact Bool.or_eq_true_iff.mpr (.inl (hisAwait.trans h))
      · obtain rfl := List.mem_singleton.mp hs
        intro hcall
        rw [← hcalls, Bool.and_eq_true, not_and_or, Bool.not_eq_true', Bool.not_eq_false] at hno
        exact habove (hno.resolve_right (not_not_intro hcall))

theorem Stmt.isAwaited_suspend (s : Stmt) {n : Nat} :
    ∀ t ∈ ((s.suspend p).run n).1.sites, t.expr.calls p → t.isAwaited := by
  induction s using stmtsInduction generalizing n
  case h info form ih =>
    obtain ⟨hexprs, hstmts, -⟩ := StmtForm.run_traverse (Expr.suspend p false) (suspend p) form n
    rw [run_suspend, sites_node, hexprs, hstmts]
    intro t ht
    obtain ht | ht := List.mem_append.mp ht
    · obtain ⟨e', he', ht⟩ := List.mem_flatMap.mp ht
      obtain ⟨e, he, k, rfl⟩ := List.exists_of_mem_run_mapM he'
      exact e.isAwaited_suspend (by simp) t ht
    · obtain ⟨s', hs', ht⟩ := List.mem_flatMap.mp ht
      obtain ⟨s, hs, k, rfl⟩ := List.exists_of_mem_run_mapM hs'
      exact ih s hs t ht

/-! ### Where nothing is pending -/

theorem Expr.yields_suspend_of_pending (e : Expr) {inAwait : Bool} (h : e.pending p inAwait = []) :
    Yields (e.suspend p inAwait) e := by
  induction e using childrenInduction generalizing inAwait
  case h info form ih =>
    rw [pending_node] at h
    split at h
    case isTrue => cases h
    case isFalse hno =>
      have hinner := sequential_yields.traverse fun c hc => ih c hc (List.flatMap_eq_nil_iff.mp h c hc)
      rw [ExprForm.map_id] at hinner
      rw [suspend_node]
      refine sequential_yields.bind hinner ?_
      rw [if_neg hno]
      exact sequential_yields.pure

theorem Stmt.yields_suspend_of_pending (s : Stmt) (h : s.pending p = []) : Yields (s.suspend p) s := by
  induction s using stmtsInduction
  case h info form ih =>
    rw [pending_node, List.append_eq_nil_iff] at h
    have hinner := sequential_yields.traverseStmt
      (fun e he => e.yields_suspend_of_pending (List.flatMap_eq_nil_iff.mp h.1 e he))
      (fun s hs => ih s hs (List.flatMap_eq_nil_iff.mp h.2 s hs))
    rw [StmtForm.map_id] at hinner
    rw [suspend_node]
    exact sequential_yields.bind hinner sequential_yields.pure

/-! ### Cells -/

namespace Cell

variable {c : Cell}

-- The ids of the nodes are the ids that were given out.
def Numbered (c : Cell) : Prop := c.ids.Perm (List.range c.nextId)

-- The awaits with ids that were free, each after those below it.
def added (limit : Nat) (c : Cell) : List Site := c.sites.filter (Site.isAdded limit)

theorem Numbered.lt (h : c.Numbered) {s : Stmt} (hs : s ∈ c.body) : ∀ id ∈ s.ids, id < c.nextId := by
  intro id hid
  have hmem : id ∈ c.ids := by
    rw [ids_eq]
    exact List.mem_flatMap.mpr ⟨s, hs, hid⟩
  exact List.mem_range.mp (h.mem_iff.mp hmem)

theorem length_lacking (c : Cell) : (lacking p c.sites).length = (c.pending p).length := by
  rw [sites, lacking_flatMap, pending, List.length_flatMap, List.length_flatMap]
  exact congrArg List.sum (List.map_congr_left fun s _ => s.length_lacking)

theorem nextId_suspend (c : Cell) :
    (c.suspend p).nextId = c.nextId + (lacking p c.sites).length := by
  rw [length_lacking]
  rfl

theorem contract_suspend (h : c.Numbered) : (c.suspend p).contract c.nextId = c := by
  have hbody : Restores c.nextId (List.map (Stmt.contract c.nextId) <$> c.body.mapM (Stmt.suspend p))
      c.body := by
    rw [List.map_mapM]
    have h := (sequential_restores c.nextId).mapM fun (s : Stmt) hs =>
      s.restores_suspend (p := p) (h.lt hs)
    rwa [List.map_id'] at h
  have hspends := Spends.mapM fun s (_ : s ∈ c.body) => s.spends_suspend (p := p)
  have hrun := hbody.run_eq hspends (n := c.nextId + (c.pending p).length) (Nat.le_refl _)
  obtain ⟨body, nextId⟩ := c
  exact congrArg (Cell.mk · nextId) hrun

theorem fills_suspend (h : c.Numbered) :
    Fills c.nextId (c.suspend p).nextId c.ids (lacking p c.sites) (c.suspend p).ids
      (c.suspend p).sites := by
  have hspends (s : Stmt) (_ : s ∈ c.body) : Spends (s.suspend p) (lacking p s.sites).length := by
    rw [Stmt.length_lacking]
    exact s.spends_suspend
  have hroom : c.nextId + (c.body.flatMap fun s => lacking p s.sites).length ≤ (c.suspend p).nextId := by
    rw [nextId_suspend, sites, lacking_flatMap]
  have hfills := Fills.mapM Stmt.ids (fun s => lacking p s.sites) Stmt.ids Stmt.sites hspends
    (fun s hs n hn => s.fills_suspend (h.lt hs) hn) hroom
  rw [ids_eq, ids_eq, sites, sites, lacking_flatMap]
  exact hfills

theorem numbered_suspend (h : c.Numbered) (p : String) : (c.suspend p).Numbered := by
  have hids := (fills_suspend (p := p) h).ids_perm
  rw [nextId_suspend, Nat.add_sub_cancel] at hids
  refine hids.trans ((h.append_right _).trans ?_)
  rw [nextId_suspend, List.range_eq_range', List.range_eq_range']
  have hrange := @List.range'_append_1 0 c.nextId (lacking p c.sites).length
  rw [Nat.zero_add] at hrange
  rw [hrange]

theorem numbered_ofBody (body : List Stmt) : (ofBody body).Numbered := by
  rw [Numbered, ids_ofBody]

theorem pending_suspend (c : Cell) : (c.suspend p).pending p = [] := by
  have hawaited : lacking p (c.suspend p).sites = [] := by
    refine List.map_eq_nil_iff.mpr (List.filter_eq_nil_iff.mpr fun s hs => ?_)
    obtain ⟨s', hs', hs⟩ := List.mem_flatMap.mp hs
    obtain ⟨t, -, k, rfl⟩ := List.exists_of_mem_run_mapM hs'
    have hawaited := t.isAwaited_suspend s hs
    rw [Site.lacksAwait, Bool.and_eq_true, Bool.not_eq_true', not_and, Bool.not_eq_false]
    exact hawaited
  have hlength := length_lacking (p := p) (c.suspend p)
  rw [hawaited] at hlength
  exact List.eq_nil_of_length_eq_zero hlength.symm

theorem suspend_eq (h : c.pending p = []) : c.suspend p = c := by
  have hbody : Yields (c.body.mapM (Stmt.suspend p)) (c.body.map fun s => s) :=
    sequential_yields.mapM fun s hs => s.yields_suspend_of_pending (List.flatMap_eq_nil_iff.mp h s hs)
  rw [List.map_id'] at hbody
  rw [suspend, h, hbody]
  rfl

-- A cell that was read, and had suspension points put in any number of times.
inductive Reached : Cell → Prop
  | read {source : String} {c : Cell} (h : parse source = .ok c) : Reached c
  | suspend {c : Cell} (h : Reached c) (p : String) : Reached (c.suspend p)

theorem Reached.numbered (h : c.Reached) : c.Numbered := by
  induction h
  case read hparse =>
    obtain ⟨⟨body, rfl, -⟩, -⟩ := sound_of_parse hparse
    exact numbered_ofBody body
  case suspend p ih => exact numbered_suspend ih p

-- One tree is the other with its suspension points put in.
structure Inserted (p : String) (c d : Cell) : Prop where
  -- The calls that get an await are those of the primitive that no await stood above.
  wrapped : (d.added c.nextId).map (·.expr.contract c.nextId) = lacking p c.sites
  pending : (c.pending p).length = (lacking p c.sites).length
  -- Nothing else changes.
  contracted : d.contract c.nextId = c
  -- An await stands above every call of the primitive, so nothing is left to do.
  awaited : ∀ s ∈ d.sites, s.expr.calls p → s.isAwaited
  settled : d.pending p = [] ∧ d.suspend p = d
  ids : d.ids.Perm (List.range d.nodes.length)
  nextId : d.nextId = d.nodes.length
  -- The call that is left first gets the greatest of the new ids.
  newIds : (d.added c.nextId).map (·.expr.info.id)
    = (List.range' c.nextId (c.pending p).length).reverse

theorem inserted_suspend (h : c.Reached) (p : String) : Inserted p c (c.suspend p) := by
  have hnumbered := h.numbered
  have hfills := (fills_suspend (p := p) hnumbered).added
  rw [nextId_suspend, Nat.add_sub_cancel] at hfills
  have hlength : (List.range' c.nextId (lacking p c.sites).length).reverse.length
      = (lacking p c.sites).length := by simp
  have hids := (h.suspend p).numbered
  have hnext : (c.suspend p).nextId = (c.suspend p).nodes.length := by
    simpa [Cell.ids] using hids.length_eq.symm
  exact
    { wrapped := by
        have h := congrArg (List.map Prod.snd) hfills
        rwa [List.map_map, List.map_snd_zip (Nat.le_of_eq hlength.symm)] at h
      pending := c.length_lacking.symm
      contracted := contract_suspend hnumbered
      awaited := fun s hs => by
        obtain ⟨s', hs', hs⟩ := List.mem_flatMap.mp hs
        obtain ⟨t, -, k, rfl⟩ := List.exists_of_mem_run_mapM hs'
        exact t.isAwaited_suspend s hs
      settled := ⟨c.pending_suspend, suspend_eq c.pending_suspend⟩
      ids := hnext ▸ hids
      nextId := hnext
      newIds := by
        have h := congrArg (List.map Prod.fst) hfills
        rwa [List.map_map, List.map_fst_zip (Nat.le_of_eq hlength), length_lacking] at h }

-- Of two calls, the one inside the other gets the greater id.
theorem inserted_suspend_nested : ∃ c, parse "input(input('a'))" = .ok c
    ∧ Inserted "input" c (c.suspend "input")
    ∧ ((c.suspend "input").added c.nextId).map (·.expr.info.id) = [7, 6] := by
  have hids : (parse "input(input('a'))").toOption.any (fun c => c.nextId = 6
      ∧ (c.pending "input").length = 2) = true := by decide +kernel
  cases hparse : parse "input(input('a'))" with
  | error e =>
    rw [hparse] at hids
    cases hids
  | ok c =>
    rw [hparse] at hids
    obtain ⟨hnext, hpending⟩ := of_decide_eq_true hids
    have h := inserted_suspend (.read hparse) "input"
    have hnew := h.newIds
    refine ⟨c, rfl, h, ?_⟩
    rw [hpending, hnext] at hnew
    rw [hnext]
    exact hnew

end Cell

end NoteCell
