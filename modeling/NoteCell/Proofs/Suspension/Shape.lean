import NoteCell.Proofs.Tree.Ids
import NoteCell.Proofs.Tree.Numbered
import NoteCell.Suspension.Insertion

/-!
The shape of a tree with its suspension points. Which awaits are put in depends on the shape alone,
and where they have been put in none is pending any more.
-/
namespace NoteCell

-- The tree with its awaits, when nothing is asked of their ids and places.
def Expr.suspended (primitive : String) (inAwait : Bool) : Expr → Expr
  | .node info form =>
    let inner := Expr.node info
      (form.attach.map fun ⟨c, _h⟩ => suspended primitive (inAwait || form.isAwait) c)
    if !inAwait && (Expr.node info form).calls primitive then
      .node ⟨0, .unknown, 0⟩ (.await inner)
    else inner
termination_by e => sizeOf e
decreasing_by exact Expr.sizeOf_lt_of_mem _h

def Stmt.suspended (primitive : String) : Stmt → Stmt
  | .node info form =>
    .node info (form.attach.map (Expr.suspended primitive false) fun ⟨s, _h⟩ => suspended primitive s)
termination_by s => sizeOf s
decreasing_by exact Stmt.sizeOf_lt_of_mem _h

variable {primitive : String}

theorem ExprForm.isAwait_map {α β : Type} (f : α → β) (form : ExprForm α) :
    (form.map f).isAwait = form.isAwait := by
  cases form <;> rfl

namespace Expr

theorem suspended_node (inAwait : Bool) (info : NodeInfo) (form : ExprForm Expr) :
    suspended primitive inAwait (node info form)
      = if !inAwait && (node info form).calls primitive then
          node ⟨0, .unknown, 0⟩ (.await (node info
            (form.map (suspended primitive (inAwait || form.isAwait)))))
        else node info (form.map (suspended primitive (inAwait || form.isAwait))) := by
  rw [suspended]
  simp only [ExprForm.map_attach (suspended primitive (inAwait || form.isAwait)) form]

-- What is no call keeps its form.
theorem suspended_of_not_call {info : NodeInfo} {form : ExprForm Expr} {inAwait : Bool}
    (h : (node info form).callTarget? = none) : suspended primitive inAwait (node info form)
      = node info (form.map (suspended primitive (inAwait || form.isAwait))) := by
  rw [suspended_node, if_neg (by simp [calls, h])]

-- Below an await nothing is put in.
theorem suspended_inAwait (e : Expr) : e.suspended primitive true = e := by
  induction e using childrenInduction
  case h info form ih =>
    rw [suspended_node, if_neg (by simp), Bool.true_or, ExprForm.map_congr ih, ExprForm.map_id]

theorem callTarget?_bare (e : Expr) : e.bare.callTarget? = e.callTarget? := by
  obtain ⟨info, form⟩ := e
  cases form
  case call func args keywords =>
    obtain ⟨info', func⟩ := func
    rw [bare_node]
    simp only [ExprForm.map, bare_node]
    cases func <;> rfl
  all_goals
    rw [bare_node]
    rfl

theorem calls_bare (e : Expr) : e.bare.calls primitive = e.calls primitive := by
  rw [calls, calls, callTarget?_bare]

theorem bare_await (info : NodeInfo) (e : Expr) :
    (node info (.await e)).bare = node ⟨0, .unknown, 0⟩ (.await e.bare) :=
  bare_node info (.await e)

theorem bare_suspended_bare (e : Expr) (inAwait : Bool) :
    (e.bare.suspended primitive inAwait).bare = (e.suspended primitive inAwait).bare := by
  induction e using childrenInduction generalizing inAwait
  case h info form ih =>
    have hinner : ((form.map bare).map (suspended primitive (inAwait || form.isAwait))).map bare
        = (form.map (suspended primitive (inAwait || form.isAwait))).map bare := by
      rw [ExprForm.map_map, ExprForm.map_map, ExprForm.map_map]
      exact ExprForm.map_congr fun c hc => ih c hc _
    have hcalls := @calls_bare primitive (node info form)
    rw [bare_node] at hcalls ⊢
    rw [suspended_node, suspended_node, hcalls, ExprForm.isAwait_map]
    split
    · rw [bare_await, bare_await, bare_node, bare_node, hinner]
    · rw [bare_node, bare_node, hinner]

-- A call is a call of the primitive as it was before.
theorem callTarget?_suspended (info : NodeInfo) (form : ExprForm Expr) (inAwait : Bool) :
    (node info (form.map (suspended primitive inAwait))).callTarget? = (node info form).callTarget? := by
  cases form
  case call func args keywords =>
    obtain ⟨info', func⟩ := func
    simp only [ExprForm.map, suspended_node]
    split
    case isTrue hcalls =>
      cases func
      case call => rfl
      all_goals simp [calls, callTarget?] at hcalls
    case isFalse => cases func <;> rfl
  all_goals rfl

theorem suspended_suspended (e : Expr) (inAwait : Bool) :
    (e.suspended primitive inAwait).suspended primitive inAwait = e.suspended primitive inAwait := by
  induction e using childrenInduction generalizing inAwait
  case h info form ih =>
    have hcalls : (node info (form.map (suspended primitive (inAwait || form.isAwait)))).calls primitive
        = (node info form).calls primitive := by
      rw [calls, calls, callTarget?_suspended]
    have hinner : (form.map (suspended primitive (inAwait || form.isAwait))).map
        (suspended primitive (inAwait || form.isAwait))
          = form.map (suspended primitive (inAwait || form.isAwait)) := by
      rw [ExprForm.map_map]
      exact ExprForm.map_congr fun c hc => ih c hc _
    rw [suspended_node]
    split
    case isTrue =>
      rw [suspended_node, if_neg (by simp [calls, callTarget?])]
      simp only [ExprForm.map, ExprForm.isAwait, Bool.or_true, suspended_inAwait]
    case isFalse hno => rw [suspended_node, hcalls, if_neg hno, ExprForm.isAwait_map, hinner]

theorem suspend_node (inAwait : Bool) (info : NodeInfo) (form : ExprForm Expr) :
    suspend primitive inAwait (node info form) = do
      let inner ← form.traverse (suspend primitive (inAwait || form.isAwait))
      if !inAwait && (node info form).calls primitive then
        return (node info inner).awaited (← lastId)
      else return node info inner := by
  rw [suspend]
  exact congrArg (· >>= _) (ExprForm.traverse_attach (suspend primitive (inAwait || form.isAwait)) form)

-- What is put in is what the insertion puts in, whatever ids it uses.
theorem yields_suspend (e : Expr) (inAwait : Bool) :
    Yields (bare <$> e.suspend primitive inAwait) (e.suspended primitive inAwait).bare := by
  induction e using childrenInduction generalizing inAwait
  case h info form ih =>
    have hinner : Yields (ExprForm.map bare <$> form.traverse (suspend primitive (inAwait || form.isAwait)))
        ((form.map (suspended primitive (inAwait || form.isAwait))).map bare) := by
      rw [ExprForm.map_traverse, ExprForm.map_map]
      exact sequential_yields.traverse fun c hc => ih c hc _
    intro k
    have hk := hinner k
    rw [suspend_node, suspended_node]
    split
    case isTrue =>
      rw [bare_await, bare_node, ← hk]
      exact (bare_await _ _).trans (congrArg _ (congrArg _ (bare_node info _)))
    case isFalse =>
      rw [bare_node, ← hk]
      exact bare_node info _

end Expr

namespace Stmt

theorem suspended_node (info : NodeInfo) (form : StmtForm Stmt) :
    suspended primitive (node info form)
      = node info (form.map (Expr.suspended primitive false) (suspended primitive)) := by
  rw [suspended]
  exact congrArg _ (StmtForm.map_attach (Expr.suspended primitive false) (suspended primitive) form)

theorem bare_suspended_bare (s : Stmt) :
    (s.bare.suspended primitive).bare = (s.suspended primitive).bare := by
  induction s using stmtsInduction
  case h info form ih =>
    rw [bare_node, suspended_node, suspended_node, bare_node, bare_node, StmtForm.map_map,
      StmtForm.map_map, StmtForm.map_map]
    exact congrArg _ (StmtForm.map_congr (fun e _ => e.bare_suspended_bare false) ih)

theorem suspended_suspended (s : Stmt) :
    (s.suspended primitive).suspended primitive = s.suspended primitive := by
  induction s using stmtsInduction
  case h info form ih =>
    rw [suspended_node, suspended_node, StmtForm.map_map]
    exact congrArg _ (StmtForm.map_congr (fun e _ => e.suspended_suspended false) ih)

theorem suspend_node (info : NodeInfo) (form : StmtForm Stmt) :
    suspend primitive (node info form) = do
      return node info (← form.traverse (Expr.suspend primitive false) (suspend primitive)) := by
  rw [suspend]
  exact congrArg (· >>= _)
    (StmtForm.traverse_attach (Expr.suspend primitive false) (suspend primitive) form)

theorem yields_suspend (s : Stmt) :
    Yields (bare <$> s.suspend primitive) (s.suspended primitive).bare := by
  induction s using stmtsInduction
  case h info form ih =>
    have hinner : Yields (StmtForm.map Expr.bare bare
          <$> form.traverse (Expr.suspend primitive false) (suspend primitive))
        ((form.map (Expr.suspended primitive false) (suspended primitive)).map Expr.bare bare) := by
      rw [StmtForm.map_traverse, StmtForm.map_map]
      exact sequential_yields.traverseStmt (fun e _ => e.yields_suspend false) ih
    intro k
    rw [suspend_node, suspended_node, bare_node, ← hinner k]
    exact bare_node info _

end Stmt

-- The shape of a cell with its suspension points, from that of the cell.
def suspendedShape (primitive : String) (shape : List Stmt) : List Stmt :=
  shape.map fun s => (s.suspended primitive).bare

theorem suspendedShape_bare (body : List Stmt) :
    suspendedShape primitive (body.map Stmt.bare) = body.map fun s => (s.suspended primitive).bare := by
  rw [suspendedShape, List.map_map]
  exact List.map_congr_left fun s _ => s.bare_suspended_bare

theorem Cell.bare_suspend (c : Cell) : (c.suspend primitive).bare = suspendedShape primitive c.bare := by
  have h : Yields (List.map Stmt.bare <$> c.body.mapM (Stmt.suspend primitive))
      (c.body.map fun s => (s.suspended primitive).bare) := by
    rw [List.map_mapM]
    exact sequential_yields.mapM fun s _ => s.yields_suspend
  exact (h _).trans (suspendedShape_bare c.body).symm

theorem suspendedShape_suspendedShape (shape : List Stmt) :
    suspendedShape primitive (suspendedShape primitive shape) = suspendedShape primitive shape := by
  rw [suspendedShape, suspendedShape, List.map_map]
  refine List.map_congr_left fun s _ => ?_
  rw [Function.comp_apply, Stmt.bare_suspended_bare, Stmt.suspended_suspended]

end NoteCell
