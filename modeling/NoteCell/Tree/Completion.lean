import NoteCell.Tree.Basic

/-!
Completing trees. Every node gets an id, counting from zero in the order of `Cell.nodes`, and nodes
that were made without a place get the location of what is around.
-/
namespace NoteCell

/-! ### Ids -/

-- The next free id.
def freshId : StateM Nat Nat := modifyGet fun n => (n, n + 1)

def NodeInfo.withId (info : NodeInfo) (id : Nat) : NodeInfo := { info with id := id }

def Expr.number : Expr → StateM Nat Expr
  | .node info form => do
    let id ← freshId
    return .node (info.withId id) (← form.attach.traverse fun ⟨c, _h⟩ => number c)
termination_by e => sizeOf e
decreasing_by exact Expr.sizeOf_lt_of_mem _h

def Stmt.number : Stmt → StateM Nat Stmt
  | .node info form => do
    let id ← freshId
    return .node (info.withId id) (← form.attach.traverse Expr.number fun ⟨s, _h⟩ => number s)
termination_by s => sizeOf s
decreasing_by exact Stmt.sizeOf_lt_of_mem _h

-- The tree of the given statements, with ids from zero on.
def Cell.ofBody (body : List Stmt) : Cell :=
  let (body, nextId) := (body.mapM Stmt.number).run 0
  ⟨body, nextId⟩

/-!
### Locations

A missing end is taken from what the children cover, the least start or the greatest stop among
them, and failing that from the node around. Nothing lies around a statement of the body but the
empty place at the start of the source.
-/

def leastOf : List Nat → Option Nat
  | [] => none
  | n :: ns => some (ns.foldl min n)

def greatestOf : List Nat → Option Nat
  | [] => none
  | n :: ns => some (ns.foldl max n)

-- What locations cover together, as far as it is known.
def Location.hull (ls : List Location) : Location :=
  ⟨leastOf (ls.filterMap (·.start)), greatestOf (ls.filterMap (·.stop))⟩

-- What an expression covers: its own ends where it has them.
def Expr.covered : Expr → Location
  | .node info form =>
    info.location.orElse (.hull (form.children.attach.map fun ⟨c, _h⟩ => covered c))
termination_by e => sizeOf e
decreasing_by exact Expr.sizeOf_lt_of_mem _h

def Stmt.covered : Stmt → Location
  | .node info form =>
    info.location.orElse (.hull (form.exprs.map Expr.covered
      ++ form.stmts.attach.map fun ⟨s, _h⟩ => covered s))
termination_by s => sizeOf s
decreasing_by exact Stmt.sizeOf_lt_of_mem _h

def NodeInfo.withLocation (info : NodeInfo) (location : Location) : NodeInfo :=
  { info with location := location }

def Expr.repair (around : Location) : Expr → Expr
  | .node info form =>
    let own := (Expr.node info form).covered.orElse around
    .node (info.withLocation own) (form.attach.map fun ⟨c, _h⟩ => repair own c)
termination_by e => sizeOf e
decreasing_by exact Expr.sizeOf_lt_of_mem _h

def Stmt.repair (around : Location) : Stmt → Stmt
  | .node info form =>
    let own := (Stmt.node info form).covered.orElse around
    .node (info.withLocation own) (form.attach.map (Expr.repair own) fun ⟨s, _h⟩ => repair own s)
termination_by s => sizeOf s
decreasing_by exact Stmt.sizeOf_lt_of_mem _h

namespace Cell

def repair (c : Cell) : Cell :=
  { c with body := c.body.map (Stmt.repair (.between 0 0)) }

-- Ids of the nodes whose location is incomplete.
def missingLocations (c : Cell) : List Nat :=
  (c.nodes.filter fun n => !n.info.location.isComplete).map (·.info.id)

end Cell

end NoteCell
