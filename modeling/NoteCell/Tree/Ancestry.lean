import NoteCell.Tree.Basic

/-!
Who stands above whom in a tree. A tree only points downwards; links point from the id of a node to
the id of its parent, and questions about ancestors follow them.
-/
namespace NoteCell

-- Kinds of node as far as questions about ancestors tell them apart.
inductive NodeKind where
  | stmt | call | await | expr
deriving DecidableEq, Repr

def Node.kind : Node → NodeKind
  | .stmt _ => .stmt
  | .expr (.node _ (.call ..)) => .call
  | .expr (.node _ (.await _)) => .await
  | .expr _ => .expr

structure Link where
  id : Nat
  parent? : Option Nat
  kind : NodeKind
deriving DecidableEq, Repr

structure Ancestry where
  links : List Link

namespace Ancestry

def exprLinks (parent : Nat) : Expr → List Link
  | .node info form =>
    ⟨info.id, some parent, (Node.expr (.node info form)).kind⟩
      :: form.children.attach.flatMap fun ⟨c, _h⟩ => exprLinks info.id c
termination_by e => sizeOf e
decreasing_by exact Expr.sizeOf_lt_of_mem _h

def stmtLinks (parent? : Option Nat) : Stmt → List Link
  | .node info form =>
    ⟨info.id, parent?, .stmt⟩ :: (form.exprs.flatMap (exprLinks info.id)
      ++ form.stmts.attach.flatMap fun ⟨s, _h⟩ => stmtLinks (some info.id) s)
termination_by s => sizeOf s
decreasing_by exact Stmt.sizeOf_lt_of_mem _h

def ofCell (c : Cell) : Ancestry := ⟨c.body.flatMap (stmtLinks none)⟩

variable (a : Ancestry)

def link? (id : Nat) : Option Link := a.links.find? (·.id == id)

-- Nothing stands above a statement of the body or an unknown id.
def parent? (id : Nat) : Option Nat := a.link? id >>= Link.parent?

def kind? (id : Nat) : Option NodeKind := (a.link? id).map Link.kind

-- The ids above `id`, the nearest first, as far as `fuel` links lead.
def above : Nat → Nat → List Nat
  | 0, _ => []
  | fuel + 1, id =>
    match a.parent? id with
    | some p => p :: above fuel p
    | none => []

-- Every step upwards takes another link, so as many steps as there are links lead to the top.
def hasAncestor (id : Nat) (kind : NodeKind) : Bool :=
  (a.above a.links.length id).any fun p => a.kind? p == some kind

def size : Nat := a.links.length

end Ancestry
end NoteCell
