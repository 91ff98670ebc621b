import NoteCell.Tree.Basic

/-!
Statements that stand where they have nothing to leave: a return outside functions, a break or
continue outside loops. The body of a function is outside the loops around it.
-/
namespace NoteCell

inductive Stray where
  | ret | breakLoop | continueLoop
deriving DecidableEq, Repr

def Stray.message : Stray → String
  | ret => "'return' outside function"
  | breakLoop => "'break' outside loop"
  | continueLoop => "'continue' not properly in loop"

-- What is open around a statement.
structure Surroundings where
  inFunction : Bool
  inLoop : Bool
deriving DecidableEq, Repr

namespace Surroundings

def none : Surroundings := ⟨false, false⟩

-- What is open around the statements inside a statement.
def inside {σ : Type} (around : Surroundings) : StmtForm σ → Surroundings
  | .define .. => ⟨true, false⟩
  | .whileLoop .. | .forEach .. => { around with inLoop := true }
  | _ => around

end Surroundings

def StmtForm.stray? {σ : Type} (around : Surroundings) : StmtForm σ → Option Stray
  | ret _ => if around.inFunction then none else some .ret
  | breakLoop => if around.inLoop then none else some .breakLoop
  | continueLoop => if around.inLoop then none else some .continueLoop
  | _ => none

-- The first stray statement and where it starts.
def Stmt.stray? (around : Surroundings) : Stmt → Option (Stray × Nat)
  | .node info form =>
    match form.stray? around with
    | some stray => some (stray, info.location.start.getD 0)
    | none => form.stmts.attach.findSome? fun ⟨s, _h⟩ => stray? (around.inside form) s
termination_by s => sizeOf s
decreasing_by exact Stmt.sizeOf_lt_of_mem _h

def Cell.stray? (c : Cell) : Option (Stray × Nat) := c.body.findSome? (Stmt.stray? .none)

end NoteCell
