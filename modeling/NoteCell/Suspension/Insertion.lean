import NoteCell.Parsing.Statement
import NoteCell.Tree.Completion
import NoteCell.Tree.Printing

/-!
Suspension points. A call of the primitive by its bare name waits for an answer, so an await is put
around it, unless one stands somewhere above it already. A source gets what is missing by way of its
tree, which is written down again; a source that cannot be read stays as it is.
-/
namespace NoteCell

-- The primitive unless another is asked for.
def defaultPrimitive : String := "input"

def ExprForm.isAwait {α : Type} : ExprForm α → Bool
  | await _ => true
  | _ => false

-- An await around an expression. It knows where it starts and not where it ends.
def Expr.awaited (e : Expr) (id : Nat) : Expr :=
  let wrapper := Expr.build (.await e) ⟨e.info.location.start, none⟩
  .node (wrapper.info.withId id) wrapper.form

def Expr.calls (e : Expr) (primitive : String) : Bool :=
  e.callTarget? == some primitive

-- The ids of the calls in an expression that lack an await. `inAwait` says whether one stands
-- above.
def Expr.pending (primitive : String) (inAwait : Bool) : Expr → List Nat
  | .node info form =>
    let inner := form.children.attach.flatMap fun ⟨c, _h⟩ =>
      pending primitive (inAwait || form.isAwait) c
    if !inAwait && (Expr.node info form).calls primitive then info.id :: inner else inner
termination_by e => sizeOf e
decreasing_by exact Expr.sizeOf_lt_of_mem _h

def Stmt.pending (primitive : String) : Stmt → List Nat
  | .node _ form =>
    form.exprs.flatMap (Expr.pending primitive false)
      ++ form.stmts.attach.flatMap fun ⟨s, _h⟩ => pending primitive s
termination_by s => sizeOf s
decreasing_by exact Stmt.sizeOf_lt_of_mem _h

def Cell.pending (primitive : String) (c : Cell) : List Nat :=
  c.body.flatMap (Stmt.pending primitive)

-- Takes the greatest id that is left.
def lastId : StateM Nat Nat := modifyGet fun n => (n - 1, n - 1)

-- Puts in the awaits that are pending, first inside a call and then around it.
def Expr.suspend (primitive : String) (inAwait : Bool) : Expr → StateM Nat Expr
  | .node info form => do
    let inner ← form.attach.traverse fun ⟨c, _h⟩ => suspend primitive (inAwait || form.isAwait) c
    let e := Expr.node info inner
    if !inAwait && (Expr.node info form).calls primitive then return e.awaited (← lastId)
    else return e
termination_by e => sizeOf e
decreasing_by exact Expr.sizeOf_lt_of_mem _h

def Stmt.suspend (primitive : String) : Stmt → StateM Nat Stmt
  | .node info form =>
    return .node info (← form.attach.traverse (Expr.suspend primitive false)
      fun ⟨s, _h⟩ => suspend primitive s)
termination_by s => sizeOf s
decreasing_by exact Stmt.sizeOf_lt_of_mem _h

-- The tree with its suspension points put in. The ids set aside for them are used from the last.
def Cell.suspend (primitive : String) (c : Cell) : Cell :=
  let nextId := c.nextId + (c.pending primitive).length
  ⟨((c.body.mapM (Stmt.suspend primitive)).run nextId).1, nextId⟩

inductive InsertionError where
  | unreadable (e : SyntaxError)
  | unlocated (id : Nat)
deriving DecidableEq

def InsertionError.message (source : String) : InsertionError → String
  | unreadable e => "syntax error: " ++ e.render source
  | unlocated id => s!"transform failed: node {id} has no source location after repair"

-- The fault of a tree with an incomplete location.
def Cell.locationFault? (c : Cell) : Option InsertionError :=
  c.missingLocations.head?.map .unlocated

-- The tree of a source with all its suspension points.
def transform (primitive source : String) : Except InsertionError Cell := do
  let read ← (parse source).mapError .unreadable
  let repaired := (read.suspend primitive).repair
  match repaired.locationFault? with
  | some fault => throw fault
  | none => return repaired

def insertSuspensions (primitive source : String) : Except InsertionError String :=
  (transform primitive source).map Cell.text

-- A source that cannot be read stays as it is.
def withSuspensions (primitive source : String) : String :=
  match insertSuspensions primitive source with
  | .ok text => text
  | .error _ => source

-- How many suspension points a source lacks.
def pendingPoints (primitive source : String) : Except SyntaxError Nat :=
  (parse source).map fun c => (c.pending primitive).length

end NoteCell
