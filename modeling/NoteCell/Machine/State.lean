import NoteCell.Machine.Builtins
import NoteCell.Machine.Libraries
import NoteCell.Machine.Methods
import NoteCell.Tree.ControlFlow

/-!
States of a running cell: what is being done, what is to be done after that, the context it is done
in, and the world. Most expressions and statements evaluate some operands from left to right and
then perform an operation on their values.
-/
namespace NoteCell

-- How a statement ends.
inductive Flow where
  | normal
  | ret (v : Value)
  | breakLoop
  | continueLoop
deriving DecidableEq

-- What to do with the values of operands.
inductive Operation where
  | list
  | tuple
  | binary (op : BinaryOp)
  | unary (op : UnaryOp)
  | subscript
  | member (name : String)
  -- The callee comes first, then the positional arguments, then those of the keywords.
  | call (positional : Nat) (keywords : List String)
  | await
  -- A key and a value that go into a dict.
  | entry (entries : Entries) (rest : List (Expr × Expr))
  | logical (op : LogicalOp) (right : Expr)
  | choose (body orelse : Expr)
  | compare (op : CompareOp) (rest : List (CompareOp × Expr))
  | discard
  | assign (targets : List Expr)
  | store (v : Value)
  | storeMember (name : String) (v : Value)
  | augmentName (op : BinaryOp) (name : String) (current : Value)
  | fetchItem (op : BinaryOp) (value : Expr)
  | augmentItem (op : BinaryOp) (container index current : Value)
  | fetchMember (op : BinaryOp) (name : String) (value : Expr)
  | augmentMember (op : BinaryOp) (object : Value) (name : String) (current : Value)
  | branch (body orelse : List Stmt)
  | loop (test : Expr) (body : List Stmt)
  | iterate (target : Expr) (body : List Stmt)
  -- Each parameter with whether it has a default.
  | define (name : String) (params : List (String × Bool)) (body : List Stmt) (isAsync : Bool)
  | ret
  | raise

-- What is to be done once the present step has ended.
inductive Frame where
  -- Values of the operands so far, newest first.
  | operands (done : List Value) (rest : List Expr) (op : Operation)
  | assign (rest : List (Expr × Value))
  | block (rest : List Stmt)
  | whileBody (test : Expr) (body : List Stmt)
  | forTarget (it : Iteration) (target : Expr) (body : List Stmt)
  | forBody (it : Iteration) (target : Expr) (body : List Stmt)
  -- The body of a function runs above; its caller goes on in this context.
  | call (caller : Context)
  | cell (rest : List Stmt)

inductive Outcome where
  | finished (value : Option Value)
  | failed (f : Failure)
deriving DecidableEq

inductive Control where
  | eval (e : Expr)
  | give (v : Value)
  | exec (s : Stmt)
  | assign (pairs : List (Expr × Value))
  | flow (f : Flow)
  -- Until the host answers.
  | waiting (cell prompt : String)
  | ended (o : Outcome)

structure Machine where
  control : Control
  frames : List Frame
  context : Context
  world : World

namespace Machine

-- The most calls that may be open inside one another.
def depthLimit : Nat := 200

-- A cell before its first statement.
def start (body : List Stmt) (cell : String) (world : World) : Machine :=
  ⟨.flow .normal, [.cell body], ⟨Heap.globals, 0, cell⟩, world⟩

def isHalted (m : Machine) : Bool :=
  match m.control with
  | .waiting .. | .ended _ => true
  | _ => false

def fail (m : Machine) (f : Failure) : Machine := { m with control := .ended (.failed f) }

def raise (m : Machine) (kind : ExnKind) (message : String) : Machine :=
  m.fail (.raised ⟨kind, message⟩)

-- Goes on with the value of an action, or ends as it fails.
def act {α : Type} (m : Machine) (action : Action α) (next : Machine → α → Machine) : Machine :=
  match m with
  | ⟨control, frames, context, world⟩ =>
    match action.run.run world with
    | (.ok a, world) => next ⟨control, frames, context, world⟩ a
    | (.error f, world) => ⟨.ended (.failed f), frames, context, world⟩

def give (m : Machine) (v : Value) : Machine := { m with control := .give v }

def flow (m : Machine) (f : Flow) : Machine := { m with control := .flow f }

def push (m : Machine) (f : Frame) : Machine := { m with frames := f :: m.frames }

-- The value of an action becomes that of the expression.
def giveBy (m : Machine) (action : Action Value) : Machine := m.act action give

-- An action ends the statement.
def flowBy (m : Machine) (action : Action Unit) : Machine :=
  m.act action fun m _ => m.flow .normal

def evaluate (m : Machine) (e : Expr) : Machine := { m with control := .eval e }

-- Evaluates an operand, with values of operands before it and those to come.
def operand (m : Machine) (done : List Value) (e : Expr) (rest : List Expr) (op : Operation) :
    Machine :=
  (m.push (.operands done rest op)).evaluate e

def runBlock (m : Machine) (body : List Stmt) : Machine := (m.push (.block body)).flow .normal

end Machine
end NoteCell
