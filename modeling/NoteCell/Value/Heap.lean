import NoteCell.Value.Basic

/-!
The heap: objects by kind, each known by its place. Objects are made and some are changed, none is
taken away, so a value keeps its meaning as the heap grows.
-/
namespace NoteCell

-- Where a body runs: the scope of its names, how many calls are open around it, and the cell that
-- entered it.
structure Context where
  scope : Nat
  depth : Nat
  cell : String
deriving DecidableEq, Repr

structure Closure where
  name : String
  params : List (String × Option Value)
  body : List Stmt
  scope : Nat
  isAsync : Bool

structure BoundMethod where
  receiver : Value
  name : String
deriving DecidableEq

structure Library where
  name : String
  members : List (String × Value)
deriving DecidableEq

-- What awaiting a coroutine will do.
inductive Work where
  | input (prompt : String)
  | body (context : Context) (stmts : List Stmt)
  | spent

structure Coroutine where
  name : String
  work : Work

-- Bindings, newest last, and the scope around them.
structure Scope where
  bindings : List (String × Value)
  outer : Option Nat
deriving DecidableEq

structure Heap where
  lists : Array (Array Value)
  tuples : Array (Array Value)
  dicts : Array (List (Value × Value))
  closures : Array Closure
  methods : Array BoundMethod
  libraries : Array Library
  coroutines : Array Coroutine
  exceptions : Array Exn
  scopes : Array Scope

-- The value of a key in a row of pairs, the first that counts.
def lookup? {α : Type} (pairs : List (String × α)) (key : String) : Option α :=
  (pairs.find? (·.1 = key)).map (·.2)

-- Replaces the value of a key where it stands, or adds the pair at the end.
def assign {α : Type} (pairs : List (String × α)) (key : String) (value : α) :
    List (String × α) :=
  match pairs with
  | [] => [(key, value)]
  | p :: rest => if p.1 = key then (key, value) :: rest else p :: assign rest key value

namespace Heap

-- Only the scope of global names.
def empty : Heap :=
  ⟨#[], #[], #[], #[], #[], #[], #[], #[], #[⟨[], none⟩]⟩

def globals : Nat := 0

variable (h : Heap)

def list (id : Nat) : Array Value := h.lists.getD id #[]

def tuple (id : Nat) : Array Value := h.tuples.getD id #[]

def dict (id : Nat) : List (Value × Value) := h.dicts.getD id []

def exception (id : Nat) : Exn := h.exceptions.getD id ⟨.exception, ""⟩

def method (id : Nat) : BoundMethod := h.methods.getD id ⟨.nothing, ""⟩

def library (id : Nat) : Library := h.libraries.getD id ⟨"", []⟩

def coroutine (id : Nat) : Coroutine := h.coroutines.getD id ⟨"", .spent⟩

def closure (id : Nat) : Closure := h.closures.getD id ⟨"", [], [], globals, false⟩

-- How many objects there are to go through, for walks that no limit bounds.
def size : Nat := h.lists.size + h.tuples.size

/-! ### Names -/

-- The scope around another is always the older one.
def binding? (scope : Nat) (name : String) : Option Value :=
  match h.scopes[scope]? with
  | none => none
  | some s =>
    match lookup? s.bindings name, s.outer with
    | some v, _ => some v
    | none, some outer => if _h : outer < scope then binding? outer name else none
    | none, none => none
termination_by scope

def bind (scope : Nat) (name : String) (v : Value) : Heap :=
  { h with
    scopes := h.scopes.modify scope fun s => { s with bindings := assign s.bindings name v } }

/-! ### Names of types -/

def typeName : Value → String
  | .nothing => "NoneType"
  | .bool _ => "bool"
  | .int _ => "int"
  | .float _ => "float"
  | .str _ => "str"
  | .list _ => "list"
  | .tuple _ => "tuple"
  | .dict _ => "dict"
  | .range _ => "range"
  | .closure _ => "function"
  | .builtin b => if b.isType then "type" else "builtin_function_or_method"
  | .method _ => "builtin_function_or_method"
  | .library _ => "module"
  | .stream _ => "TextIOWrapper"
  | .coroutine _ => "coroutine"
  | .exception id => (h.exception id).kind.name

def isTrue : Value → Bool
  | .nothing => false
  | .bool b => b
  | .int n => n != 0
  | .float x => x != 0.0
  | .str s => !s.isEmpty
  | .list id => !(h.list id).isEmpty
  | .tuple id => !(h.tuple id).isEmpty
  | .dict id => !(h.dict id).isEmpty
  | .range r => r.length != 0
  | _ => true

end Heap
end NoteCell
