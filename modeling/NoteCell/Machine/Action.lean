import NoteCell.Value.Iteration
import NoteCell.Value.Order
import NoteCell.Value.Sequence

/-!
What operations on values may do: change the heap, write, talk to the host, and fail. What was done
before a failure stays done.
-/
namespace NoteCell

inductive Effect where
  | write (w : Write)
  | hostText (text : String)
  | hostImage (data : String)
deriving DecidableEq, Repr

structure World where
  heap : Heap
  -- Newest first.
  effects : List Effect
  hasHost : Bool

abbrev Action := ExceptT Failure (StateM World)

namespace Action

def heap : Action Heap := return (← get).heap

def lift {α : Type} (attempt : Attempt α) : Action α := ExceptT.mk (pure attempt)

-- Runs an operation that only looks at the heap.
def look {α : Type} (f : Heap → Attempt α) : Action α := do lift (f (← heap))

def typeName (v : Value) : Action String := return (← heap).typeName v

def emit (e : Effect) : Action Unit := modify fun w => { w with effects := e :: w.effects }

def change (f : Heap → Heap) : Action Unit := modify fun w => { w with heap := f w.heap }

def raise {α : Type} (kind : ExnKind) (message : String) : Action α := lift (.raise kind message)

def typeError {α : Type} (message : String) : Action α := raise .typeError message

def valueError {α : Type} (message : String) : Action α := raise .valueError message

def indexError {α : Type} (message : String) : Action α := raise .indexError message

def attributeError {α : Type} (message : String) : Action α := raise .attributeError message

/-! ### New objects -/

-- Changes the heap and gives something of the old one.
def make {α : Type} (f : Heap → α × Heap) : Action α :=
  modifyGet fun w => let (a, h) := f w.heap; (a, { w with heap := h })

def newList (items : Array Value) : Action Value :=
  make fun h => (.list h.lists.size, { h with lists := h.lists.push items })

def newTuple (items : Array Value) : Action Value :=
  make fun h => (.tuple h.tuples.size, { h with tuples := h.tuples.push items })

def newDict (entries : Entries) : Action Value :=
  make fun h => (.dict h.dicts.size, { h with dicts := h.dicts.push entries })

def newClosure (c : Closure) : Action Value :=
  make fun h => (.closure h.closures.size, { h with closures := h.closures.push c })

def newMethod (m : BoundMethod) : Action Value :=
  make fun h => (.method h.methods.size, { h with methods := h.methods.push m })

def newLibrary (l : Library) : Action Value :=
  make fun h => (.library h.libraries.size, { h with libraries := h.libraries.push l })

def newCoroutine (c : Coroutine) : Action Value :=
  make fun h => (.coroutine h.coroutines.size, { h with coroutines := h.coroutines.push c })

def newException (e : Exn) : Action Value :=
  make fun h => (.exception h.exceptions.size, { h with exceptions := h.exceptions.push e })

def newScope (s : Scope) : Action Nat :=
  make fun h => (h.scopes.size, { h with scopes := h.scopes.push s })

/-! ### Changed objects -/

def changeList (id : Nat) (f : Array Value → Array Value) : Action Unit :=
  change fun h => { h with lists := h.lists.modify id f }

def setDict (id : Nat) (entries : Entries) : Action Unit :=
  change fun h => { h with dicts := h.dicts.modify id fun _ => entries }

def setMember (id : Nat) (name : String) (v : Value) : Action Unit :=
  change fun h =>
    { h with libraries := h.libraries.modify id fun l =>
        { l with members := assign l.members name v } }

def bind (scope : Nat) (name : String) (v : Value) : Action Unit :=
  change fun h => h.bind scope name v

-- Takes the work out of a coroutine, which is spent from then on.
def takeWork (id : Nat) : Action Work :=
  make fun h => ((h.coroutine id).work,
    { h with coroutines := h.coroutines.modify id fun c => { c with work := .spent } })

end Action
end NoteCell
