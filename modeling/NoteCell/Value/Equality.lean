import NoteCell.Value.Text

/-!
Equality of values, and dicts, whose keys are compared. Lists, tuples and dicts are equal when their
contents are; comparing what is nested too deeply fails. Keys have to be hashable, and two keys are
the same when they hash alike and are equal.
-/
namespace NoteCell

def numbersEqual (a b : Value) : Bool :=
  match a.number?, b.number? with
  | some x, some y => x.compare? y = some .eq
  | _, _ => false

-- Item by item, up to the first that differs or fails.
def allEqual (eq : Value → Value → Attempt Bool) : List Value → List Value → Attempt Bool
  | a :: as, b :: bs => do if ← eq a b then allEqual eq as bs else return false
  | _, _ => return true

def itemsEqual (eq : Value → Value → Attempt Bool) (as bs : Array Value) : Attempt Bool :=
  if as.size = bs.size then allEqual eq as.toList bs.toList else return false

abbrev Entries := List (Value × Value)

-- Every entry of the first has an equal value under the same key in the second.
def entriesEqual (same : Value → Value → Bool) (eq : Value → Value → Attempt Bool)
    (entries : Entries) : Entries → Attempt Bool
  | [] => return true
  | (key, value) :: rest =>
    match entries.find? fun e => same e.1 key with
    | none => return false
    | some (_, other) => do
      if ← eq value other then entriesEqual same eq entries rest else return false

namespace Heap

variable (h : Heap)

-- `room` is how many levels of values may still be compared; `same` tells when two dict keys meet.
def equalsAt (same : Value → Value → Bool) : Nat → Value → Value → Attempt Bool
  | 0, _, _ => .raise .recursion "maximum recursion depth exceeded in comparison"
  | room + 1, a, b =>
    match a, b with
    | .list i, .list j =>
      if i = j then return true else itemsEqual (equalsAt same room) (h.list i) (h.list j)
    | .tuple i, .tuple j => itemsEqual (equalsAt same room) (h.tuple i) (h.tuple j)
    | .dict i, .dict j =>
      if i = j then return true
      else if (h.dict i).length = (h.dict j).length then
        entriesEqual same (equalsAt same room) (h.dict j) (h.dict i)
      else return false
    | .method i, .method j => return h.method i = h.method j
    | .float _, .float _ => return numbersEqual a b
    | a, b => return a = b || numbersEqual a b

/-! ### Keys -/

def isHashableAt : Nat → Value → Attempt Unit
  | _, .list id => .typeError ("unhashable type: '" ++ h.typeName (.list id) ++ "'")
  | _, .dict id => .typeError ("unhashable type: '" ++ h.typeName (.dict id) ++ "'")
  | 0, .tuple _ => .raise .recursion "maximum recursion depth exceeded while hashing"
  | room + 1, .tuple id => (h.tuple id).toList.forM (isHashableAt room)
  | _, _ => return ()

-- Fails unless a value can be a key.
def requireHashable (v : Value) : Attempt Unit := h.isHashableAt (nestingLimit + 1) v

-- What a key is hashed by.
inductive Digest where
  | int (n : Int64)
  | bits (n : UInt64)
  | text (s : String)
  | count (n : Nat)
  | range (r : Range)
  | object (v : Value)
deriving DecidableEq

-- Numbers that are equal have the same digest, whichever kind they are.
def digestAt : Nat → Value → List Digest
  | _, .bool b => [.int (if b then 1 else 0)]
  | _, .int n => [.int n]
  | _, .float x =>
    match Whole.ofFloat? x with
    | some n => [.int n]
    | none => [.bits x.toBits]
  | _, .str s => [.text s]
  | room + 1, .tuple id =>
    .count (h.tuple id).size :: (h.tuple id).toList.flatMap (digestAt room)
  | _, .range r => [.range r]
  | _, .builtin b => [.text b.name]
  | _, .method id => [.text (h.method id).name]
  | _, .stream s => [.text s.name]
  | _, v => [.object v]

def digest (v : Value) : List Digest := h.digestAt (nestingLimit + 1) v

-- Hashable values hold no dicts, so that no keys are compared below a key.
def keysEqual (a b : Value) : Bool :=
  match h.equalsAt (fun _ _ => false) (nestingLimit + 1) a b with
  | .ok equal => equal
  | .error _ => false

-- Most keys are whole numbers or strings, of which the digest and equality say the same.
def sameKey (a b : Value) : Bool :=
  match a, b with
  | .int m, .int n => m = n
  | .str s, .str t => s = t
  | a, b => h.digest a = h.digest b && h.keysEqual a b

-- `a == b`
def equals (a b : Value) : Attempt Bool := h.equalsAt h.sameKey (nestingLimit + 1) a b

end Heap

/-!
### Dicts

Entries stand in the order in which their keys were first put in. Putting in a key that is there
changes its value and nothing else.
-/

-- The value under a key, given when two keys meet.
def Entries.find? (same : Value → Value → Bool) (entries : Entries) (key : Value) : Option Value :=
  (List.find? (fun e => same e.1 key) entries).map (·.2)

def Entries.insert (same : Value → Value → Bool) (key value : Value) : Entries → Entries
  | [] => [(key, value)]
  | e :: rest =>
    if same e.1 key then (e.1, value) :: rest else e :: insert same key value rest

namespace Heap

variable (h : Heap)

def getKey? (entries : Entries) (key : Value) : Option Value := Entries.find? h.sameKey entries key

def hasKey (entries : Entries) (key : Value) : Bool := (h.getKey? entries key).isSome

-- Fails for a key that cannot be one.
def insertKey (entries : Entries) (key value : Value) : Attempt Entries := do
  h.requireHashable key
  return Entries.insert h.sameKey key value entries

end Heap

end NoteCell
