import NoteCell.Machine.Action
import NoteCell.Text.Search

/-!
Operators on values: arithmetic, comparison, membership, subscripts and members.
-/
namespace NoteCell

def UnaryOp.sign : UnaryOp → String
  | neg => "-"
  | pos => "+"
  | not => "not"

namespace Operators

def unsupported {α : Type} (op : BinaryOp) (a b : Value) : Action α := do
  .typeError ("unsupported operand type(s) for " ++ op.text ++ ": '" ++ (← .typeName a) ++ "' and '"
    ++ (← .typeName b) ++ "'")

def noConcatenation {α : Type} (kind : String) (b : Value) : Action α := do
  .typeError ("can only concatenate " ++ kind ++ " (not \"" ++ (← .typeName b) ++ "\") to " ++ kind)

def arithmetic (op : BinaryOp) (x y : Number) : Action Value := do
  return .ofNumber (← .lift (Arithmetic.Result.attempt (Arithmetic.binary op x y)))

def add (a b : Value) : Action Value := do
  let h ← .heap
  match a, b with
  | .str s, .str t => return .str (s ++ t)
  | .str _, _ => noConcatenation "str" b
  | .list i, .list j => .newList (h.list i ++ h.list j)
  | .list _, _ => noConcatenation "list" b
  | .tuple i, .tuple j => .newTuple (h.tuple i ++ h.tuple j)
  | _, _ => unsupported .add a b

-- A text, list or tuple repeated; nothing for other values.
def repeat? (v : Value) (count : Int64) : Option (Action Value) :=
  match v with
  | .str s => some do return .str (← .lift (Repetition.text s count))
  | .list id => some do .newList (← .look fun h => Repetition.items (h.list id) count)
  | .tuple id => some do .newTuple (← .look fun h => Repetition.items (h.tuple id) count)
  | _ => none

-- The sequence may stand on either side of its count.
def multiply (a b : Value) : Action Value :=
  match b.index? >>= repeat? a, a.index? >>= repeat? b with
  | some act, _ => act
  | none, some act => act
  | none, none => unsupported .mul a b

def binary (op : BinaryOp) (a b : Value) : Action Value :=
  match a.number?, b.number? with
  | some x, some y => arithmetic op x y
  | _, _ =>
    match op with
    | .add => add a b
    | .mul => multiply a b
    | op => unsupported op a b

def extendList (id : Nat) (more : List Value) : Action Unit :=
  .changeList id (· ++ more.toArray)

-- `target op= value`. A list is extended where it is.
def augmented (op : BinaryOp) (target value : Value) : Action Value :=
  match op, target with
  | .add, .list id => do
    extendList id (← .look (·.itemsOf value))
    return target
  | op, target => binary op target value

def unary (op : UnaryOp) (v : Value) : Action Value := do
  match op, v.number? with
  | .not, _ => return .bool (!(← .heap).isTrue v)
  | .neg, some x => return .ofNumber (← .lift (Arithmetic.Result.attempt (Arithmetic.negate x)))
  | .pos, some x => return .ofNumber x
  | op, none =>
    .typeError ("bad operand type for unary " ++ op.sign ++ ": '" ++ (← .typeName v) ++ "'")

/-! ### Comparison -/

def anyEqual (h : Heap) (item : Value) : List Value → Attempt Bool
  | [] => return false
  | v :: rest => do if ← h.equals v item then return true else anyEqual h item rest

-- `item in container`
def contains (h : Heap) (container item : Value) : Attempt Bool :=
  match container with
  | .str s =>
    match item with
    | .str t => return Search.isInfix t.toList s.toList
    | other =>
      .typeError ("'in <string>' requires string as left operand, not " ++ h.typeName other)
  | .list id => anyEqual h item (h.list id).toList
  | .tuple id => anyEqual h item (h.tuple id).toList
  | .dict id => do
    h.requireHashable item
    return h.hasKey (h.dict id) item
  | .range r =>
    match item.index? with
    | none => return false
    | some n =>
      match r.contains? n with
      | some b => return b
      | none => .error .broken
  | other => .typeError ("argument of type '" ++ h.typeName other ++ "' is not iterable")

def compare (h : Heap) (op : CompareOp) (a b : Value) : Attempt Bool :=
  match op with
  | .eq => h.equals a b
  | .notEq => return !(← h.equals a b)
  | .is => return a = b
  | .isNot => return a ≠ b
  | .isIn => contains h b a
  | .notIn => return !(← contains h b a)
  | .less => return (← h.order op a b) = .lt
  | .lessEq => return (← h.order op a b) ≠ .gt
  | .greater => return (← h.order op a b) = .gt
  | .greaterEq => return (← h.order op a b) ≠ .lt

/-! ### Subscripts and members -/

def sequenceIndex (h : Heap) (container index : Value) : Attempt Int64 :=
  match index.index? with
  | some i => return i
  | none =>
    .typeError (h.typeName container ++ " indices must be integers or slices, not "
      ++ h.typeName index)

-- The item at the place that an index names.
def itemAt (h : Heap) (container index : Value) (kind : String) (length : Nat)
    (item? : Nat → Option Value) : Attempt Value := do
  let i ← sequenceIndex h container index
  match position? i length >>= item? with
  | some v => return v
  | none => .indexError (kind ++ " index out of range")

def getItem (h : Heap) (container index : Value) : Attempt Value :=
  match container with
  | .list id => itemAt h container index "list" (h.list id).size ((h.list id)[·]?)
  | .tuple id => itemAt h container index "tuple" (h.tuple id).size ((h.tuple id)[·]?)
  | .str s =>
    let chars := s.toList
    itemAt h container index "string" chars.length fun i =>
      chars[i]?.map fun c => .str (String.singleton c)
  | .range r => itemAt h container index "range object" r.length fun i => (r.get? i).map .int
  | .dict id => do
    h.requireHashable index
    match h.getKey? (h.dict id) index with
    | some v => return v
    | none => .raise .keyError (h.repr index)
  | other => .typeError ("'" ++ h.typeName other ++ "' object is not subscriptable")

def setItem (container index v : Value) : Action Unit := do
  let h ← .heap
  match container with
  | .list id =>
    let i ← .lift (sequenceIndex h container index)
    match position? i (h.list id).size with
    | some place => .changeList id (·.setIfInBounds place v)
    | none => .indexError "list assignment index out of range"
  | .dict id => .setDict id (← .lift (h.insertKey (h.dict id) index v))
  | other => .typeError ("'" ++ h.typeName other ++ "' object does not support item assignment")

-- The methods that values of a kind have.
def methodsOf : Value → List String
  | .str _ => ["upper", "lower", "strip", "split", "join", "replace", "startswith", "endswith"]
  | .list _ => ["append", "pop", "extend"]
  | .dict _ => ["get", "keys", "values", "items"]
  | .stream _ => ["write", "flush"]
  | _ => []

def noMember {α : Type} (v : Value) (name : String) : Action α := do
  .attributeError ("'" ++ (← .typeName v) ++ "' object has no attribute '" ++ name ++ "'")

def getMember (v : Value) (name : String) : Action Value := do
  match v with
  | .library id =>
    let l := (← .heap).library id
    match lookup? l.members name with
    | some member => return member
    | none => .attributeError ("module '" ++ l.name ++ "' has no attribute '" ++ name ++ "'")
  | v =>
    if (methodsOf v).contains name then .newMethod ⟨v, name⟩ else noMember v name

def setMember (target : Value) (name : String) (v : Value) : Action Unit :=
  match target with
  | .library id => .setMember id name v
  | other => noMember other name

-- The items of a value, which have to be as many as their targets.
def unpack (h : Heap) (v : Value) (count : Nat) : Attempt (List Value) := do
  match Iteration.of? h v with
  | none => .typeError ("cannot unpack non-iterable " ++ h.typeName v ++ " object")
  | some it =>
    let items := it.toList h
    if items.length = count then return items
    else if items.length < count then
      .valueError s!"not enough values to unpack (expected {count}, got {items.length})"
    else .valueError s!"too many values to unpack (expected {count})"

end Operators
end NoteCell
