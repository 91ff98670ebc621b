import NoteCell.Machine.Arguments
import NoteCell.Machine.Operators
import NoteCell.Text.Casing

/-!
Methods of texts, lists, dicts and streams.
-/
namespace NoteCell.Methods

def text (chars : List Char) : Value := .str (String.ofList chars)

def texts (pieces : List (List Char)) : Action Value := .newList (pieces.map text).toArray

def expectText (method : String) (v : Value) : Action (List Char) := do
  match v with
  | .str s => return s.toList
  | other => .typeError (method ++ "() argument must be str, not " ++ (← .typeName other))

/-! ### Texts -/

def strip (s : List Char) (args : Arguments) : Action Value := do
  match ← .lift (args.optional "strip") with
  | none | some .nothing => return text (Search.trim s)
  | some v =>
    let chars ← expectText "strip" v
    return text (Search.trimBy chars.contains s)

def split (s : List Char) (args : Arguments) : Action Value := do
  match ← .lift (args.optional "split") with
  | none | some .nothing => texts (Search.words s)
  | some v =>
    let sep ← expectText "split" v
    if sep.isEmpty then .valueError "empty separator" else texts (Search.splitOn sep s)

-- The texts that an iteration gives, counted from `place` on.
def joinable (h : Heap) (place : Nat) (it : Iteration) : Attempt (List String) :=
  match _eq : it.next? h with
  | none => return []
  | some (.str s, rest) => return s :: (← joinable h (place + 1) rest)
  | some (v, _) =>
    .typeError (s!"sequence item {place}: expected str instance, " ++ h.typeName v ++ " found")
termination_by it.left h
decreasing_by exact Iteration.left_next? _eq

def join (s : String) (args : Arguments) : Action Value := do
  let items ← .lift (args.one "join")
  let parts ← .look fun h => do joinable h 0 (← Iteration.of h items)
  return .str (s.intercalate parts)

def callText (s : String) (name : String) (args : Arguments) : Action Value := do
  let chars := s.toList
  match name with
  | "upper" =>
    .lift (args.none name)
    return .str (Casing.upper s)
  | "lower" =>
    .lift (args.none name)
    return .str (Casing.lower s)
  | "strip" => strip chars args
  | "split" => split chars args
  | "join" => join s args
  | "replace" =>
    let (old, new) ← .lift (args.two name)
    return text (Search.replace (← expectText name old) (← expectText name new) chars)
  | "startswith" =>
    return .bool ((← expectText name (← .lift (args.one name))).isPrefixOf chars)
  | _ => return .bool ((← expectText name (← .lift (args.one name))).isSuffixOf chars)

/-! ### Lists, dicts and streams -/

def expectIndex (v : Value) : Action Int64 := do
  match v.index? with
  | some i => return i
  | none => .typeError ("'" ++ (← .typeName v) ++ "' object cannot be interpreted as an integer")

def pop (id : Nat) (args : Arguments) : Action Value := do
  let index ← (← .lift (args.optional "pop")).mapM expectIndex
  let items := (← .heap).list id
  if items.isEmpty then .indexError "pop from empty list"
  else match position? (index.getD (-1)) items.size with
    | none => .indexError "pop index out of range"
    | some place =>
      .changeList id (·.eraseIdxIfInBounds place)
      return items.getD place .nothing

def callList (id : Nat) (name : String) (args : Arguments) : Action Value := do
  match name with
  | "append" =>
    let item ← .lift (args.one name)
    .changeList id (·.push item)
    return .nothing
  | "extend" =>
    let more ← .lift (args.one name)
    Operators.extendList id (← .look (·.itemsOf more))
    return .nothing
  | _ => pop id args

def callDict (id : Nat) (name : String) (args : Arguments) : Action Value := do
  let entries := (← .heap).dict id
  match name with
  | "get" =>
    let given ← .lift (args.between name 1 2)
    let key := given.headD .nothing
    .look (·.requireHashable key)
    return ((← .heap).getKey? entries key).getD ((given[1]?).getD .nothing)
  | "keys" =>
    .lift (args.none name)
    .newList (entries.map (·.1)).toArray
  | "values" =>
    .lift (args.none name)
    .newList (entries.map (·.2)).toArray
  | _ =>
    .lift (args.none name)
    .newList (← entries.mapM fun (k, v) => .newTuple #[k, v]).toArray

def callStream (stream : OutputStream) (name : String) (args : Arguments) : Action Value := do
  match name with
  | "write" =>
    let chars ← expectText name (← .lift (args.one name))
    .emit (.write ⟨stream, String.ofList chars⟩)
    return .int (Int64.ofNat chars.length)
  | _ =>
    .lift (args.none name)
    return .nothing

def call (m : BoundMethod) (args : Arguments) : Action Value := do
  .lift (args.noKeywords m.name)
  match m.receiver with
  | .str s => callText s m.name args
  | .list id => callList id m.name args
  | .dict id => callDict id m.name args
  | .stream s => callStream s m.name args
  | other => Operators.noMember other m.name

end NoteCell.Methods
