import NoteCell.Machine.Arguments
import NoteCell.Machine.Operators
import NoteCell.Number.Reading

/-!
Built-in functions. Each checks its arguments, keywords first.
-/
namespace NoteCell.Builtins

/-! ### Conversions -/

-- A double without its fraction, as `quotient` rounds it.
def floatToInt (quotient : Int → Int → Int) (x : Float) : Attempt Value :=
  if x.isNaN then .valueError "cannot convert float NaN to integer"
  else match Dyadic.ofFloat? x with
    | none => .raise .overflow "cannot convert float infinity to integer"
    | some d =>
      match Whole.ofInt? (d.whole quotient) with
      | some n => return .int n
      | none => .raise .overflow ArithmeticFault.tooLarge.message

def toInt (h : Heap) : Value → Attempt Value
  | .int n => return .int n
  | .bool b => return .int (if b then 1 else 0)
  | .float x => floatToInt Rounding.towardZero x
  | .str s =>
    match Reading.whole? s.toList with
    | some n => return .int n
    | none => .valueError ("invalid literal for int() with base 10: " ++ Quoted.text s)
  | v =>
    .typeError ("int() argument must be a string or a real number, not '" ++ h.typeName v ++ "'")

def toFloat (h : Heap) (v : Value) : Attempt Value :=
  match v, v.number? with
  | .str s, _ =>
    match Reading.double? s.toList with
    | some x => return .float x
    | none => .valueError ("could not convert string to float: " ++ Quoted.text s)
  | _, some x => return .float x.toFloat
  | v, none =>
    .typeError ("float() argument must be a string or a real number, not '" ++ h.typeName v ++ "'")

def expectNumber (h : Heap) (function : String) (v : Value) : Attempt Number :=
  match v.number? with
  | some x => return x
  | none =>
    .typeError (function ++ "() argument must be a real number, not '" ++ h.typeName v ++ "'")

def expectIndex (h : Heap) (v : Value) : Attempt Int64 :=
  match v.index? with
  | some i => return i
  | none => .typeError ("'" ++ h.typeName v ++ "' object cannot be interpreted as an integer")

/-! ### Rounding -/

-- More places than any double has are no places more.
def mostPlaces : Int := 308

-- A power of ten, its reciprocal for a negative exponent.
def scaleOf (places : Int) : Float :=
  let power := Rounding.powerOfTen places.natAbs
  if places < 0 then 1.0 / power else power

-- A half goes to the even neighbour. A double too large for its scale stays as it is.
def roundTo (places : Int64) (x : Float) : Float :=
  let scale := scaleOf (max (-mostPlaces) (min mostPlaces places.toInt))
  let rounded := Rounding.round Rounding.halfEven (x * scale) / scale
  if rounded.isFinite then rounded else x

def roundNumber (places : Option Int64) : Number → Attempt Value
  | .int n => return .int n
  | .float x =>
    match places with
    | none => floatToInt Rounding.halfEven x
    | some places => return .float (roundTo places x)

def round (args : Arguments) : Action Value := do
  let (ndigits, args) := args.takeKeyword "ndigits"
  .lift (args.rejectKeywords "round")
  let given ← .lift (args.between "round" 1 2)
  let places ← .look fun h =>
    match given[1]?.or ndigits with
    | none | some .nothing => return none
    | some v => return some (← expectIndex h v)
  .look fun h => do roundNumber places (← expectNumber h "round" (given.headD .nothing))

/-! ### Output and input -/

def textKeyword (name default : String) : Option Value → Action String
  | none | some .nothing => return default
  | some (.str s) => return s
  | some v => do .typeError (name ++ " must be None or a string, not " ++ (← .typeName v))

def streamKeyword : Option Value → Action OutputStream
  | none | some .nothing => return .stdout
  | some (.stream s) => return s
  | some v => Operators.noMember v "write"

def print (args : Arguments) : Action Value := do
  let (sep, args) := args.takeKeyword "sep"
  let sep ← textKeyword "sep" " " sep
  let (ending, args) := args.takeKeyword "end"
  let ending ← textKeyword "end" "\n" ending
  let (file, args) := args.takeKeyword "file"
  let stream ← streamKeyword file
  let (_, args) := args.takeKeyword "flush"
  .lift (args.rejectKeywords "print")
  let h ← .heap
  .emit (.write ⟨stream, sep.intercalate (args.positional.map h.text) ++ ending⟩)
  return .nothing

-- Asking for input waits only when the result is awaited.
def input (args : Arguments) : Action Value := do
  let prompt ← .lift (args.optional "input")
  let h ← .heap
  .newCoroutine ⟨"input", .input (prompt.elim "" h.text)⟩

def hostText (args : Arguments) : Action Value := do
  let v ← .lift (args.one "text")
  if !(← get).hasHost then .raise .runtimeError "no host attached"
  else
    .emit (.hostText ((← .heap).text v))
    return .nothing

def hostImage (args : Arguments) : Action Value := do
  let v ← .lift (args.one "image")
  if !(← get).hasHost then .raise .runtimeError "no host attached"
  else match v with
    | .str data =>
      .emit (.hostImage data)
      return .nothing
    | v => .typeError ("image() argument must be str, not " ++ (← .typeName v))

/-! ### Numbers and collections -/

def length? (h : Heap) : Value → Option Nat
  | .str s => some s.length
  | .list id => some (h.list id).size
  | .tuple id => some (h.tuple id).size
  | .dict id => some (h.dict id).length
  | .range r => some r.length
  | _ => none

def len (h : Heap) (v : Value) : Attempt Value :=
  match length? h v with
  | none => .typeError ("object of type '" ++ h.typeName v ++ "' has no len()")
  | some n =>
    match Whole.ofInt? n with
    | some n => return .int n
    | none => .raise .overflow "Python int too large to convert to C ssize_t"

def absolute (h : Heap) (v : Value) : Attempt Value :=
  match v.number? with
  | some x => return .ofNumber (← Arithmetic.Result.attempt (Arithmetic.absolute x))
  | none => .typeError ("bad operand type for abs(): '" ++ h.typeName v ++ "'")

def makeRange (start stop step : Int64) : Attempt Value :=
  if h : step ≠ 0 then return .range ⟨start, stop, step, h⟩
  else .valueError "range() arg 3 must not be zero"

def range (h : Heap) (args : List Value) : Attempt Value := do
  match ← args.mapM (expectIndex h) with
  | [start, stop, step] => makeRange start stop step
  | [start, stop] => makeRange start stop 1
  | ints => makeRange 0 (ints.headD 0) 1

-- Adds up what an iteration gives; the items left bound the additions.
def sumFrom : Nat → Iteration → Value → Action Value
  | 0, _, total => return total
  | fuel + 1, it, total => do
    match it.next? (← .heap) with
    | none => return total
    | some (v, rest) => sumFrom fuel rest (← Operators.binary .add total v)

def sum (args : Arguments) : Action Value := do
  let (start, args) := args.takeKeyword "start"
  .lift (args.rejectKeywords "sum")
  let given ← .lift (args.between "sum" 1 2)
  match (given[1]?.or start).getD (.int 0) with
  | .str _ => .typeError "sum() can't sum strings [use ''.join(seq) instead]"
  | total =>
    let it ← .look fun h => Iteration.of h (given.headD .nothing)
    sumFrom (it.left (← .heap)) it total

-- The extremum of several arguments, or of the items of a single one.
def extremum (name : String) (op : CompareOp) (wanted : Ordering) (args : Arguments) :
    Action Value := do
  let (default, args) := args.takeKeyword "default"
  .lift (args.rejectKeywords name)
  let items ← match args.positional with
    | [] => .typeError (name ++ " expected at least 1 argument, got 0")
    | [v] => .look (·.itemsOf v)
    | items => pure items
  match items, default with
  | first :: rest, _ => .look fun h => h.extremum op wanted first rest
  | [], some v => return v
  | [], none => .valueError (name ++ "() iterable argument is empty")

def sorted (args : Arguments) : Action Value := do
  let (reverse, args) := args.takeKeyword "reverse"
  .lift (args.rejectKeywords "sorted")
  let v ← .lift (args.one "sorted")
  let h ← .heap
  let items ← .lift (h.itemsOf v)
  .newList (← .lift (h.sorted (reverse.any h.isTrue) items)).toArray

-- The message of a new exception; that of a key shows the key.
def exceptionMessage (kind : ExnKind) : List Value → Action String
  | [] => return ""
  | [v] => do
    let h ← .heap
    return if kind = .keyError then h.repr v else h.text v
  | items => do
    let shown ← .newTuple items.toArray
    return (← .heap).repr shown

def squareRoot (h : Heap) (v : Value) : Attempt Value := do
  let x := (← expectNumber h "sqrt" v).toFloat
  if x < 0.0 then .valueError "math domain error" else return .float x.sqrt

def wholeBy (name : String) (quotient : Int → Int → Int) (h : Heap) (v : Value) :
    Attempt Value := do
  match ← expectNumber h name v with
  | .int n => return .int n
  | .float x => floatToInt quotient x

/-! ### Calls -/

-- A function of one argument that may be missing.
def optional (name : String) (missing : Action Value) (f : Value → Action Value)
    (args : Arguments) : Action Value := do
  match ← .lift (args.optional name) with
  | none => missing
  | some v => f v

-- A function of one argument.
def unary (name : String) (f : Heap → Value → Attempt Value) (args : Arguments) : Action Value := do
  let v ← .lift (args.one name)
  .look fun h => f h v

def withoutKeywords (b : Builtin) (f : Arguments → Action Value) (args : Arguments) :
    Action Value := do
  .lift (args.noKeywords b.name)
  f args

def call (b : Builtin) : Arguments → Action Value :=
  match b with
  | .print => print
  | .min => extremum "min" .less .lt
  | .max => extremum "max" .greater .gt
  | .sum => sum
  | .round => round
  | .sorted => sorted
  | .input => withoutKeywords b input
  | .len => withoutKeywords b (unary "len" len)
  | .str =>
    withoutKeywords b (optional "str" (return .str "") fun v => do
      return .str ((← .heap).text v))
  | .repr => withoutKeywords b (unary "repr" fun h v => return .str (h.repr v))
  | .int => withoutKeywords b (optional "int" (return .int 0) fun v => .look (toInt · v))
  | .float => withoutKeywords b (optional "float" (return .float 0.0) fun v => .look (toFloat · v))
  | .bool =>
    withoutKeywords b (optional "bool" (return .bool false) fun v => do
      return .bool ((← .heap).isTrue v))
  | .list =>
    withoutKeywords b (optional "list" (.newList #[]) fun v => do
      .newList (← .look (·.itemsOf v)).toArray)
  | .range =>
    withoutKeywords b fun args => do
      let given ← .lift (args.between "range" 1 3)
      .look (range · given)
  | .abs => withoutKeywords b (unary "abs" absolute)
  | .exception kind =>
    withoutKeywords b fun args => do
      .newException ⟨kind, ← exceptionMessage kind args.positional⟩
  | .sqrt => withoutKeywords b (unary "sqrt" squareRoot)
  | .floor => withoutKeywords b (unary "floor" (wholeBy "floor" Rounding.down))
  | .ceil => withoutKeywords b (unary "ceil" (wholeBy "ceil" Rounding.up))
  | .hostText => withoutKeywords b hostText
  | .hostImage => withoutKeywords b hostImage

end NoteCell.Builtins
