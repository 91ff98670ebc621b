import NoteCell.Decimal.FloatText
import NoteCell.Json.Value
import NoteCell.Text.Position
import NoteCell.Text.Quoted

/-!
Reading JSON. Faults carry the line, and the column counted in bytes from the line's start, where
they were noticed; a fault of the data rather than of the notation is given the place that has been
read so far.
-/
namespace NoteCell

inductive JsonFault where
  | eofList | eofObject | eofString | eofValue
  | expectedColon | expectedListEnd | expectedObjectEnd | expectedIdent | expectedValue
  | invalidEscape | invalidNumber | outOfRange | controlCharacter | keyNotString
  | loneSurrogate | trailingComma | trailingCharacters | unfinishedEscape | tooDeep
deriving DecidableEq, Repr

def JsonFault.message : JsonFault → String
  | eofList => "EOF while parsing a list"
  | eofObject => "EOF while parsing an object"
  | eofString => "EOF while parsing a string"
  | eofValue => "EOF while parsing a value"
  | expectedColon => "expected `:`"
  | expectedListEnd => "expected `,` or `]`"
  | expectedObjectEnd => "expected `,` or `\x7d`"
  | expectedIdent => "expected ident"
  | expectedValue => "expected value"
  | invalidEscape => "invalid escape"
  | invalidNumber => "invalid number"
  | outOfRange => "number out of range"
  | controlCharacter =>
    "control character (\\u0000-\\u001F) found while parsing a string"
  | keyNotString => "key must be a string"
  | loneSurrogate => "lone leading surrogate in hex escape"
  | trailingComma => "trailing comma"
  | trailingCharacters => "trailing characters"
  | unfinishedEscape => "unexpected end of hex escape"
  | tooDeep => "recursion limit exceeded"

-- What has been read ends at `line` and, in bytes, `column`.
structure JsonCursor where
  rest : List Char
  line : Nat
  column : Nat
deriving DecidableEq, Repr

-- Where a fault was noticed, if it was noticed while reading.
structure JsonError where
  message : String
  place : Option (Nat × Nat)
deriving DecidableEq, Repr

def JsonError.text (e : JsonError) : String :=
  match e.place with
  | none => e.message
  | some (line, column) => e.message ++ s!" at line {line} column {column}"

namespace JsonCursor

def start (text : List Char) : JsonCursor := ⟨text, 1, 0⟩

def place (c : JsonCursor) : Nat × Nat := (c.line, c.column)

-- The place after one more byte.
def nextPlace (c : JsonCursor) : Nat × Nat :=
  match c.rest with
  | [] => c.place
  | '\n' :: _ => (c.line + 1, 0)
  | _ :: _ => (c.line, c.column + 1)

-- The place after some more bytes.
def placeAfter (line column : Nat) : Nat → List Char → Nat × Nat
  | 0, _ | _, [] => (line, column)
  | bytes + 1, '\n' :: rest => placeAfter (line + 1) 0 bytes rest
  | bytes, d :: rest =>
    if d.utf8Size ≤ bytes then placeAfter line (column + d.utf8Size) (bytes - d.utf8Size) rest
    else (line, column + bytes)

def advance (c : JsonCursor) : JsonCursor :=
  match c.rest with
  | [] => c
  | '\n' :: rest => ⟨rest, c.line + 1, 0⟩
  | d :: rest => ⟨rest, c.line, c.column + d.utf8Size⟩

end JsonCursor

-- What has been read stays read after a fault.
abbrev JsonReader := ExceptT JsonError (StateM JsonCursor)

namespace JsonReader

variable {α : Type}

def refuse (f : JsonFault) (place : Nat × Nat) : JsonReader α := throw ⟨f.message, some place⟩

-- A fault at the place that has been read.
def refuseHere (f : JsonFault) : JsonReader α := do refuse f (← get).place

-- A fault of the next byte.
def refuseNext (f : JsonFault) : JsonReader α := do refuse f (← get).nextPlace

-- A fault of the data.
def mismatch (message : String) : JsonReader α := throw ⟨message, none⟩

-- A fault of the data that is placed where reading stands.
def mismatchHere (message : String) : JsonReader α := do throw ⟨message, some (← get).place⟩

def peek? : JsonReader (Option Char) := return (← get).rest.head?

def skip : JsonReader Unit := modify JsonCursor.advance

def isSpace (c : Char) : Bool := c = ' ' || c = '\n' || c = '\t' || c = '\r'

def skipSpaces : JsonReader Unit :=
  modify fun c => (c.rest.takeWhile isSpace).foldl (fun c _ => c.advance) c

-- The next character that is no space.
def peekToken? : JsonReader (Option Char) := do
  skipSpaces
  peek?

-- Passes over characters of which the last has been read up to `bytes` in all.
def skipBytes (chars bytes : Nat) : JsonReader Unit :=
  modify fun c => ⟨c.rest.drop chars, c.line, c.column + bytes⟩

/-! ### Strings -/

def hexDigit? (c : Char) : Option Nat :=
  if c.isDigit then some (c.toNat - '0'.toNat)
  else if 'a' ≤ c ∧ c ≤ 'f' then some (c.toNat - 'a'.toNat + 10)
  else if 'A' ≤ c ∧ c ≤ 'F' then some (c.toNat - 'A'.toNat + 10)
  else none

-- The number of four hexadecimal digits. Faults come with how many bytes were read.
def hexFour (cs : List Char) : Except (JsonFault × Nat) Nat :=
  let bytes := utf8Length (cs.take 4)
  if bytes < 4 then .error (.eofString, bytes)
  else
    match (cs.take 4).mapM hexDigit? with
    | some [a, b, c, d] => .ok (((a * 16 + b) * 16 + c) * 16 + d)
    | _ => .error (.invalidEscape, 4)

def isLeading (n : Nat) : Bool := 0xd800 ≤ n && n ≤ 0xdbff

def isTrailing (n : Nat) : Bool := 0xdc00 ≤ n && n ≤ 0xdfff

def joinSurrogates (lead trail : Nat) : Nat := (lead - 0xd800) * 0x400 + (trail - 0xdc00) + 0x10000

def shifted (n : Nat) {β : Type} : Except (JsonFault × Nat) β → Except (JsonFault × Nat) β
  | .error (f, bytes) => .error (f, bytes + n)
  | .ok b => .ok b

-- The second half of a pair, after the eleven bytes up to its end.
def trailingHalf (lead : Nat) : List Char → Except (JsonFault × Nat) (Char × Nat)
  | [] => .error (.eofString, 5)
  | '\\' :: [] => .error (.eofString, 6)
  | '\\' :: 'u' :: cs => do
    let trail ← shifted 7 (hexFour cs)
    if isTrailing trail then return (Char.ofNat (joinSurrogates lead trail), 11)
    else .error (.loneSurrogate, 11)
  | '\\' :: _ => .error (.unfinishedEscape, 7)
  | _ => .error (.unfinishedEscape, 6)

-- What comes after `\u`: the character and how many bytes the escape has after its backslash.
def unicodeEscape (cs : List Char) : Except (JsonFault × Nat) (Char × Nat) := do
  let n ← shifted 1 (hexFour cs)
  if isTrailing n then .error (.loneSurrogate, 5)
  else if isLeading n then trailingHalf n (cs.drop 4)
  else return (Char.ofNat n, 5)

def simpleEscape? : Char → Option Char
  | '"' => some '"'
  | '\\' => some '\\'
  | '/' => some '/'
  | 'b' => some '\x08'
  | 'f' => some '\x0c'
  | 'n' => some '\n'
  | 'r' => some '\r'
  | 't' => some '\t'
  | _ => none

-- What comes after a backslash.
def escape : List Char → Except (JsonFault × Nat) (Char × Nat)
  | [] => .error (.eofString, 0)
  | 'u' :: cs => unicodeEscape cs
  | c :: _ =>
    match simpleEscape? c with
    | some d => .ok (d, 1)
    | none => .error (.invalidEscape, 1)

structure ReadString where
  text : List Char
  rest : List Char
  bytes : Nat
deriving DecidableEq, Repr

-- The characters up to the closing quote, after `bytes` bytes. A valid escape is ASCII, so it has
-- as many characters as bytes.
def stringFrom (bytes : Nat) : List Char → Except (JsonFault × Nat) ReadString
  | [] => .error (.eofString, bytes)
  | c :: cs =>
    if c = '"' then .ok ⟨[], cs, bytes + 1⟩
    else if c = '\\' then do
      let (d, length) ← shifted (bytes + 1) (escape cs)
      let more ← stringFrom (bytes + 1 + length) (cs.drop length)
      return { more with text := d :: more.text }
    else if c.toNat < 0x20 then .error (.controlCharacter, bytes + 1)
    else do
      let more ← stringFrom (bytes + c.utf8Size) cs
      return { more with text := c :: more.text }
termination_by cs => cs.length
decreasing_by all_goals (simp only [List.length_cons, List.length_drop]; omega)

-- A string from its opening quote on.
def string : JsonReader String := do
  skip
  let c ← get
  match stringFrom 0 c.rest with
  | .error (f, bytes) => refuse f (JsonCursor.placeAfter c.line c.column bytes c.rest)
  | .ok s =>
    set { c with rest := s.rest, column := c.column + s.bytes }
    return String.ofList s.text

/-! ### Numbers -/

def wordLimit : Nat := Nat.pow 2 64

-- Takes in digits as long as the number has 64 bits; the number, and how many were taken in.
def absorb (n : Nat) (count : Nat) : List Char → Nat × Nat
  | [] => (n, count)
  | d :: ds =>
    let next := n * 10 + (d.toNat - '0'.toNat)
    if next < wordLimit then absorb next (count + 1) ds else (n, count)

def digits : JsonReader (List Char) := do
  let ds := (← get).rest.takeWhile Char.isDigit
  skipBytes ds.length ds.length
  return ds

def mostExponent : Int := 308

-- Scales by powers of ten of at most 308, each rounding once.
def scaled : Nat → Float → Int → JsonReader Float
  | 0, x, _ => return x
  | fuel + 1, x, exponent =>
    if exponent.natAbs ≤ mostExponent.natAbs then
      let power := Float.ofScientific 1 false exponent.natAbs
      if 0 ≤ exponent then
        if (x * power).isInf then refuseHere .outOfRange else return x * power
      else return x / power
    else if x == 0.0 then return x
    else if 0 ≤ exponent then refuseHere .outOfRange
    else scaled fuel (x / Float.ofScientific 1 false 308) (exponent + mostExponent)

def double (negative : Bool) (significand : Nat) (exponent : Int) : JsonReader JsonNumber := do
  let x ← scaled 4 significand.toUInt64.toFloat exponent
  return .double (if negative then -x else x)

-- How many digits of an exponent are read when it stops fitting 31 bits.
def exponentOverflow? (n count : Nat) : List Char → Option Nat
  | [] => none
  | d :: ds =>
    let next := n * 10 + (d.toNat - '0'.toNat)
    if next < Nat.pow 2 31 then exponentOverflow? next (count + 1) ds else some (count + 1)

def exponentSign : JsonReader Bool := do
  match ← peek? with
  | some '+' => skip; return false
  | some '-' => skip; return true
  | _ => return false

-- An exponent from its mark on.
def exponent (negative : Bool) (significand : Nat) (start : Int) : JsonReader JsonNumber := do
  skip
  let down ← exponentSign
  match ← peek? with
  | none => refuseHere .eofValue
  | some c =>
    if !c.isDigit then refuseNext .invalidNumber
    else
      let place ← get
      let ds ← digits
      match exponentOverflow? 0 0 ds with
      | some count =>
        if significand ≠ 0 && !down then refuse .outOfRange (place.line, place.column + count)
        else return .double (if negative then -0.0 else 0.0)
      | none =>
        let e : Int := ds.foldl (fun n d => n * 10 + (d.toNat - '0'.toNat)) 0
        double negative significand (if down then start - e else start + e)

def isExponentMark (c : Option Char) : Bool := c = some 'e' || c = some 'E'

-- A fraction from its point on.
def fraction (negative : Bool) (significand : Nat) (start : Int) : JsonReader JsonNumber := do
  skip
  let ds ← digits
  if ds.isEmpty then
    match ← peek? with
    | some _ => refuseNext .invalidNumber
    | none => refuseHere .eofValue
  else
    let (n, count) := absorb significand 0 ds
    if isExponentMark (← peek?) then exponent negative n (start - count)
    else double negative n (start - count)

def wholeNumber (negative : Bool) (n : Nat) : JsonNumber :=
  if !negative then .whole n
  else if 0 < n ∧ n ≤ Nat.pow 2 63 then .whole (-n)
  else .double (-n.toUInt64.toFloat)

-- A number after its sign. Whole numbers that have no 64 bits become doubles.
def number (negative : Bool) : JsonReader JsonNumber := do
  match ← peek? with
  | none => refuseHere .eofValue
  | some c =>
    if !c.isDigit then refuseNext .invalidNumber
    else
      let ds ← if c = '0' then (do skip; return ['0']) else digits
      if c = '0' && (← peek?).any Char.isDigit then refuseNext .invalidNumber
      else
        let (n, count) := absorb 0 0 ds
        let dropped := ds.length - count
        match ← peek? with
        | some '.' => fraction negative n dropped
        | next =>
          if isExponentMark next then exponent negative n dropped
          else if dropped = 0 then return wholeNumber negative n
          else double negative n dropped

/-! ### Values -/

def ident : List Char → JsonReader Unit
  | [] => return ()
  | expected :: more => do
    match ← peek? with
    | none => refuseHere .eofValue
    | some c => if c = expected then (do skip; ident more) else refuseNext .expectedIdent

-- A value that holds no others, if the next character starts one.
def scalar? (c : Char) : JsonReader (Option JsonValue) := do
  match c with
  | 'n' => skip; ident ['u', 'l', 'l']; return some .null
  | 't' => skip; ident ['r', 'u', 'e']; return some (.bool true)
  | 'f' => skip; ident ['a', 'l', 's', 'e']; return some (.bool false)
  | '-' => skip; return some (.number (← number true))
  | '"' => return some (.string (← string))
  | c => if c.isDigit then return some (.number (← number false)) else return none

-- Whether another item of a list comes.
def hasItem (isFirst : Bool) : JsonReader Bool := do
  match ← peekToken? with
  | none => refuseHere .eofList
  | some ']' => return false
  | some ',' =>
    if isFirst then return true
    else
      skip
      match ← peekToken? with
      | some ']' => refuseNext .trailingComma
      | some _ => return true
      | none => refuseHere .eofValue
  | some _ => if isFirst then return true else refuseNext .expectedListEnd

def endList : JsonReader Unit := do
  match ← peekToken? with
  | some ']' => skip
  | some ',' =>
    skip
    match ← peekToken? with
    | some ']' => refuseNext .trailingComma
    | _ => refuseNext .trailingCharacters
  | some _ => refuseNext .trailingCharacters
  | none => refuseHere .eofList

-- Whether another field of an object comes.
def hasField (isFirst : Bool) : JsonReader Bool := do
  match ← peekToken? with
  | none => refuseHere .eofObject
  | some '\x7d' => return false
  | some '"' => if isFirst then return true else refuseNext .expectedObjectEnd
  | some ',' =>
    if isFirst then refuseNext .keyNotString
    else
      skip
      match ← peekToken? with
      | some '"' => return true
      | some '\x7d' => refuseNext .trailingComma
      | some _ => refuseNext .keyNotString
      | none => refuseHere .eofValue
  | some _ => if isFirst then refuseNext .keyNotString else refuseNext .expectedObjectEnd

def endObject : JsonReader Unit := do
  match ← peekToken? with
  | some '\x7d' => skip
  | some ',' => refuseNext .trailingComma
  | some _ => refuseNext .trailingCharacters
  | none => refuseHere .eofObject

def colon : JsonReader Unit := do
  match ← peekToken? with
  | some ':' => skip
  | some _ => refuseNext .expectedColon
  | none => refuseHere .eofObject

-- Reads items one after another; `fuel` bounds their number.
def items {σ : Type} (item : σ → JsonReader σ) : Nat → Bool → σ → JsonReader σ
  | 0, _, s => return s
  | fuel + 1, isFirst, s => do
    if ← hasItem isFirst then items item fuel false (← item s) else return s

-- Reads fields one after another; each is given its key and reads its value, with the colon before
-- it.
def fields {σ : Type} (field : σ → String → JsonReader σ) : Nat → Bool → σ → JsonReader σ
  | 0, _, s => return s
  | fuel + 1, isFirst, s => do
    if ← hasField isFirst then fields field fuel false (← field s (← string)) else return s

-- What stands between the brackets of a container. A fault of the data in it is placed after
-- looking for the closing bracket.
def enclosed {σ : Type} (inside : JsonReader σ) (close : JsonReader Unit) : JsonReader σ := do
  skip
  let outcome ← observing inside
  let closing ← observing close
  match outcome, closing with
  | .ok s, .ok _ => return s
  | .error e, _ => placed e
  | .ok _, .error e => placed e
where
  observing {β : Type} (r : JsonReader β) : JsonReader (Except JsonError β) :=
    ExceptT.mk do return .ok (← r.run)
  placed (e : JsonError) : JsonReader σ := do
    throw { e with place := some (e.place.getD (← get).place) }

-- How deeply containers may be nested.
def depthLimit : Nat := 127

-- A value; `fuel` bounds its parts, and `room` how many containers may be opened inside each other.
def value : Nat → Nat → JsonReader JsonValue
  | 0, _ => refuseHere .tooDeep
  | fuel + 1, room => do
    match ← peekToken? with
    | none => refuseHere .eofValue
    | some '[' =>
      if room = 0 then refuseNext .tooDeep
      else
        let read ← enclosed
          (items (fun done => return (← value fuel (room - 1)) :: done) fuel true []) endList
        return .array read.reverse
    | some '\x7b' =>
      if room = 0 then refuseNext .tooDeep
      else
        let field (done : List (String × JsonValue)) (key : String) :
            JsonReader (List (String × JsonValue)) := do
          colon
          return (key, ← value fuel (room - 1)) :: done
        let read ← enclosed (fields field fuel true []) endObject
        return .object read.reverse
    | some c =>
      match ← scalar? c with
      | some v => return v
      | none => refuseNext .expectedValue

-- Enough for every value in the text that is left.
def fuel : JsonReader Nat := return 2 * (← get).rest.length + 2

-- Nothing but spaces may follow.
def finish : JsonReader Unit := do
  match ← peekToken? with
  | some _ => refuseNext .trailingCharacters
  | none => return ()

-- What a text says, if `r` reads all of it.
def read (r : JsonReader α) (text : String) : Except JsonError α :=
  let all : JsonReader α := do
    let a ← r
    finish
    return a
  (all.run (JsonCursor.start text.toList)).1

end JsonReader
end NoteCell
