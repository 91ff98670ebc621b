import NoteCell.Decimal.Reading
import NoteCell.Number.Rounding
import NoteCell.Text.Search

/-!
Numbers read from texts, with blanks around them allowed.
-/
namespace NoteCell.Reading

def isNumeral (cs : List Char) : Bool := !cs.isEmpty && cs.all Char.isDigit

-- Whether a sign is a minus, and what comes after it.
def splitSign : List Char → Bool × List Char
  | '-' :: rest => (true, rest)
  | '+' :: rest => (false, rest)
  | cs => (false, cs)

-- A whole number: a sign and digits. Underscores are left out wherever they stand.
def whole? (text : List Char) : Option Int64 :=
  let (negative, digits) := splitSign ((Search.trim text).filter (· ≠ '_'))
  if isNumeral digits then
    let n : Int := Decimal.natOfDigits digits
    Whole.ofInt? (if negative then -n else n)
  else none

def isExponent : List Char → Bool
  | [] => true
  | mark :: rest => Decimal.isExponentMark mark && isNumeral (splitSign rest).2

-- Digits with a point before, among or after them, and an exponent.
def isDecimal (cs : List Char) : Bool :=
  let before := cs.takeWhile Char.isDigit
  match cs.dropWhile Char.isDigit with
  | '.' :: rest =>
    !(before.isEmpty && (rest.takeWhile Char.isDigit).isEmpty)
      && isExponent (rest.dropWhile Char.isDigit)
  | rest => !before.isEmpty && isExponent rest

def unsigned? (cs : List Char) : Option Float :=
  if isDecimal cs then some (Decimal.Parts.of cs).toFloat
  else
    match String.ofList (cs.map Char.toLower) with
    | "inf" | "infinity" => some (1.0 / 0.0)
    | "nan" => some Rounding.notANumber
    | _ => none

def double? (text : List Char) : Option Float :=
  let (negative, rest) := splitSign (Search.trim text)
  (unsigned? rest).map fun x => if negative then -x else x

end NoteCell.Reading
