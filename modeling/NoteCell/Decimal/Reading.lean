/-!
Reading decimal numbers. The double nearest to `m · 10 ^ e` is computed exactly; exponents that
leave no doubt about overflow or underflow are settled before any power is formed.
-/
namespace NoteCell.Decimal

def digitValue (c : Char) : Nat := c.toNat - '0'.toNat

-- The number that a row of decimal digits denotes; other characters must not occur.
def natOfDigits (cs : List Char) : Nat :=
  cs.foldl (fun n c => 10 * n + digitValue c) 0

-- The whole number nearest to `a / b`, a half to the even one.
def nearestEven (a b : Nat) : Nat :=
  let below := a / b
  let left := 2 * (a % b)
  if left < b ∨ (left = b ∧ below % 2 = 0) then below else below + 1

-- The bits of infinity. Below them stand those of the doubles from zero on, in their order.
def infinityBits : Nat := 2047 * Nat.pow 2 52

-- The least double above zero is two to the minus this.
def leastExponent : Nat := 1074

-- The bits of the double nearest to `a / b`. The least double above zero is the unit; `shift` more
-- bits than a mantissa has are rounded away, and a mantissa that overflows carries over.
def nearestBits (a b : Nat) : Nat :=
  let scaled := a * Nat.pow 2 leastExponent
  let shift := (scaled / b).log2 - 52
  min infinityBits (shift * Nat.pow 2 52 + nearestEven scaled (b * Nat.pow 2 shift))

def bitsOf (digits : Nat) (exponent : Int) : Nat :=
  let top := (Nat.toDigits 10 digits).length + exponent
  if digits = 0 ∨ top < -330 then 0
  else if 310 < top then infinityBits
  else nearestBits (digits * Nat.pow 10 exponent.toNat) (Nat.pow 10 (-exponent).toNat)

-- The double nearest to `digits · 10 ^ exponent`.
def toFloat (digits : Nat) (exponent : Int) : Float :=
  Float.ofBits (UInt64.ofNat (bitsOf digits exponent))

-- An unsigned number with a point or an exponent, split into its rows of digits.
structure Parts where
  whole : List Char
  fraction : List Char
  exponentNegative : Bool
  exponent : List Char
deriving DecidableEq, Repr

def Parts.toFloat (p : Parts) : Float :=
  let shift : Int := natOfDigits p.exponent
  Decimal.toFloat (natOfDigits (p.whole ++ p.fraction))
    ((if p.exponentNegative then -shift else shift) - p.fraction.length)

-- Digits after the optional sign of an exponent.
def exponentParts (whole fraction : List Char) : List Char → Parts
  | '-' :: digits => ⟨whole, fraction, true, digits⟩
  | '+' :: digits => ⟨whole, fraction, false, digits⟩
  | digits => ⟨whole, fraction, false, digits⟩

def isExponentMark (c : Char) : Bool := c = 'e' || c = 'E'

-- Splits at the point and at the exponent mark. Nothing is checked.
def Parts.of (cs : List Char) : Parts :=
  let whole := cs.takeWhile Char.isDigit
  match cs.dropWhile Char.isDigit with
  | '.' :: rest =>
    let fraction := rest.takeWhile Char.isDigit
    match rest.dropWhile Char.isDigit with
    | [] => ⟨whole, fraction, false, []⟩
    | _ :: exponent => exponentParts whole fraction exponent
  | [] => ⟨whole, [], false, []⟩
  | _ :: exponent => exponentParts whole [] exponent

end NoteCell.Decimal
