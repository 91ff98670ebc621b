import NoteCell.Decimal.Shortest

/-!
Doubles and whole numbers. A finite double is a dyadic number, so rounding it and taking remainders
are done exactly on its mantissa and come back to a double without a further rounding.
-/
namespace NoteCell

namespace Dyadic

def signed (d : Dyadic) : Int := if d.negative then -d.mantissa else d.mantissa

-- The double of a dyadic number that is one.
def toFloat (d : Dyadic) : Float :=
  let sign : Nat := if d.negative then Nat.pow 2 63 else 0
  if d.mantissa = 0 then Float.ofBits (UInt64.ofNat sign)
  else
    let top : Int := d.mantissa.log2 + d.exponent
    let least : Int := max (top - 52) (-1074)
    let shift := d.exponent - least
    let m := if 0 ≤ shift then d.mantissa * Nat.pow 2 shift.toNat
      else d.mantissa / Nat.pow 2 (-shift).toNat
    let biased : Int := if m < Nat.pow 2 52 then 0 else least + 1075
    Float.ofBits (UInt64.ofNat (sign + biased.toNat * Nat.pow 2 52 + m % Nat.pow 2 52))

-- The whole number next to a dyadic number, as `quotient` rounds a division by a power of two.
def whole (quotient : Int → Int → Int) (d : Dyadic) : Int :=
  if 0 ≤ d.exponent then d.signed * Nat.pow 2 d.exponent.toNat
  else quotient d.signed (Nat.pow 2 (-d.exponent).toNat)

def isWhole (d : Dyadic) : Bool :=
  0 ≤ d.exponent || d.mantissa % Nat.pow 2 (-d.exponent).toNat = 0

end Dyadic

namespace Rounding

def down (a b : Int) : Int := a.fdiv b

def up (a b : Int) : Int := -(-a).fdiv b

def towardZero (a b : Int) : Int := a.tdiv b

-- To the nearest whole number, a half to the even one.
def halfEven (a b : Int) : Int :=
  let q := a.fdiv b
  let r := a - q * b
  if 2 * r < b then q
  else if b < 2 * r then q + 1
  else if q % 2 = 0 then q else q + 1

-- A double rounded to a whole one. The sign survives in a zero.
def round (quotient : Int → Int → Int) (x : Float) : Float :=
  match Dyadic.ofFloat? x with
  | none => x
  | some d => Dyadic.toFloat ⟨d.negative, (d.whole quotient).natAbs, 0⟩

def notANumber : Float := 0.0 / 0.0

-- What is left of `x` after taking away a whole number of times `y`, with the sign of `x`.
def remainder (x y : Float) : Float :=
  match Dyadic.ofFloat? x, Dyadic.ofFloat? y with
  | some a, some b =>
    if b.mantissa = 0 then notANumber
    else
      let least := min a.exponent b.exponent
      let m := a.mantissa * Nat.pow 2 (a.exponent - least).toNat
      let n := b.mantissa * Nat.pow 2 (b.exponent - least).toNat
      Dyadic.toFloat ⟨a.negative, m % n, least⟩
  | some _, none => if y.isNaN then y else x
  | none, _ => notANumber

def powerOfTenFrom (n : Nat) (square product : Float) : Float :=
  let product := if n % 2 = 1 then product * square else product
  if _h : n < 2 then product else powerOfTenFrom (n / 2) (square * square) product

-- `10 ^ n` by squaring, rounding each product.
def powerOfTen (n : Nat) : Float := powerOfTenFrom n 10.0 1.0

end Rounding

namespace Whole

-- Whole numbers have 64 bits. Nothing when one does not fit.
def ofInt? (n : Int) : Option Int64 :=
  if -(Nat.pow 2 63 : Nat) ≤ n ∧ n < (Nat.pow 2 63 : Nat) then some (Int64.ofInt n) else none

-- A double that is a whole number of 64 bits.
def ofFloat? (x : Float) : Option Int64 :=
  match Dyadic.ofFloat? x with
  | none => none
  | some d => if d.isWhole then ofInt? (d.whole Rounding.towardZero) else none

end Whole
end NoteCell
