import NoteCell.Number.Rounding
import NoteCell.Tree.Basic

/-!
Numbers, whole ones of 64 bits and doubles, are compared by the values they denote. In arithmetic
whole numbers give exact results or refuse; one double among the operands makes the result a double.
Division by zero is refused for both.
-/
namespace NoteCell

inductive Number where
  | int (n : Int64)
  | float (x : Float)
deriving DecidableEq

namespace Number

-- A whole number is rounded to the nearest double.
def toFloat : Number → Float
  | int n => Float.ofInt n.toInt
  | float x => x

def compareInts (m n : Int64) : Ordering := compare m.toInt n.toInt

def compareFloats (x y : Float) : Option Ordering :=
  if x < y then some .lt
  else if x == y then some .eq
  else if y < x then some .gt
  else none

def twoToThe63 : Float := 9223372036854775808.0

-- A whole double is compared as a whole number, one too large by its sign. A double with a fraction
-- lies strictly between two whole numbers below `2 ^ 53`, and rounding does not carry across it.
def compareIntFloat (n : Int64) (x : Float) : Option Ordering :=
  if x.isNaN then none
  else match Whole.ofFloat? x with
    | some m => some (compareInts n m)
    | none =>
      if twoToThe63 ≤ x.abs then some (if 0.0 < x then .lt else .gt)
      else compareFloats (Float.ofInt n.toInt) x

-- Nothing compares with what is not a number.
def compare? : Number → Number → Option Ordering
  | int m, int n => some (compareInts m n)
  | float x, float y => compareFloats x y
  | int n, float x => compareIntFloat n x
  | float x, int n => (compareIntFloat n x).map Ordering.swap

end Number

/-! ### Arithmetic -/

inductive ArithmeticFault where
  | tooLarge
  | division
  | floorDivision
  | floatFloorDivision
  | modulo
  | floatModulo
  | negativePower
deriving DecidableEq, Repr

namespace ArithmeticFault

def message : ArithmeticFault → String
  | tooLarge => "integer result too large"
  | division => "division by zero"
  | floorDivision => "integer division or modulo by zero"
  | floatFloorDivision => "float floor division by zero"
  | modulo => "integer modulo by zero"
  | floatModulo => "float modulo"
  | negativePower => "0.0 cannot be raised to a negative power"

end ArithmeticFault

namespace Arithmetic

abbrev Result := Except ArithmeticFault Number

def exact (n : Int) : Result :=
  match Whole.ofInt? n with
  | some m => .ok (.int m)
  | none => .error .tooLarge

-- The powers of -1, 0 and 1 repeat, so that no exponent is too long for them.
def shortExponent (base : Int) (exponent : Nat) : Nat :=
  if base.natAbs ≤ 1 ∧ 0 < exponent then 2 - exponent % 2 else exponent

-- Exponents have 32 bits; beyond 63 only -1, 0 and 1 have a power that fits.
def intPower (base : Int) (exponent : Nat) : Result :=
  if Nat.pow 2 32 ≤ exponent then .error .tooLarge
  else if 2 ≤ base.natAbs ∧ 64 ≤ exponent then .error .tooLarge
  else exact (base.pow (shortExponent base exponent))

-- A quotient without its fraction is one above the floor if it is below zero and had a fraction.
def floorDivide (m n : Int64) : Result :=
  if n = 0 then .error .floorDivision
  else match Whole.ofInt? (m.toInt.tdiv n.toInt) with
    | some q => .ok (.int (if m % n != 0 && (m < 0) != (n < 0) then q - 1 else q))
    | none => .error .tooLarge

-- The remainder takes the sign of the divisor.
def modulo (m n : Int64) : Result :=
  if n = 0 then .error .modulo
  else
    let r := m % n
    .ok (.int (if r != 0 && (r < 0) != (n < 0) then r + n else r))

def trueDivide (x y : Float) : Result :=
  if y == 0.0 then .error .division else .ok (.float (x / y))

def floatFloorDivide (x y : Float) : Result :=
  if y == 0.0 then .error .floatFloorDivision
  else .ok (.float (Rounding.round Rounding.down (x / y)))

def floatModulo (x y : Float) : Result :=
  if y == 0.0 then .error .floatModulo
  else
    let r := Rounding.remainder x y
    .ok (.float (if r != 0.0 && (r < 0.0) != (y < 0.0) then r + y else r))

def floatPower (x y : Float) : Result :=
  if x == 0.0 && y < 0.0 then .error .negativePower else .ok (.float (x.pow y))

def ints (op : BinaryOp) (m n : Int64) : Result :=
  let a := m.toInt
  let b := n.toInt
  match op with
  | .add => exact (a + b)
  | .sub => exact (a - b)
  | .mul => exact (a * b)
  | .div => trueDivide (Float.ofInt a) (Float.ofInt b)
  | .floorDiv => floorDivide m n
  | .mod => modulo m n
  | .pow =>
    if 0 ≤ b then intPower a b.toNat else floatPower (Float.ofInt a) (Float.ofInt b)

def floats (op : BinaryOp) (x y : Float) : Result :=
  match op with
  | .add => .ok (.float (x + y))
  | .sub => .ok (.float (x - y))
  | .mul => .ok (.float (x * y))
  | .div => trueDivide x y
  | .floorDiv => floatFloorDivide x y
  | .mod => floatModulo x y
  | .pow => floatPower x y

def binary (op : BinaryOp) : Number → Number → Result
  | .int m, .int n => ints op m n
  | a, b => floats op a.toFloat b.toFloat

def negate : Number → Result
  | .int n => exact (-n.toInt)
  | .float x => .ok (.float (-x))

def absolute : Number → Result
  | .int n => exact n.toInt.natAbs
  | .float x => .ok (.float x.abs)

end Arithmetic

end NoteCell
