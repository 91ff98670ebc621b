/-!
The shortest decimal that reads back as a given double. A finite double is a dyadic number
`m · 2 ^ q`; the reals that round to it form an interval, closed when `m` is even. Among the grids
of one to seventeen digits the first that has a point in the interval gives the answer, and of two
such points the nearer one, the upper on a tie.
-/
namespace NoteCell

-- A finite double: `mantissa · 2 ^ exponent`, negated when `negative`.
structure Dyadic where
  negative : Bool
  mantissa : Nat
  exponent : Int
deriving DecidableEq, Repr

-- The value of a finite double; infinities and not-a-numbers have none.
def Dyadic.ofFloat? (x : Float) : Option Dyadic :=
  let bits : Nat := x.toBits.toNat
  let biased : Nat := bits / Nat.pow 2 52 % Nat.pow 2 11
  let fraction : Nat := bits % Nat.pow 2 52
  let negative : Bool := Nat.pow 2 63 ≤ bits
  if biased = 2047 then none
  else if biased = 0 then some ⟨negative, fraction, -1074⟩
  else some ⟨negative, fraction + Nat.pow 2 52, biased - 1075⟩

def isNegative (x : Float) : Bool :=
  Nat.pow 2 63 ≤ x.toBits.toNat

namespace Decimal

-- The number `digits · 10 ^ exponent`.
structure Digits where
  digits : Nat
  exponent : Int
deriving DecidableEq, Repr

-- Quarters of a unit of `m · 2 ^ q` keep the ends of the interval whole.
structure Interval where
  lower : Nat
  center : Nat
  upper : Nat
  closed : Bool
deriving DecidableEq, Repr

-- The reals that round to `m · 2 ^ q`: below a power of two the neighbour is half as far.
def interval (m : Nat) (q : Int) : Interval where
  lower := if m = Nat.pow 2 52 ∧ -1074 < q then 4 * m - 1 else 4 * m - 2
  center := 4 * m
  upper := 4 * m + 2
  closed := m % 2 = 0

-- One grid: a number `t · 2 ^ (q - 2)` lies at `t * mul / div` steps.
structure Grid where
  mul : Nat
  div : Nat
deriving DecidableEq, Repr

def Grid.of (q : Int) (step : Int) : Grid where
  mul := Nat.pow 2 (q - 2).toNat * Nat.pow 10 (-step).toNat
  div := Nat.pow 2 (2 - q).toNat * Nat.pow 10 step.toNat

def Interval.has (i : Interval) (g : Grid) (point : Nat) : Bool :=
  if i.closed then i.lower * g.mul ≤ point * g.div && point * g.div ≤ i.upper * g.mul
  else i.lower * g.mul < point * g.div && point * g.div < i.upper * g.mul

-- The point of the grid in the interval that is nearest to its center.
def Interval.nearest? (i : Interval) (g : Grid) : Option Nat :=
  let below := i.center * g.mul / g.div
  let above := below + 1
  match i.has g below, i.has g above with
  | true, true =>
    if 2 * (i.center * g.mul) < (2 * below + 1) * g.div then some below else some above
  | true, false => some below
  | false, true => some above
  | false, false => none

-- How many digits stand before the point, counted by trial from `guess` upwards.
def magnitudeFrom (q : Int) (center : Nat) : Nat → Int → Int
  | 0, guess => guess
  | fuel + 1, guess =>
    let g := Grid.of q guess
    if center * g.mul < g.div then guess else magnitudeFrom q center fuel (guess + 1)

-- The least `k` with `m · 2 ^ q < 10 ^ k`. It exceeds `log₁₀ 2` times the bit count by little.
def magnitude (m : Nat) (q : Int) : Int :=
  magnitudeFrom q (4 * m) 4 (((m.log2 : Int) + q) * 30102 / 100000 - 1)

def shortestFrom (i : Interval) (q k : Int) : Nat → Nat → Digits
  | 0, _ => ⟨i.center, 0⟩
  | fuel + 1, count =>
    match i.nearest? (Grid.of q (k - count)) with
    | some point => ⟨point, k - count⟩
    | none => shortestFrom i q k fuel (count + 1)

-- The shortest decimal of `m · 2 ^ q`, for `m` above zero.
def shortest (m : Nat) (q : Int) : Digits :=
  shortestFrom (interval m q) q (magnitude m q) 17 1

end Decimal
end NoteCell
