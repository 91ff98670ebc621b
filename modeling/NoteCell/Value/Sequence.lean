import NoteCell.Value.Exception

/-!
Positions in sequences, sequences repeated, and ranges. Positions below zero count from the end.
-/
namespace NoteCell

-- The place that an index names in a sequence of some length. Lengths that are no whole number of
-- 64 bits have no places.
def position? (index : Int64) (length : Nat) : Option Nat :=
  let place := if index < 0 then index.toInt + length else index.toInt
  if length < Nat.pow 2 63 ∧ 0 ≤ place ∧ place < length then some place.toNat else none

namespace Repetition

-- The most bytes that a repeated sequence may take.
def limit : Nat := Nat.pow 2 30

-- An item of a list or tuple counts as that many bytes.
def itemBytes : Nat := 32

-- How often a sequence is repeated: a negative count is none.
def times (count : Int64) : Nat := count.toInt.toNat

-- A product, unless it is no whole number of 64 bits.
def product? (m n : Nat) : Option Nat := if m * n < Nat.pow 2 64 then some (m * n) else none

-- Whether the items, of `unit` bytes each, take no more than the limit.
def fits (length unit : Nat) (count : Int64) : Bool :=
  match product? length (times count) >>= (product? · unit) with
  | some bytes => bytes ≤ limit
  | none => false

def memoryError {α : Type} : Attempt α := .raise .memory ""

def items {α : Type} (xs : Array α) (count : Int64) : Attempt (Array α) :=
  if !fits xs.size itemBytes count then memoryError
  else if xs.isEmpty then return #[]
  else return (Array.replicate (times count) xs).flatten

def text (s : String) (count : Int64) : Attempt String :=
  if !fits s.utf8ByteSize 1 count then memoryError
  else if s.isEmpty then return ""
  else return String.join (List.replicate (times count) s)

end Repetition

/-!
### Ranges

The whole numbers from `start` towards `stop` in steps that are not zero. Lengths and items are
computed without a bound, so no item shows the effect of an overflow.
-/

structure Range where
  start : Int64
  stop : Int64
  step : Int64
  step_ne_zero : step ≠ 0
deriving DecidableEq

namespace Range

variable (r : Range)

-- How far it is to `stop` in the direction of the steps.
def span : Int :=
  if 0 < r.step.toInt then r.stop.toInt - r.start.toInt else r.start.toInt - r.stop.toInt

def length : Nat :=
  let step := r.step.toInt.natAbs
  (r.span.toNat + step - 1) / step

def item (i : Nat) : Int := r.start.toInt + r.step.toInt * i

def get? (i : Nat) : Option Int64 :=
  if i < r.length then Whole.ofInt? (r.item i) else none

def spans (n : Int64) : Bool :=
  if 0 < r.step.toInt then r.start ≤ n && n < r.stop else r.stop < n && n ≤ r.start

-- Whether a number is an item. The distance from the start and its quotient by the step have to
-- fit; nothing otherwise.
def contains? (n : Int64) : Option Bool :=
  if r.spans n then do
    let distance ← Whole.ofInt? (n.toInt - r.start.toInt)
    let _ ← Whole.ofInt? (distance.toInt.tdiv r.step.toInt)
    return distance.toInt.tmod r.step.toInt = 0
  else some false

end Range

end NoteCell
