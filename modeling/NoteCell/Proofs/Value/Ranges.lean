import NoteCell.Machine.Operators
import NoteCell.Proofs.Value.Iterations

/-!
The views of a range agree: what an iteration goes through, what is found at a place and what a
subscript gives are the same whole numbers, which lie whole steps from the start and before the end.
Their number has at most 64 bits, and the step past the last one, which may wrap, is in no view.
-/
namespace NoteCell

/-! ### Positions -/

theorem position?_eq_some {index : Int64} {length i : Nat} (hlength : length < 2 ^ 63)
    (hi : i < length) (hindex : index.toInt = i ∨ index.toInt = i - length) :
    position? index length = some i := by
  have hplace : (if index < 0 then index.toInt + length else index.toInt) = i := by
    simp only [Int64.lt_iff_toInt_lt, Int64.toInt_zero]
    split <;> omega
  rw [position?, hplace]
  simp only [Int.toNat_natCast]
  exact if_pos ⟨hlength, by omega, by omega⟩

theorem position?_eq_none {index : Int64} {length : Nat}
    (hindex : index.toInt < -length ∨ length ≤ index.toInt) : position? index length = none := by
  rw [position?]
  simp only [Int64.lt_iff_toInt_lt, Int64.toInt_zero]
  apply if_neg
  split <;> omega

/-! ### Items -/

namespace Range

variable {r : Range} {i : Nat} {k : Int64} {v : Value} {h : Heap}

-- On the side of the end that the steps come from.
def Before (r : Range) (n : Int) : Prop :=
  if 0 < r.step.toInt then n < r.stop.toInt else r.stop.toInt < n

theorem before_item (hi : i < r.length) : r.Before (r.item i) := by
  have hbetween := item_between hi
  rw [Before]
  split at hbetween <;> simp only [*, if_true, if_false]

theorem not_before_item_length (r : Range) : ¬ r.Before (r.item r.length) := by
  have hend : ¬ (r.step.toInt.natAbs * r.length : Int) < r.span :=
    fun hlt => Nat.lt_irrefl _ (lt_length_iff.mpr hlt)
  rw [span] at hend
  rw [Before, item]
  split at hend
  case isTrue hstep =>
    rw [Int.natAbs_of_nonneg (by omega)] at hend
    rw [if_pos hstep]
    omega
  case isFalse hstep =>
    rw [Int.ofNat_natAbs_of_nonpos (by omega), Int.neg_mul] at hend
    rw [if_neg hstep]
    omega

theorem span_lt (r : Range) : r.span < 2 ^ 64 := by
  have hstart := And.intro r.start.le_toInt r.start.toInt_lt
  have hstop := And.intro r.stop.le_toInt r.stop.toInt_lt
  rw [span]
  split <;> omega

-- A step is at least one, so there are no more items than whole numbers on the way.
theorem length_lt (r : Range) : r.length < 2 ^ 64 := by
  by_contra hlength
  have hlast : 2 ^ 64 - 1 < r.length := by omega
  have hspan := lt_length_iff.mp hlast
  have hlt := r.span_lt
  have hstep : 1 ≤ r.step.toInt.natAbs := Int.natAbs_pos.mpr r.step_toInt_ne_zero
  omega

theorem get?_of_lt (hi : i < r.length) : r.get? i = some (Int64.ofInt (r.item i)) := by
  rw [get?, if_pos hi]
  exact Whole.ofInt?_eq_some_iff.mpr (toInt_item hi)

theorem get?_of_le (hi : r.length ≤ i) : r.get? i = none := if_neg hi.not_gt

-- What an iteration yields is found at its places.
theorem itemsOf_eq (h : Heap) (r : Range) : ∃ items, h.itemsOf (.range r) = .ok items
    ∧ items.length = r.length ∧ ∀ i, items[i]? = (r.get? i).map .int := by
  refine ⟨_, h.itemsOf_range r, by simp, fun i => ?_⟩
  rcases Nat.lt_or_ge i r.length with hi | hi
  · rw [get?_of_lt hi, List.getElem?_map, List.getElem?_range hi]
    rfl
  · rw [get?_of_le hi, List.getElem?_eq_none (by simpa using hi)]
    rfl

/-! ### Views -/

theorem getItem_eq (hv : v.index? = some k) : Operators.getItem h (.range r) v
    = match position? k r.length >>= fun i => (r.get? i).map .int with
      | some item => .ok item
      | none => .indexError "range object index out of range" := by
  rw [Operators.getItem, Operators.itemAt, Operators.sequenceIndex, hv]
  rfl

-- What an iteration over a range yields, with what is found at a place and by a subscript.
structure Views (h : Heap) (r : Range) (items : List Value) : Prop where
  iterated : h.itemsOf (.range r) = .ok items
  length_eq : items.length = r.length
  found : ∀ i < r.length, ∃ n, items[i]? = some (.int n) ∧ r.get? i = some n
    ∧ n.toInt = r.start.toInt + i * r.step.toInt ∧ r.Before n.toInt
  not_found : ∀ i, r.length ≤ i → r.get? i = none
  subscripted : r.length < 2 ^ 63 → ∀ (v : Value) (k : Int64), v.index? = some k →
    ∀ i < r.length, k.toInt = i ∨ k.toInt = i - r.length → ∃ item, items[i]? = some item
      ∧ Operators.getItem h (.range r) v = .ok item
  refused : ∀ (v : Value) (k : Int64), v.index? = some k →
    k.toInt < -r.length ∨ r.length ≤ k.toInt →
    Operators.getItem h (.range r) v = .indexError "range object index out of range"

theorem views_agree (h : Heap) (r : Range) : r.length < 2 ^ 64
    ∧ ¬ r.Before (r.start.toInt + r.length * r.step.toInt) ∧ ∃ items, Views h r items := by
  obtain ⟨items, hiterated, hlength, hitem⟩ := r.itemsOf_eq h
  have hend := r.not_before_item_length
  rw [item, Int.mul_comm] at hend
  refine ⟨r.length_lt, hend, items, hiterated, hlength, fun i hi => ?_, fun i => get?_of_le,
    fun hfits v k hv i hi hk => ?_, fun v k hv hk => ?_⟩
  case refine_1 =>
    refine ⟨_, by rw [hitem, get?_of_lt hi]; rfl, get?_of_lt hi, ?_, ?_⟩
    · rw [toInt_item hi, item, Int.mul_comm]
    · rw [toInt_item hi]
      exact before_item hi
  case refine_2 =>
    refine ⟨.int (Int64.ofInt (r.item i)), by rw [hitem, get?_of_lt hi]; rfl, ?_⟩
    rw [getItem_eq hv, position?_eq_some hfits hi hk, Option.bind_eq_bind, Option.bind_some,
      get?_of_lt hi]
    rfl
  case refine_3 =>
    rw [getItem_eq hv, position?_eq_none hk]
    rfl

-- The step past the last of its four items would wrap.
theorem views_agree_extremes :
    let r : Range := ⟨Int64.maxValue, Int64.minValue, -4611686018427387904, by decide⟩
    ∃ items, Heap.empty.itemsOf (.range r) = .ok items ∧ items.length = 4
      ∧ items[3]? = some (.int (-4611686018427387905))
      ∧ Operators.getItem .empty (.range r) (.int (-1)) = .ok (.int (-4611686018427387905))
      ∧ Operators.getItem .empty (.range r) (.int 4)
        = .indexError "range object index out of range" := by
  intro r
  have hlength : r.length = 4 := by decide
  obtain ⟨-, -, items, hviews⟩ := views_agree .empty r
  obtain ⟨n, hitem, -, hn, -⟩ := hviews.found 3 (by decide)
  obtain rfl : n = -4611686018427387905 := Int64.toInt_inj.mp hn
  obtain ⟨item, hitem', hgiven⟩ := hviews.subscripted (by rw [hlength]; decide) (.int (-1)) (-1)
    rfl 3 (by decide) (.inr (by decide))
  obtain rfl := Option.some.inj (hitem'.symm.trans hitem)
  exact ⟨items, hviews.iterated, hviews.length_eq.trans hlength, hitem, hgiven,
    hviews.refused (.int 4) 4 rfl (.inr (by decide))⟩

end Range
end NoteCell
