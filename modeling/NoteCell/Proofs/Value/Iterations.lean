import NoteCell.Proofs.Number.Doubles
import NoteCell.Value.Iteration

/-!
What iterations go through: all items of lists, tuples and dicts in their order, and of ranges the
whole numbers from the start in their steps. Ranges find their items by arithmetic.
-/
namespace NoteCell

namespace Iteration

variable {h : Heap} {it rest : Iteration} {v : Value}

theorem collectAfter_of_eq_none {done : List Value} (hnext : it.next? h = none) :
    it.collectAfter h done = done.reverse := by
  rw [collectAfter]
  split
  case h_1 => rfl
  case h_2 heq => rw [hnext] at heq; cases heq

theorem collectAfter_of_eq_some {done : List Value} (hnext : it.next? h = some (v, rest)) :
    it.collectAfter h done = rest.collectAfter h (v :: done) := by
  rw [collectAfter]
  split
  case h_1 heq => rw [hnext] at heq; cases heq
  case h_2 heq =>
    obtain ⟨rfl, rfl⟩ := Prod.mk.inj (Option.some.inj (hnext.symm.trans heq))
    rfl

theorem collectAfter_eq (done : List Value) (it : Iteration) :
    it.collectAfter h done = done.reverse ++ it.toList h := by
  induction hleft : it.left h using Nat.strongRecOn generalizing done it
  case ind left ih =>
    cases hnext : it.next? h with
    | none =>
      rw [toList, collectAfter_of_eq_none hnext, collectAfter_of_eq_none hnext, List.reverse_nil,
        List.append_nil]
    | some p =>
      obtain ⟨v, rest⟩ := p
      have ih := fun done => ih _ (hleft ▸ left_next? hnext) done rest rfl
      rw [toList, collectAfter_of_eq_some hnext, collectAfter_of_eq_some hnext, ih, ih [v]]
      simp

theorem toList_of_next?_eq_none (hnext : it.next? h = none) : it.toList h = [] :=
  collectAfter_of_eq_none hnext

theorem toList_of_next?_eq_some (hnext : it.next? h = some (v, rest)) :
    it.toList h = v :: rest.toList h := by
  rw [toList, collectAfter_of_eq_some hnext, collectAfter_eq]
  rfl

theorem toList_items (vs : List Value) : (items vs).toList h = vs := by
  induction vs
  case nil => exact toList_of_next?_eq_none rfl
  case cons v vs ih => rw [toList_of_next?_eq_some rfl, ih]

theorem toList_list (id place : Nat) :
    (list id place).toList h = (h.list id).toList.drop place := by
  induction hleft : (h.list id).size - place generalizing place
  case zero =>
    rw [List.drop_eq_nil_of_le (by simpa using (by omega : (h.list id).size ≤ place))]
    apply toList_of_next?_eq_none
    rw [next?, Array.getElem?_eq_none (by omega)]
    rfl
  case succ left ih =>
    have hplace : place < (h.list id).size := by omega
    have hnext : (list id place).next? h = some ((h.list id)[place], list id (place + 1)) := by
      rw [next?, Array.getElem?_eq_getElem hplace]
      rfl
    have hlength : place < (h.list id).toList.length := hplace
    rw [toList_of_next?_eq_some hnext, ih (place + 1) (by omega),
      List.drop_eq_getElem_cons hlength]
    rfl

theorem toList_range (next : Int64) (left : Nat) (step : Int64) : (range next left step).toList h
    = (List.range left).map fun i => .int (Int64.ofInt (next.toInt + step.toInt * i)) := by
  induction left generalizing next
  case zero => exact toList_of_next?_eq_none rfl
  case succ left ih =>
    rw [toList_of_next?_eq_some rfl, ih, List.range_succ_eq_map, List.map_cons, List.map_map]
    congr 1
    · simp
    · refine List.map_congr_left fun i _ => ?_
      have hitem : Int64.ofInt ((next + step).toInt + step.toInt * i)
          = Int64.ofInt (next.toInt + step.toInt * (i + 1 : Nat)) := by
        rw [Int64.ofInt_add, Int64.ofInt_toInt, Int.natCast_succ, Int.mul_add, Int.mul_one,
          Int.add_comm (step.toInt * i), ← Int.add_assoc, Int64.ofInt_add, Int64.ofInt_add,
          Int64.ofInt_toInt, Int64.ofInt_toInt]
      exact congrArg Value.int hitem

end Iteration

namespace Heap

theorem itemsOf_range (h : Heap) (r : Range) :
    h.itemsOf (.range r) = .ok ((List.range r.length).map fun i => .int (Int64.ofInt (r.item i))) :=
  congrArg Except.ok (Iteration.toList_range r.start r.length r.step)

theorem itemsOf_list (h : Heap) (id : Nat) : h.itemsOf (.list id) = .ok (h.list id).toList :=
  congrArg Except.ok (Iteration.toList_list id 0)

theorem itemsOf_tuple (h : Heap) (id : Nat) : h.itemsOf (.tuple id) = .ok (h.tuple id).toList :=
  congrArg Except.ok (Iteration.toList_items _)

theorem itemsOf_dict (h : Heap) (id : Nat) : h.itemsOf (.dict id) = .ok ((h.dict id).map (·.1)) :=
  congrArg Except.ok (Iteration.toList_items _)

end Heap

/-! ### Ranges -/

namespace Range

variable {r : Range} {n : Int64} {i : Nat}

theorem step_toInt_ne_zero (r : Range) : r.step.toInt ≠ 0 :=
  fun h => r.step_ne_zero (Int64.toInt_inj.mp h)

theorem lt_length_iff : i < r.length ↔ (r.step.toInt.natAbs * i : Int) < r.span := by
  have hstep : 0 < r.step.toInt.natAbs := Int.natAbs_pos.mpr r.step_toInt_ne_zero
  rw [length, ← Nat.succ_le_iff, Nat.le_div_iff_mul_le hstep, Nat.succ_mul, Nat.mul_comm]
  omega

theorem spans_iff : r.spans n ↔ if 0 < r.step.toInt
    then r.start.toInt ≤ n.toInt ∧ n.toInt < r.stop.toInt
    else r.stop.toInt < n.toInt ∧ n.toInt ≤ r.start.toInt := by
  rw [spans]
  split <;> simp [Int64.le_iff_toInt_le, Int64.lt_iff_toInt_lt]

theorem item_between (hi : i < r.length) : if 0 < r.step.toInt
    then r.start.toInt ≤ r.item i ∧ r.item i < r.stop.toInt
    else r.stop.toInt < r.item i ∧ r.item i ≤ r.start.toInt := by
  rw [lt_length_iff, span] at hi
  rw [item]
  split at hi
  case isTrue hstep =>
    have hprogress : 0 ≤ r.step.toInt * i := Int.mul_nonneg (by omega) (by omega)
    rw [Int.natAbs_of_nonneg (by omega)] at hi
    rw [if_pos hstep]
    omega
  case isFalse hstep =>
    have hprogress : 0 ≤ -r.step.toInt * i := Int.mul_nonneg (by omega) (by omega)
    rw [Int.ofNat_natAbs_of_nonpos (by omega), Int.neg_mul] at hi
    rw [Int.neg_mul] at hprogress
    rw [if_neg hstep]
    omega

-- Items are whole numbers of 64 bits.
theorem toInt_item (hi : i < r.length) : (Int64.ofInt (r.item i)).toInt = r.item i := by
  have hbetween := item_between hi
  have hstart := And.intro r.start.le_toInt r.start.toInt_lt
  have hstop := And.intro r.stop.le_toInt r.stop.toInt_lt
  apply Int64.toInt_ofInt_of_le <;> split at hbetween <;> omega

-- The items are the whole numbers on the way that lie whole steps from the start.
theorem exists_item_iff : (∃ i < r.length, r.item i = n.toInt)
    ↔ r.spans n ∧ r.step.toInt ∣ n.toInt - r.start.toInt := by
  constructor
  · rintro ⟨i, hi, heq⟩
    have hbetween := item_between hi
    rw [heq] at hbetween
    rw [item] at heq
    exact ⟨spans_iff.mpr hbetween, i, by omega⟩
  · rintro ⟨hspans, k, hk⟩
    rw [spans_iff] at hspans
    simp only [lt_length_iff, span, item]
    have hne := r.step_toInt_ne_zero
    have hnonneg : 0 ≤ k := by
      by_contra hneg
      rw [Int.not_le] at hneg
      split at hspans
      case isTrue hstep =>
        have := Int.mul_neg_of_pos_of_neg hstep hneg
        omega
      case isFalse hstep =>
        have := Int.mul_pos_of_neg_of_neg (by omega : r.step.toInt < 0) hneg
        omega
    obtain ⟨i, rfl⟩ := Int.eq_ofNat_of_zero_le hnonneg
    refine ⟨i, ?_, by omega⟩
    split at hspans
    case isTrue hstep =>
      rw [if_pos hstep, Int.natAbs_of_nonneg (by omega)]
      omega
    case isFalse hstep =>
      rw [if_neg hstep, Int.ofNat_natAbs_of_nonpos (by omega), Int.neg_mul]
      omega

-- Only the least whole number, divided by `-1`, is beyond all of 64 bits.
theorem tdiv_fits {a b : Int} (hlow : -2 ^ 63 ≤ a) (hhigh : a < 2 ^ 63)
    (hleast : ¬ (a = -2 ^ 63 ∧ b = -1)) : -2 ^ 63 ≤ a.tdiv b ∧ a.tdiv b < 2 ^ 63 := by
  have hnatAbs : (a.tdiv b).natAbs = a.natAbs / b.natAbs := Int.natAbs_tdiv a b
  have hquotient : (a.tdiv b).natAbs ≤ a.natAbs := hnatAbs ▸ Nat.div_le_self _ _
  by_cases ha : a = -2 ^ 63
  · have hne : a.tdiv b ≠ 2 ^ 63 := by
      intro heq
      have hself : a.natAbs / b.natAbs = a.natAbs := by
        rw [← hnatAbs, heq, ha]
        rfl
      obtain rfl | rfl : b = 1 ∨ b = -1 := by
        have := (Nat.div_eq_self.mp hself).resolve_left (by omega)
        omega
      · rw [Int.tdiv_one] at heq
        omega
      · exact hleast ⟨ha, rfl⟩
    omega
  · omega

theorem contains?_of_spans (hspans : r.spans n) {d q : Int64}
    (hd : d.toInt = n.toInt - r.start.toInt) (hq : q.toInt = d.toInt.tdiv r.step.toInt) :
    r.contains? n = some (decide (d.toInt.tmod r.step.toInt = 0)) := by
  rw [contains?, if_pos hspans, Whole.ofInt?_eq_some_iff.mpr hd]
  change (Whole.ofInt? (d.toInt.tdiv r.step.toInt) >>= fun _ => _) = _
  rw [Whole.ofInt?_eq_some_iff.mpr hq]
  rfl

-- The distance from the start and its quotient by the step have to fit.
theorem contains?_eq_some (hlow : -2 ^ 63 ≤ n.toInt - r.start.toInt)
    (hhigh : n.toInt - r.start.toInt < 2 ^ 63)
    (hleast : ¬ (n.toInt - r.start.toInt = -2 ^ 63 ∧ r.step.toInt = -1)) :
    ∃ b, r.contains? n = some b ∧ (b ↔ ∃ i < r.length, r.item i = n.toInt) := by
  rw [exists_item_iff]
  by_cases hspans : r.spans n
  · have hd : (Int64.ofInt (n.toInt - r.start.toInt)).toInt = n.toInt - r.start.toInt :=
      Int64.toInt_ofInt_of_le hlow hhigh
    have hfits := tdiv_fits hlow hhigh hleast
    have hq := Int64.toInt_ofInt_of_le hfits.1 hfits.2
    refine ⟨_, contains?_of_spans hspans hd (hd.symm ▸ hq), ?_⟩
    rw [decide_eq_true_iff, hd, and_iff_right hspans, Int.dvd_iff_tmod_eq_zero]
  · refine ⟨false, ?_, by simp [hspans]⟩
    rw [contains?, if_neg hspans]

-- Where the quotient does not fit, there is no answer.
theorem contains?_eq_none (hspans : r.spans n) (hleast : n.toInt - r.start.toInt = -2 ^ 63)
    (hstep : r.step.toInt = -1) : r.contains? n = none := by
  have hd : Int64.minValue.toInt = n.toInt - r.start.toInt := hleast.symm
  have hquotient : Whole.ofInt? (Int64.minValue.toInt.tdiv r.step.toInt) = none := by
    rw [hstep]
    rfl
  rw [contains?, if_pos hspans, Whole.ofInt?_eq_some_iff.mpr hd]
  change (Whole.ofInt? (Int64.minValue.toInt.tdiv r.step.toInt) >>= fun _ => _) = _
  rw [hquotient]
  rfl

end Range
end NoteCell
