import NoteCell.Decimal.FloatText
import NoteCell.Proofs.Number.Doubles

/-!
Negative numbers as negated ones. A whole number below zero, but for the least, and a finite double
whose sign bit is set are written as the number without the sign behind a minus sign, and negating
turns each of the two into the other.
-/
namespace NoteCell

open Float.Model Float.Model.UnpackedFloat

/-! ### Whole numbers -/

theorem toInt_neg_of_ne_minValue {k : Int64} (hk : k ≠ Int64.minValue) : (-k).toInt = -k.toInt := by
  have hne : k.toInt ≠ -2 ^ 63 := fun heq => hk (Int64.toInt_inj.mp heq)
  have hbounds := And.intro k.le_toInt k.toInt_lt
  rw [Int64.toInt_neg]
  exact Int.bmod_eq_of_le (by omega) (by omega)

theorem toString_of_neg {k : Int} (hk : k < 0) : toString k = "-" ++ toString (-k) := by
  obtain ⟨m, rfl⟩ : ∃ m, k = Int.negSucc m := Int.eq_negSucc_of_lt_zero hk
  rfl

/-! ### Doubles -/

namespace Double

variable {x : Float}

theorem unpack_neg (x : Float) : (-x).toModel.unpack = x.toModel.unpack.neg :=
  unpack_toModel_pack (canonical_neg (canonical_unpack _))

theorem neg_neg (x : Float) : -(-x) = x := by
  refine eq_of_unpack ?_
  rw [unpack_neg, unpack_neg]
  rcases x.toModel.unpack with (_ | _) | _ | (_ | _) | ⟨_ | _, m, e, hm⟩ <;> rfl

theorem isFinite_neg : (-x).isFinite = x.isFinite := by
  change (-x).toModel.unpack.isFinite = x.toModel.unpack.isFinite
  rw [unpack_neg]
  cases x.toModel.unpack <;> rfl

theorem exponent_of_isFinite (hx : x.isFinite) : x.toBits.toNat / 2 ^ 52 % 2 ^ 11 ≠ 2047 := by
  intro hexponent
  change (UnpackedFloat.unpack .binary64 x.toBits.toBitVec).isFinite = true at hx
  rw [unpack_eq, if_pos (by exact hexponent)] at hx
  split at hx <;> cases hx

theorem lt_infinityBits (hx : x.isFinite) (hsign : isNegative x = false) :
    x.toBits.toNat < Decimal.infinityBits := by
  have hexponent := exponent_of_isFinite hx
  have hlow : ¬ 2 ^ 63 ≤ x.toBits.toNat := of_decide_eq_false hsign
  change _ < 2047 * 2 ^ 52
  omega

theorem ofFloat?_of_isFinite (hx : x.isFinite) :
    ∃ d, Dyadic.ofFloat? x = some d ∧ d.negative = isNegative x := by
  have hexponent : ¬ x.toBits.toNat / Nat.pow 2 52 % Nat.pow 2 11 = 2047 := exponent_of_isFinite hx
  simp only [Dyadic.ofFloat?, if_neg hexponent]
  split
  all_goals exact ⟨_, rfl, rfl⟩

theorem ofFloat?_neg {d : Dyadic} (hd : Dyadic.ofFloat? x = some d) :
    Dyadic.ofFloat? (-x) = some { d with negative := !d.negative } := by
  rw [ofFloat?_eq] at hd ⊢
  rw [unpack_neg]
  generalize x.toModel.unpack = u at hd ⊢
  rcases u with (_ | _) | _ | (_ | _) | ⟨_ | _, m, e, hm⟩ <;> cases hd <;> rfl

theorem isNegative_neg (hx : x.isFinite) : isNegative (-x) = !isNegative x := by
  obtain ⟨d, hd, hsign⟩ := ofFloat?_of_isFinite hx
  obtain ⟨d', hd', hsign'⟩ := ofFloat?_of_isFinite (x := -x) (isFinite_neg.trans hx)
  obtain rfl := Option.some.inj ((ofFloat?_neg hd).symm.trans hd')
  rw [← hsign', ← hsign]

-- The double behind a minus sign is below infinity.
theorem neg_lt_infinityBits (hx : x.isFinite) (hsign : isNegative x) :
    (-x).toBits.toNat < Decimal.infinityBits := by
  refine lt_infinityBits (isFinite_neg.trans hx) ?_
  rw [isNegative_neg hx, hsign]
  rfl

theorem not_isNaN_of_isFinite (hx : x.isFinite) : x.isNaN = false := by
  change x.toModel.unpack.isFinite = true at hx
  change x.toModel.unpack.isNaN = false
  cases hunpack : x.toModel.unpack
  case notANumber | infinity =>
    rw [hunpack] at hx
    cases hx
  all_goals rfl

end Double

namespace Decimal

theorem valueText_of_isFinite {x : Float} (hx : x.isFinite) {d : Dyadic}
    (hd : Dyadic.ofFloat? x = some d) :
    valueText x = (if isNegative x then "-" else "") ++ String.ofList (valueStyle.magnitudeText d) := by
  rw [valueText, Style.text, Double.not_isNaN_of_isFinite hx, hd]
  rfl

-- The text of a double behind its minus sign.
theorem valueText_of_isNegative {x : Float} (hx : x.isFinite) (hsign : isNegative x) :
    valueText x = "-" ++ valueText (-x) := by
  obtain ⟨d, hd, -⟩ := Double.ofFloat?_of_isFinite hx
  rw [valueText_of_isFinite hx hd, valueText_of_isFinite (Double.isFinite_neg.trans hx)
    (Double.ofFloat?_neg hd), Double.isNegative_neg hx, hsign]
  simp only [if_pos, Bool.not_true, Bool.false_eq_true, if_false, String.empty_append]
  rfl

end Decimal
end NoteCell
