import Mathlib
import NoteCell.Number.Rounding
import NoteCell.Proofs.Decimal.Bits

/-!
Doubles by the forms that their bits stand for, and the values of the forms. Comparing two doubles
compares their values. Some doubles are whole numbers, and whole numbers are rounded to doubles.
-/
namespace NoteCell

open Float.Model Float.Model.UnpackedFloat

namespace Double

/-! ### Forms -/

section

variable (b : Bits)

theorem ofBitVec_unpackSign :
    Sign.ofBitVec (unpackSign b) = if 2 ^ 63 ≤ b.toNat then .negative else .positive := by
  have hsign := toNat_unpackSign b
  have hb : b.toNat < 2 ^ 64 := b.isLt
  rw [Sign.ofBitVec]
  by_cases h : 2 ^ 63 ≤ b.toNat
  · have hne : unpackSign b ≠ 0#1 := by
      intro hzero
      rw [hzero, BitVec.toNat_zero] at hsign
      omega
    rw [if_neg hne, if_pos h]
  · have heq : unpackSign b = 0#1 := by
      apply BitVec.eq_of_toNat_eq
      rw [hsign, BitVec.toNat_zero]
      omega
    rw [if_pos heq, if_neg h]

-- The form of some bits, by their fields.
theorem unpack_eq : UnpackedFloat.unpack .binary64 b =
    if b.toNat / 2 ^ 52 % 2 ^ 11 = 2047 then
      if b.toNat % 2 ^ 52 = 0 then .infinity (Sign.ofBitVec (unpackSign b)) else .notANumber
    else if b.toNat / 2 ^ 52 % 2 ^ 11 = 0 then
      if h : b.toNat % 2 ^ 52 = 0 then .zero (Sign.ofBitVec (unpackSign b))
      else .finite (Sign.ofBitVec (unpackSign b)) (b.toNat % 2 ^ 52) (-1074) (Nat.pos_of_ne_zero h)
    else .finite (Sign.ofBitVec (unpackSign b)) (b.toNat % 2 ^ 52 + 2 ^ 52)
      ((b.toNat / 2 ^ 52 % 2 ^ 11 : Nat) - 1075) (Nat.add_pos_right _ (by decide)) := by
  have hmax : unpackExponent b = -1#_ ↔ b.toNat / 2 ^ 52 % 2 ^ 11 = 2047 := by
    rw [← toNat_unpackExponent]
    exact BitVec.toNat_inj.symm
  have hleast : unpackExponent b = 0#_ ↔ b.toNat / 2 ^ 52 % 2 ^ 11 = 0 := by
    rw [← toNat_unpackExponent]
    exact BitVec.toNat_inj.symm
  have hzero : unpackMantissa b = 0#_ ↔ b.toNat % 2 ^ 52 = 0 := by
    rw [← toNat_unpackMantissa]
    exact BitVec.toNat_inj.symm
  have happend : (1#1 ++ unpackMantissa b).toNat = b.toNat % 2 ^ 52 + 2 ^ 52 := by
    rw [BitVec.toNat_append, ← Nat.shiftLeft_add_eq_or_of_lt (unpackMantissa b).isLt,
      toNat_unpackMantissa, Nat.add_comm]
    rfl
  rw [UnpackedFloat.unpack]
  simp only [hmax, hleast, hzero, happend, toNat_unpackExponent, toNat_unpackMantissa]
  split
  case isTrue => rfl
  case isFalse =>
    split
    case isTrue he =>
      simp only [he]
      rfl
    case isFalse => rfl

-- The leading bit of a mantissa stands unless the exponent is the least.
def Canonical : UnpackedFloat → Prop
  | .finite _ m e _ => m < 2 ^ 53 ∧ -1074 ≤ e ∧ e ≤ 971 ∧ (-1074 < e → 2 ^ 52 ≤ m)
  | _ => True

theorem canonical_unpack : Canonical (UnpackedFloat.unpack .binary64 b) := by
  rw [unpack_eq]
  split
  case isTrue => split <;> trivial
  case isFalse =>
    split
    case isTrue =>
      split
      case isTrue => trivial
      case isFalse => exact ⟨by omega, by omega, by omega, by omega⟩
    case isFalse => exact ⟨by omega, by omega, by omega, by omega⟩

end

theorem unpack_packComponents (s : UnpackedFloat.Sign) (e : BitVec 11) (m : BitVec 52) :
    UnpackedFloat.unpack .binary64 (packComponents .binary64 s e m) =
      if e.toNat = 2047 then if m.toNat = 0 then .infinity s else .notANumber
      else if e.toNat = 0 then
        if h : m.toNat = 0 then .zero s else .finite s m.toNat (-1074) (Nat.pos_of_ne_zero h)
      else .finite s (m.toNat + 2 ^ 52) (e.toNat - 1075) (Nat.add_pos_right _ (by decide)) := by
  have hbits := toNat_packComponents s (e := e) (m := m)
  have hs : s.toBitVec.toNat < 2 := s.toBitVec.isLt
  have he : e.toNat < 2 ^ 11 := e.isLt
  have hm : m.toNat < 2 ^ 52 := m.isLt
  have hexponent : (packComponents .binary64 s e m).toNat / 2 ^ 52 % 2 ^ 11 = e.toNat := by omega
  have hmantissa : (packComponents .binary64 s e m).toNat % 2 ^ 52 = m.toNat := by omega
  have hbit : unpackSign (packComponents .binary64 s e m) = s.toBitVec := by
    apply BitVec.eq_of_toNat_eq
    rw [toNat_unpackSign]
    omega
  have hsign : Sign.ofBitVec s.toBitVec = s := by cases s <;> rfl
  rw [unpack_eq]
  simp only [hexponent, hmantissa, hbit, hsign]

theorem unpack_pack {u : UnpackedFloat} (h : Canonical u) :
    UnpackedFloat.unpack .binary64 (UnpackedFloat.pack .binary64 u) = u := by
  cases u with
  | infinity s => exact unpack_packComponents s _ _
  | notANumber => exact unpack_packComponents .positive _ _
  | zero s => exact unpack_packComponents s _ _
  | finite s m e hpos =>
    obtain ⟨hlt, hlow, hhigh, hnormal⟩ := h
    have hbiased : (e + Format.binary64.exponentBias
        + Format.binary64.mantissaBitsWithoutImplicit).toNat = (e + 1075).toNat := by
      change (e + (1023 : Nat) + (52 : Nat)).toNat = _
      omega
    have hbits : Format.binary64.mantissaBits = 53 := by decide
    have hmax : 2 ^ Format.binary64.exponentBits = 2048 := rfl
    rw [UnpackedFloat.pack]
    simp only [hbiased, hbits, hmax]
    rw [if_neg (by omega)]
    by_cases hm : 2 ^ 52 ≤ m
    · have hlog : m.log2 = 52 := (Nat.log2_eq_iff hpos.ne').mpr ⟨hm, hlt⟩
      have he : (BitVec.ofNat 11 (e + 1075).toNat).toNat = (e + 1075).toNat := by
        rw [BitVec.toNat_ofNat]
        omega
      have hrest : (BitVec.ofNat 52 m).toNat + 2 ^ 52 = m := by
        rw [BitVec.toNat_ofNat]
        omega
      rw [if_pos (by omega), unpack_packComponents]
      simp only [he, hrest]
      rw [if_neg (by omega), if_neg (by omega)]
      congr 1
      omega
    · have hlog : m.log2 < 52 := (Nat.log2_lt hpos.ne').mpr (by omega)
      have hrest : (BitVec.ofNat 52 m).toNat = m := by
        rw [BitVec.toNat_ofNat]
        omega
      rw [if_neg (by omega), unpack_packComponents]
      simp only [hrest]
      rw [if_neg (by simp), if_pos (by simp), dif_neg hpos.ne']
      congr 1
      omega

theorem eq_of_unpack {x y : Float} (h : x.toModel.unpack = y.toModel.unpack) : x = y := by
  obtain ⟨⟨bits, hvalid⟩⟩ := x
  obtain ⟨⟨bits', hvalid'⟩⟩ := y
  have hpack : UnpackedFloat.pack .binary64 (UnpackedFloat.unpack .binary64 bits.toBitVec)
      = UnpackedFloat.pack .binary64 (UnpackedFloat.unpack .binary64 bits'.toBitVec) :=
    congrArg (UnpackedFloat.pack .binary64) h
  rw [pack_unpack hvalid, pack_unpack hvalid'] at hpack
  congr 2
  exact UInt64.toBitVec_inj.mp hpack

/-! ### Values -/

-- The real number that a signed mantissa and an exponent denote.
noncomputable def scaled (n e : Int) : ℝ := n * 2 ^ e

-- The value of a form, among the reals and the two infinities. What is not a number has none.
noncomputable def value? : UnpackedFloat → Option EReal
  | .notANumber => none
  | .infinity .negative => some ⊥
  | .infinity .positive => some ⊤
  | .zero _ => some 0
  | .finite s m e _ => some (scaled (s.apply m) e : ℝ)

theorem value?_eq_none_iff {u : UnpackedFloat} : value? u = none ↔ u = .notANumber := by
  rcases u with (_ | _) | _ | _ | _ <;> simp [value?]

theorem scaled_positive_pos {m : Nat} (hm : 0 < m) (e : Int) :
    0 < scaled (Sign.positive.apply m) e :=
  mul_pos (Int.cast_pos.mpr (Int.natCast_pos.mpr hm)) (by positivity)

theorem scaled_negative (m : Nat) (e : Int) :
    scaled (Sign.negative.apply m) e = -scaled (Sign.positive.apply m) e := by
  simp [scaled, Sign.apply]

theorem scaled_negative_neg {m : Nat} (hm : 0 < m) (e : Int) :
    scaled (Sign.negative.apply m) e < 0 := by
  rw [scaled_negative, neg_lt_zero]
  exact scaled_positive_pos hm e

-- A greater exponent outweighs every mantissa.
theorem scaled_lt {m n : Nat} {e f : Int} (hm : m < 2 ^ 53) (hn : 2 ^ 52 ≤ n) (h : e < f) :
    scaled m e < scaled n f := by
  have hm' : ((m : Int) : ℝ) < 2 ^ 53 := by exact_mod_cast hm
  have hn' : (2 : ℝ) ^ 52 ≤ ((n : Int) : ℝ) := by exact_mod_cast hn
  have hpow : (2 : ℝ) ^ (e + 1) ≤ 2 ^ f := zpow_le_zpow_right₀ (by norm_num) h
  calc scaled m e < 2 ^ 53 * 2 ^ e := mul_lt_mul_of_pos_right hm' (by positivity)
    _ = 2 ^ 52 * 2 ^ (e + 1) := by
      rw [zpow_add_one₀ (by norm_num)]
      ring
    _ ≤ 2 ^ 52 * 2 ^ f := mul_le_mul_of_nonneg_left hpow (by positivity)
    _ ≤ scaled n f := mul_le_mul_of_nonneg_right hn' (by positivity)

theorem compares_scaled {s t : UnpackedFloat.Sign} {m n : Nat} {e f : Int} {hm : 0 < m}
    {hn : 0 < n} (hu : Canonical (.finite s m e hm)) (hv : Canonical (.finite t n f hn)) :
    ((compare e f).then (compare m n)).Compares (scaled m e) (scaled n f) := by
  obtain ⟨hm53, he, -, hm52⟩ := hu
  obtain ⟨hn53, hf, -, hn52⟩ := hv
  rcases lt_trichotomy e f with h | rfl | h
  · rw [compare_lt_iff_lt.mpr h]
    exact scaled_lt hm53 (hn52 (by omega)) h
  · rw [compare_eq_iff_eq.mpr rfl]
    rcases lt_trichotomy m n with hmn | rfl | hmn
    · rw [compare_lt_iff_lt.mpr hmn]
      exact mul_lt_mul_of_pos_right (by exact_mod_cast hmn) (by positivity)
    · rw [compare_eq_iff_eq.mpr rfl]
      rfl
    · rw [compare_gt_iff_gt.mpr hmn]
      exact mul_lt_mul_of_pos_right (by exact_mod_cast hmn) (by positivity)
  · rw [compare_gt_iff_gt.mpr h]
    exact scaled_lt hn53 (hm52 (by omega)) h

theorem compares {u v : UnpackedFloat} (hu : Canonical u) (hv : Canonical v) {a b : EReal}
    (ha : value? u = some a) (hb : value? v = some b) :
    ∃ o, u.compare v = some o ∧ o.Compares a b := by
  rcases u with (_ | _) | _ | _ | ⟨_ | _, m, e, hm⟩ <;>
    rcases v with (_ | _) | _ | _ | ⟨_ | _, n, f, hn⟩ <;>
    simp only [value?, reduceCtorEq, Option.some.injEq] at ha hb <;> subst ha hb <;>
    refine ⟨_, rfl, ?_⟩
  case finite.positive.finite.positive =>
    have := compares_scaled hu hv
    cases h : (compare e f).then (compare m n) <;> rw [h] at this <;>
      simpa [Ordering.Compares, Sign.apply] using this
  case finite.negative.finite.negative =>
    have := compares_scaled hu hv
    rw [scaled_negative, scaled_negative]
    cases h : (compare e f).then (compare m n) <;> rw [h] at this <;>
      simpa [Ordering.Compares, Sign.apply] using this
  case finite.negative.finite.positive =>
    exact EReal.coe_lt_coe (lt_trans (scaled_negative_neg hm e) (scaled_positive_pos hn f))
  case finite.positive.finite.negative =>
    exact EReal.coe_lt_coe (lt_trans (scaled_negative_neg hn f) (scaled_positive_pos hm e))
  case infinity.negative.infinity.negative | infinity.positive.infinity.positive | zero.zero => rfl
  case infinity.negative.infinity.positive | infinity.positive.infinity.negative =>
    exact bot_lt_top
  all_goals simp [Ordering.Compares, scaled_positive_pos, scaled_negative_neg, *]

theorem compare_eq {u v : UnpackedFloat} (hu : Canonical u) (hv : Canonical v) {a b : EReal}
    (ha : value? u = some a) (hb : value? v = some b) : u.compare v = some (compare a b) := by
  obtain ⟨o, hcompare, ho⟩ := compares hu hv ha hb
  rw [hcompare]
  cases o with
  | lt => rw [compare_lt_iff_lt.mpr ho]
  | eq => rw [compare_eq_iff_eq.mpr ho]
  | gt => rw [compare_gt_iff_gt.mpr ho]

-- Forms of the same value are the same, but for the two zeros.
theorem eq_of_value? {u v : UnpackedFloat} (hu : Canonical u) (hv : Canonical v) {a : EReal}
    (ha : value? u = some a) (hb : value? v = some a) (hne : a ≠ 0) : u = v := by
  have heq := compare_eq hu hv ha hb
  rw [compare_eq_iff_eq.mpr rfl] at heq
  rcases u with (_ | _) | _ | _ | ⟨_ | _, m, e, hm⟩ <;>
    rcases v with (_ | _) | _ | _ | ⟨_ | _, n, f, hn⟩ <;>
    first
    | rfl
    | (exact absurd (Option.some.inj ha).symm hne)
    | cases heq
    | (simp only [UnpackedFloat.compare, Option.some.injEq, Ordering.swap_eq_eq,
        Ordering.then_eq_eq, compare_eq_iff_eq] at heq
       obtain ⟨rfl, rfl⟩ := heq
       rfl)

/-! ### Dyadic numbers -/

def dyadic? : UnpackedFloat → Option Dyadic
  | .zero s => some ⟨s == .negative, 0, -1074⟩
  | .finite s m e _ => some ⟨s == .negative, m, e⟩
  | _ => none

theorem ofFloat?_eq (x : Float) : Dyadic.ofFloat? x = dyadic? x.toModel.unpack := by
  have hsign : ∀ p : Prop, [Decidable p] →
      ((if p then Sign.negative else .positive : UnpackedFloat.Sign) == .negative) = decide p := by
    intro p _
    by_cases h : p <;> simp [h]
  have hbits : x.toBits.toBitVec.toNat = x.toBits.toNat := rfl
  change _ = dyadic? (UnpackedFloat.unpack .binary64 x.toBits.toBitVec)
  rw [unpack_eq, ofBitVec_unpackSign, Dyadic.ofFloat?]
  simp only [hbits]
  change (if x.toBits.toNat / 2 ^ 52 % 2 ^ 11 = 2047 then _
    else if x.toBits.toNat / 2 ^ 52 % 2 ^ 11 = 0 then
      some (Dyadic.mk (decide (2 ^ 63 ≤ x.toBits.toNat)) (x.toBits.toNat % 2 ^ 52) _)
    else some ⟨_, x.toBits.toNat % 2 ^ 52 + 2 ^ 52,
      (x.toBits.toNat / 2 ^ 52 % 2 ^ 11 : Nat) - 1075⟩) = _
  split
  case isTrue => split <;> rfl
  case isFalse =>
    split
    case isTrue =>
      split
      case isTrue hm => rw [hm, dyadic?, hsign]
      case isFalse => rw [dyadic?, hsign]
    case isFalse =>
      rw [dyadic?, hsign]
      rfl

end Double

/-! ### Doubles that are whole -/

theorem Whole.ofInt?_eq_some_iff {k : Int} {n : Int64} : ofInt? k = some n ↔ n.toInt = k := by
  rw [ofInt?, Option.ite_none_right_eq_some, Option.some_inj]
  constructor
  · rintro ⟨⟨hlow, hhigh⟩, rfl⟩
    exact Int64.toInt_ofInt_of_le hlow hhigh
  · rintro rfl
    exact ⟨⟨n.le_toInt, n.toInt_lt⟩, Int64.ofInt_toInt n⟩

namespace Dyadic

variable {d : Dyadic} {k : Int}

noncomputable def value (d : Dyadic) : ℝ := Double.scaled d.signed d.exponent

theorem natAbs_signed (d : Dyadic) : d.signed.natAbs = d.mantissa := by
  rw [signed]
  split <;> simp

theorem value_of_nonneg (h : 0 ≤ d.exponent) :
    d.value = (d.signed * 2 ^ d.exponent.toNat : Int) := by
  rw [value, Double.scaled]
  push_cast
  rw [← zpow_natCast, Int.toNat_of_nonneg h]

-- A negative exponent divides by a power of two.
theorem value_eq_iff (h : d.exponent < 0) :
    d.value = k ↔ d.signed = k * 2 ^ (-d.exponent).toNat := by
  have hpow : (2 : ℝ) ^ d.exponent = ((2 : ℝ) ^ (-d.exponent).toNat)⁻¹ := by
    rw [← zpow_natCast, Int.toNat_of_nonneg (by omega), zpow_neg, inv_inv]
  rw [value, Double.scaled, hpow, ← div_eq_mul_inv, div_eq_iff (by positivity)]
  exact_mod_cast Iff.rfl

theorem whole_eq_iff : d.isWhole ∧ d.whole Rounding.towardZero = k ↔ d.value = k := by
  rw [isWhole, whole, Nat.pow_eq, Nat.pow_eq]
  by_cases h : 0 ≤ d.exponent
  · rw [if_pos h, value_of_nonneg h, Int.cast_inj]
    simp [h]
  · have hpos : (2 : Int) ^ (-d.exponent).toNat ≠ 0 := by positivity
    have hdvd : d.mantissa % 2 ^ (-d.exponent).toNat = 0
        ↔ (2 : Int) ^ (-d.exponent).toNat ∣ d.signed := by
      rw [← Nat.dvd_iff_mod_eq_zero, ← natAbs_signed, ← Int.natCast_dvd]
      push_cast
      rfl
    rw [if_neg h, value_eq_iff (by omega)]
    simp only [h, decide_false, Bool.false_or, decide_eq_true_iff, hdvd, Rounding.towardZero]
    push_cast
    constructor
    · rintro ⟨hd, rfl⟩
      exact (Int.tdiv_mul_cancel hd).symm
    · intro heq
      rw [heq]
      exact ⟨dvd_mul_left _ _, Int.mul_tdiv_cancel _ hpos⟩

end Dyadic

namespace Double

-- The value of a form is that of its dyadic number.
theorem value?_of_dyadic? {u : UnpackedFloat} {d : Dyadic} (h : dyadic? u = some d) :
    value? u = some (d.value : EReal) := by
  rcases u with (_ | _) | _ | s | ⟨_ | _, m, e, hm⟩ <;>
    simp only [dyadic?, reduceCtorEq, Option.some.injEq] at h <;> subst h
  · simp [value?, Dyadic.value, Dyadic.signed, scaled]
  · rfl
  · rfl

theorem dyadic?_of_value? {u : UnpackedFloat} {r : ℝ} (h : value? u = some (r : EReal)) :
    ∃ d, dyadic? u = some d ∧ d.value = r := by
  cases hd : dyadic? u with
  | some d =>
    rw [value?_of_dyadic? hd, Option.some_inj, EReal.coe_eq_coe_iff] at h
    exact ⟨d, rfl, h⟩
  | none =>
    rcases u with (_ | _) | _ | _ | _
    case infinity.negative => exact absurd (Option.some.inj h) (EReal.bot_ne_coe r)
    case infinity.positive => exact absurd (Option.some.inj h) (EReal.top_ne_coe r)
    all_goals cases h
    all_goals cases hd

end Double

-- A double is a whole number exactly if its value is one of 64 bits.
theorem Whole.ofFloat?_eq_some_iff {x : Float} {n : Int64} :
    ofFloat? x = some n ↔ Double.value? x.toModel.unpack = some ((n.toInt : ℝ) : EReal) := by
  rw [ofFloat?, Double.ofFloat?_eq]
  constructor
  · intro h
    cases hd : Double.dyadic? x.toModel.unpack with
    | none => rw [hd] at h; cases h
    | some d =>
      rw [hd] at h
      simp only [Option.ite_none_right_eq_some, ofInt?_eq_some_iff] at h
      rw [Double.value?_of_dyadic? hd, Dyadic.whole_eq_iff.mp ⟨h.1, h.2.symm⟩]
  · intro h
    obtain ⟨d, hd, hvalue⟩ := Double.dyadic?_of_value? h
    obtain ⟨hwhole, heq⟩ := Dyadic.whole_eq_iff.mpr hvalue
    rw [hd]
    simp only [Option.ite_none_right_eq_some, ofInt?_eq_some_iff]
    exact ⟨hwhole, heq.symm⟩

/-! ### Whole numbers rounded to doubles -/

namespace Double

theorem mantissa_shiftRight (em : ExtendedMantissa) (k : Nat) :
    (em >>> k).mantissa = em.mantissa / 2 ^ k := by
  induction k
  case zero => simp [HShiftRight.hShiftRight, Nat.repeat]
  case succ k ih =>
    change (em >>> k).mantissa / 2 = _
    rw [ih, Nat.div_div_eq_div_mul, Nat.pow_succ]

theorem roundedMantissa_bounds (em : ExtendedMantissa) :
    em.mantissa ≤ em.roundedMantissa ∧ em.roundedMantissa ≤ em.mantissa + 1 := by
  rcases em with ⟨m, _ | _, _ | _⟩ <;>
    simp [ExtendedMantissa.roundedMantissa, ExtendedMantissa.accuracy,
      Accuracy.roundToNearestEven]
  omega

-- The exponent that a mantissa of 53 bits has, unless it is too small.
theorem targetExponent_eq (m : Nat) (e : Int) :
    Format.binary64.targetExponent (totalExponent m e) = max (m.log2 + e - 52) (-1074) := by
  change max ((m.log2 : Int) + 1 + e - (53 : Nat)) (3 - 2 ^ 10 - (53 : Nat)) = _
  omega

theorem shiftToTargetExponent_eq (m : Nat) (e : Int) :
    shiftToTargetExponent .binary64 m e .exact
      = (ExtendedMantissa.mk m false false
            >>> (Format.binary64.targetExponent (totalExponent m e) - e).toNat,
          e + (Format.binary64.targetExponent (totalExponent m e) - e).toNat) :=
  rfl

theorem shiftToTargetExponent_of_le {m : Nat} {e : Int}
    (h : Format.binary64.targetExponent (totalExponent m e) ≤ e) :
    shiftToTargetExponent .binary64 m e .exact = (⟨m, false, false⟩, e) := by
  have hshift : (Format.binary64.targetExponent (totalExponent m e) - e).toNat = 0 := by omega
  rw [shiftToTargetExponent_eq, hshift]
  simp [HShiftRight.hShiftRight, Nat.repeat]

section

variable (s : UnpackedFloat.Sign) {n : Nat}

theorem log2_mul_pow {m : Nat} (hm : 0 < m) (k : Nat) : (m * 2 ^ k).log2 = m.log2 + k := by
  have hlow : 2 ^ m.log2 * 2 ^ k ≤ m * 2 ^ k := Nat.mul_le_mul_right _ (Nat.log2_self_le hm.ne')
  have hhigh : m * 2 ^ k < 2 ^ (m.log2 + 1) * 2 ^ k :=
    Nat.mul_lt_mul_of_pos_right Nat.lt_log2_self (by positivity)
  rw [← Nat.pow_add] at hlow hhigh
  rw [Nat.add_right_comm] at hhigh
  exact (Nat.log2_eq_iff (by positivity)).mpr ⟨hlow, hhigh⟩

theorem log2_filled (hn : 0 < n) (hlog : n.log2 ≤ 52) : (n * 2 ^ (52 - n.log2)).log2 = 52 := by
  rw [log2_mul_pow hn]
  omega

theorem scaled_filled (hlog : n.log2 ≤ 52) :
    scaled (n * 2 ^ (52 - n.log2) : Nat) (n.log2 - 52) = n := by
  have hzero : ((52 - n.log2 : Nat) : Int) + (n.log2 - 52) = 0 := by omega
  rw [scaled]
  push_cast
  rw [← zpow_natCast, mul_assoc, ← zpow_add₀ (by norm_num), hzero, zpow_zero, mul_one]

-- A mantissa that fits is filled up with zeros.
theorem round_of_lt (hpos : 0 < n) (hlt : n < 2 ^ 53) : ∃ h,
    UnpackedFloat.round .binary64 s n 0
      = .finite s (n * 2 ^ (52 - n.log2)) (n.log2 - 52) h := by
  have hlog : n.log2 < 53 := (Nat.log2_lt hpos.ne').mpr hlt
  have htarget : Format.binary64.targetExponent (totalExponent n 0) = n.log2 - 52 := by
    rw [targetExponent_eq]
    omega
  have hdecrease : decreaseExponent n 0 (n.log2 - 52)
      = (n * 2 ^ (52 - n.log2), (n.log2 : Int) - 52) := by
    rw [decreaseExponent, show ((0 : Int) - (n.log2 - 52)).toNat = 52 - n.log2 by omega,
      Nat.shiftLeft_eq]
    congr 1
    omega
  have hexact : Format.binary64.targetExponent
      (totalExponent (n * 2 ^ (52 - n.log2)) (n.log2 - 52)) ≤ n.log2 - 52 := by
    rw [targetExponent_eq, log2_filled hpos (by omega)]
    omega
  have hrounded : ExtendedMantissa.roundedMantissa ⟨n * 2 ^ (52 - n.log2), false, false⟩
      = n * 2 ^ (52 - n.log2) := rfl
  have hfilled : 0 < n * 2 ^ (52 - n.log2) := by positivity
  refine ⟨hfilled, ?_⟩
  rw [UnpackedFloat.round, htarget]
  simp only [hdecrease]
  rw [roundWithAccuracy, shiftToTargetExponent_of_le hexact]
  simp only [hrounded, shiftToTargetExponent_of_le hexact]
  rw [dif_neg hfilled.ne']

-- Zeros at the end of a mantissa are taken away again.
theorem shiftRight_mul_pow (m k : Nat) :
    ExtendedMantissa.mk (m * 2 ^ k) false false >>> k = ⟨m, false, false⟩ := by
  induction k generalizing m
  case zero => rw [Nat.pow_zero, Nat.mul_one]; rfl
  case succ k ih =>
    change ((ExtendedMantissa.mk (m * 2 ^ (k + 1)) false false) >>> k).shiftRightOne = _
    rw [Nat.pow_succ, Nat.mul_comm (2 ^ k), ← Nat.mul_assoc, ih]
    simp [ExtendedMantissa.shiftRightOne]

theorem roundWithAccuracy_mul_pow {m k : Nat} {e : Int} (hm : m.log2 = 52) (he : -1074 ≤ e) : ∃ h,
    roundWithAccuracy .binary64 s (m * 2 ^ k) (e - k) .exact = .finite s m e h := by
  have hpos : 0 < m := Nat.pos_of_ne_zero (by rintro rfl; simp at hm)
  have hlog : (m * 2 ^ k).log2 = 52 + k := by rw [log2_mul_pow hpos, hm]
  have htarget : Format.binary64.targetExponent (totalExponent (m * 2 ^ k) (e - k)) = e := by
    rw [targetExponent_eq, hlog]
    omega
  have hexact : Format.binary64.targetExponent (totalExponent m e) ≤ e := by
    rw [targetExponent_eq, hm]
    omega
  have hrounded : ExtendedMantissa.roundedMantissa ⟨m, false, false⟩ = m := rfl
  refine ⟨hpos, ?_⟩
  rw [roundWithAccuracy, shiftToTargetExponent_eq, htarget, show (e - (e - k)).toNat = k by omega,
    shiftRight_mul_pow, show e - k + k = e by omega]
  simp only [hrounded, shiftToTargetExponent_of_le hexact]
  rw [dif_neg hpos.ne']

-- A mantissa that does not fit is rounded to one that has its leading bit.
theorem roundWithAccuracy_of_le {a : Nat} {f : Int} (ha : 52 ≤ a.log2) (hlow : 53 ≤ a.log2 + f)
    (hhigh : a.log2 + f < 64) : ∃ m e h, roundWithAccuracy .binary64 s a f .exact = .finite s m e h
      ∧ 2 ^ 52 ≤ m ∧ m < 2 ^ 53 ∧ 1 ≤ e ∧ e ≤ 64 := by
  obtain ⟨k, hk⟩ : ∃ k, a.log2 = 52 + k := ⟨a.log2 - 52, by omega⟩
  have hne : a ≠ 0 := by
    rintro rfl
    simp at hk
    omega
  have htarget : Format.binary64.targetExponent (totalExponent a f) = f + k := by
    rw [targetExponent_eq]
    omega
  have hleast : 2 ^ 52 ≤ a / 2 ^ k := by
    rw [Nat.le_div_iff_mul_le (by positivity), ← Nat.pow_add, ← hk]
    exact Nat.log2_self_le hne
  have hmost : a / 2 ^ k < 2 ^ 53 := by
    rw [Nat.div_lt_iff_lt_mul (by positivity), ← Nat.pow_add, show 53 + k = a.log2 + 1 by omega]
    exact Nat.lt_log2_self
  have hbounds := roundedMantissa_bounds (ExtendedMantissa.mk a false false >>> k)
  rw [mantissa_shiftRight] at hbounds
  rw [roundWithAccuracy, shiftToTargetExponent_eq, htarget, show (f + k - f).toNat = k by omega]
  simp only at hbounds ⊢
  generalize (ExtendedMantissa.mk a false false >>> k).roundedMantissa = r at hbounds
  by_cases hr : r < 2 ^ 53
  · have hlogr : r.log2 = 52 := (Nat.log2_eq_iff (by omega)).mpr ⟨by omega, hr⟩
    rw [shiftToTargetExponent_of_le (by rw [targetExponent_eq, hlogr]; omega)]
    exact ⟨r, f + k, by omega, dif_neg (by simp; omega), by omega, hr, by omega, by omega⟩
  -- Rounding carried over: the mantissa is halved once more.
  · obtain rfl : r = 2 ^ 53 := by omega
    have hhalf : (ExtendedMantissa.mk (2 ^ 53) false false >>> 1).mantissa = 2 ^ 52 := by
      rw [mantissa_shiftRight]
      decide
    rw [shiftToTargetExponent_eq, targetExponent_eq, Nat.log2_two_pow,
      show (max ((53 : Nat) + (f + (k : Int)) - 52) (-1074) - (f + k)).toNat = 1 by omega]
    simp only [hhalf]
    exact ⟨2 ^ 52, f + k + 1, by decide, dif_neg (by decide), by decide, by decide, by omega,
      by omega⟩

end

theorem unpack_toModel_pack {u : UnpackedFloat} (h : Canonical u) :
    (Float.ofModel (Float.Model.pack u)).toModel.unpack = u :=
  unpack_pack h

theorem ofNat_eq_of_lt {n : Nat} (hn : n < 2 ^ 53) :
    Float.ofNat n = n.toUInt64.toFloat * Float.ofBits 0x3FF0000000000000 := by
  change Float.ofScientific n false 0 = _
  rw [Float.ofScientific, dif_pos ⟨hn, by decide⟩]
  rfl

theorem ofNat_eq_of_le {n : Nat} (hn : 2 ^ 53 ≤ n) :
    Float.ofNat n
      = Float.ofModel (Float.Model.pack (UnpackedFloat.ofScientific .binary64 n 0)) := by
  change Float.ofScientific n false 0 = _
  rw [Float.ofScientific, dif_neg (by omega)]
  rfl

theorem canonical_filled {n : Nat} (hpos : 0 < n) (hlt : n < 2 ^ 53)
    {h : 0 < n * 2 ^ (52 - n.log2)} :
    Canonical (.finite .positive (n * 2 ^ (52 - n.log2)) (n.log2 - 52) h) := by
  have hlog : n.log2 < 53 := (Nat.log2_lt hpos.ne').mpr hlt
  obtain ⟨hlow, hhigh⟩ := (Nat.log2_eq_iff h.ne').mp (log2_filled hpos (by omega))
  exact ⟨hhigh, by omega, by omega, fun _ => hlow⟩

theorem unpack_toUInt64 {n : Nat} (hpos : 0 < n) (hlt : n < 2 ^ 53) : ∃ h,
    n.toUInt64.toFloat.toModel.unpack
      = .finite .positive (n * 2 ^ (52 - n.log2)) (n.log2 - 52) h := by
  obtain ⟨h, hround⟩ := round_of_lt .positive hpos hlt
  refine ⟨h, ?_⟩
  change UnpackedFloat.unpack .binary64 (UnpackedFloat.pack .binary64
    (UnpackedFloat.normalize .binary64 (n.toUInt64.toNat : Int) 0 .positive)) = _
  unfold UnpackedFloat.normalize
  rw [Nat.toUInt64, UInt64.toNat_ofNat_of_lt' (Nat.lt_trans hlt (by decide)),
    compare_gt_iff_gt.mpr (by omega)]
  simp only [Int.toNat_natCast, hround]
  exact unpack_pack (canonical_filled hpos hlt)

-- The exact double of a whole number is multiplied by one.
theorem unpack_ofNat_of_lt {n : Nat} (hpos : 0 < n) (hlt : n < 2 ^ 53) : ∃ h,
    (Float.ofNat n).toModel.unpack
      = .finite .positive (n * 2 ^ (52 - n.log2)) (n.log2 - 52) h := by
  have hlog : n.log2 < 53 := (Nat.log2_lt hpos.ne').mpr hlt
  obtain ⟨h, hword⟩ := unpack_toUInt64 hpos hlt
  obtain ⟨_, hproduct⟩ := roundWithAccuracy_mul_pow .positive (k := 52) (e := n.log2 - 52)
    (log2_filled hpos (by omega)) (by omega)
  have hone : (Float.ofBits 0x3FF0000000000000).toModel.unpack
      = .finite .positive (2 ^ 52) (-52) (by decide) :=
    rfl
  refine ⟨h, ?_⟩
  rw [ofNat_eq_of_lt hlt]
  change UnpackedFloat.unpack .binary64 (UnpackedFloat.pack .binary64
    (UnpackedFloat.mul .binary64 n.toUInt64.toFloat.toModel.unpack
      (Float.ofBits 0x3FF0000000000000).toModel.unpack)) = _
  rw [hword, hone]
  change UnpackedFloat.unpack .binary64 (UnpackedFloat.pack .binary64 (roundWithAccuracy .binary64
    .positive (n * 2 ^ (52 - n.log2) * 2 ^ 52) (n.log2 - 52 - (52 : Nat)) .exact)) = _
  rw [hproduct, unpack_pack (canonical_filled hpos hlt)]

theorem unpack_ofNat_of_le {n : Nat} (hle : 2 ^ 53 ≤ n) (hlt : n < 2 ^ 64) : ∃ m e h,
    (Float.ofNat n).toModel.unpack = .finite .positive m e h
      ∧ 2 ^ 52 ≤ m ∧ m < 2 ^ 53 ∧ 1 ≤ e ∧ e ≤ 64 := by
  have hlow : 53 ≤ n.log2 := (Nat.le_log2 (by omega)).mpr hle
  have hhigh : n.log2 < 64 := (Nat.log2_lt (by omega)).mpr hlt
  have hlog : (n * 2 ^ 53).log2 = n.log2 + 53 := log2_mul_pow (by omega) 53
  obtain ⟨m, e, h, hround, hbounds⟩ := roundWithAccuracy_of_le .positive (a := n * 2 ^ 53)
    (f := -53) (by omega) (by omega) (by omega)
  refine ⟨m, e, h, ?_, hbounds⟩
  have hbits : Format.binary64.mantissaBits = 53 := by decide
  have hmul : UnpackedFloat.ofScientific .binary64 n 0 = .finite .positive m e h := by
    rw [UnpackedFloat.ofScientific, dif_neg (by omega), if_neg (by decide), if_neg (by simp),
      if_pos le_rfl]
    simp only [UnpackedFloat.mul, hbits, Int.toNat_zero, Nat.pow_zero, Nat.mul_one, Int.add_zero,
      Nat.shiftLeft_eq]
    exact hround
  rw [ofNat_eq_of_le hle, hmul, unpack_toModel_pack]
  exact ⟨hbounds.2.1, by omega, by omega, fun _ => hbounds.1⟩

-- A whole number below `2 ^ 53` is its own double, and no other is rounded below that.
theorem rounds_ofNat {n : Nat} (hlt : n < 2 ^ 64) : ∃ r : ℝ,
    Canonical (Float.ofNat n).toModel.unpack ∧
    value? (Float.ofNat n).toModel.unpack = some (r : EReal)
      ∧ (n < 2 ^ 53 → r = n) ∧ (2 ^ 53 ≤ n → 2 ^ 53 ≤ r) := by
  rcases Nat.eq_zero_or_pos n with rfl | hpos
  · exact ⟨0, trivial, rfl, fun _ => Nat.cast_zero.symm, by omega⟩
  rcases Nat.lt_or_ge n (2 ^ 53) with hn | hn
  · obtain ⟨h, hunpack⟩ := unpack_ofNat_of_lt hpos hn
    have hlog : n.log2 < 53 := (Nat.log2_lt hpos.ne').mpr hn
    refine ⟨n, ?_, ?_, fun _ => rfl, by omega⟩
    · rw [hunpack]
      exact canonical_filled hpos hn
    · rw [hunpack, ← scaled_filled (n := n) (by omega)]
      rfl
  · obtain ⟨m, e, h, hunpack, hlow, hhigh, he, he'⟩ := unpack_ofNat_of_le hn hlt
    have hc : Canonical (.finite .positive m e h) := ⟨hhigh, by omega, by omega, fun _ => hlow⟩
    rw [hunpack]
    refine ⟨scaled m e, hc, rfl, by omega, fun _ => ?_⟩
    have hm : (2 : ℝ) ^ 52 ≤ (m : Int) := by exact_mod_cast hlow
    have htwo : (2 : ℝ) ^ (1 : Int) ≤ 2 ^ e := zpow_le_zpow_right₀ (by norm_num) he
    calc (2 : ℝ) ^ 53 = 2 ^ 52 * 2 ^ (1 : Int) := by norm_num
      _ ≤ scaled m e := mul_le_mul hm htwo (by positivity) (le_trans (by positivity) hm)

theorem canonical_neg {u : UnpackedFloat} (h : Canonical u) : Canonical u.neg := by
  cases u <;> exact h

theorem value?_neg {u : UnpackedFloat} {r : ℝ} (h : value? u = some (r : EReal)) :
    value? u.neg = some ((-r : ℝ) : EReal) := by
  rcases u with (_ | _) | _ | _ | ⟨_ | _, m, e, hm⟩
  case infinity.negative => exact absurd (Option.some.inj h) (EReal.bot_ne_coe r)
  case infinity.positive => exact absurd (Option.some.inj h) (EReal.top_ne_coe r)
  case notANumber => cases h
  case zero =>
    obtain rfl : (0 : ℝ) = r := EReal.coe_eq_coe_iff.mp (Option.some.inj h)
    simp [UnpackedFloat.neg, value?]
  case finite.negative =>
    obtain rfl := EReal.coe_eq_coe_iff.mp (Option.some.inj h)
    rw [scaled_negative, neg_neg]
    rfl
  case finite.positive =>
    obtain rfl := EReal.coe_eq_coe_iff.mp (Option.some.inj h)
    rw [← scaled_negative]
    rfl

-- What a whole number of 64 bits is rounded to.
theorem rounds_ofInt (n : Int64) : ∃ r : ℝ,
    Canonical (Float.ofInt n.toInt).toModel.unpack ∧
    value? (Float.ofInt n.toInt).toModel.unpack = some (r : EReal)
      ∧ (n.toInt.natAbs < 2 ^ 53 → r = n.toInt) ∧ (2 ^ 53 ≤ n.toInt → 2 ^ 53 ≤ r)
      ∧ (n.toInt ≤ -2 ^ 53 → r ≤ -2 ^ 53) := by
  have hlow := n.le_toInt
  have hhigh := n.toInt_lt
  cases hn : n.toInt with
  | ofNat k =>
    rw [hn] at hlow hhigh
    obtain ⟨r, hc, hr, hexact, habove⟩ := rounds_ofNat (n := k) (by simp at hhigh; omega)
    refine ⟨r, hc, hr, fun h => ?_, fun h => habove (by simp at h; omega), fun h => ?_⟩
    · rw [hexact (by simpa using h)]
      simp
    · simp at h
      omega
  | negSucc k =>
    obtain ⟨r, hc, hr, hexact, habove⟩ := rounds_ofNat (n := k + 1) (by omega)
    have hneg : (Float.ofInt (Int.negSucc k)).toModel.unpack
        = (Float.ofNat (k + 1)).toModel.unpack.neg := unpack_toModel_pack (canonical_neg hc)
    rw [hneg]
    refine ⟨-r, canonical_neg hc, value?_neg hr, fun h => ?_, fun h => ?_, fun h => ?_⟩
    · rw [hexact (by simpa using h), Int.negSucc_eq]
      push_cast
      rfl
    · omega
    · have := habove (by omega)
      linarith

end Double
end NoteCell
