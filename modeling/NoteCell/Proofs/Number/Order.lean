import NoteCell.Number.Arithmetic
import NoteCell.Proofs.Number.Doubles

/-!
The order of numbers is that of their exact values, whole numbers and doubles alike. What is not a
number compares with nothing.
-/
namespace NoteCell.Number

open Float.Model

-- The exact value of a number, among the reals and the two infinities.
noncomputable def value? : Number → Option EReal
  | int n => some ((n.toInt : ℝ) : EReal)
  | float x => Double.value? x.toModel.unpack

-- What is not a number.
def isNaN : Number → Bool
  | int _ => false
  | float x => x.isNaN

theorem value?_eq_none_iff {x : Number} : x.value? = none ↔ x.isNaN := by
  cases x with
  | int n => simp [value?, isNaN]
  | float x =>
    rw [value?, Double.value?_eq_none_iff]
    change _ ↔ x.toModel.unpack.isNaN = true
    cases x.toModel.unpack <;> simp [UnpackedFloat.isNaN]

theorem compareInts_eq (m n : Int64) :
    compareInts m n = compare ((m.toInt : ℝ) : EReal) ((n.toInt : ℝ) : EReal) := by
  rw [compareInts]
  rcases lt_trichotomy m.toInt n.toInt with h | h | h
  · rw [compare_lt_iff_lt.mpr h, compare_lt_iff_lt.mpr (by exact_mod_cast h)]
  · rw [h, compare_eq_iff_eq.mpr rfl, compare_eq_iff_eq.mpr rfl]
  · rw [compare_gt_iff_gt.mpr h, compare_gt_iff_gt.mpr (by exact_mod_cast h)]

section

variable {x y : Float} {a b : EReal}

theorem unpackCompare_eq (hx : Double.value? x.toModel.unpack = some a)
    (hy : Double.value? y.toModel.unpack = some b) :
    x.toModel.unpack.compare y.toModel.unpack = some (compare a b) :=
  Double.compare_eq (Double.canonical_unpack _) (Double.canonical_unpack _) hx hy

theorem lt_iff (hx : Double.value? x.toModel.unpack = some a)
    (hy : Double.value? y.toModel.unpack = some b) : x < y ↔ a < b := by
  change decide ((x.toModel.unpack.compare y.toModel.unpack == some .lt) = true) = true ↔ _
  rw [unpackCompare_eq hx hy, decide_eq_true_iff, beq_iff_eq, Option.some_inj, compare_lt_iff_lt]

theorem le_iff (hx : Double.value? x.toModel.unpack = some a)
    (hy : Double.value? y.toModel.unpack = some b) : x ≤ y ↔ a ≤ b := by
  change decide ((x.toModel.unpack.compare y.toModel.unpack).any (·.isLE) = true) = true ↔ _
  rw [unpackCompare_eq hx hy, decide_eq_true_iff, Option.any_some, ← Ordering.ne_gt_iff_isLE]
  exact compare_le_iff_le

theorem beq_iff (hx : Double.value? x.toModel.unpack = some a)
    (hy : Double.value? y.toModel.unpack = some b) : (x == y) = true ↔ a = b := by
  change (x.toModel.unpack.compare y.toModel.unpack == some .eq) = true ↔ _
  rw [unpackCompare_eq hx hy, beq_iff_eq, Option.some_inj, compare_eq_iff_eq]

theorem compareFloats_eq (hx : Double.value? x.toModel.unpack = some a)
    (hy : Double.value? y.toModel.unpack = some b) : compareFloats x y = some (compare a b) := by
  rw [compareFloats]
  simp only [lt_iff hx hy, beq_iff hx hy, lt_iff hy hx]
  rcases lt_trichotomy a b with h | h | h
  · rw [if_pos h, compare_lt_iff_lt.mpr h]
  · rw [if_neg h.not_lt, if_pos h, compare_eq_iff_eq.mpr h]
  · rw [if_neg h.not_gt, if_neg h.ne', if_pos h, compare_gt_iff_gt.mpr h]

end

theorem eq_notANumber {x : Float} (h : x.isNaN) : x.toModel.unpack = .notANumber := by
  change x.toModel.unpack.isNaN = true at h
  cases hx : x.toModel.unpack <;> rw [hx] at h <;> first | rfl | cases h

-- Nothing is less than, equal to or above what is not a number.
theorem compareFloats_eq_none {x y : Float} (h : x.isNaN ∨ y.isNaN) : compareFloats x y = none := by
  have hcompare : x.toModel.unpack.compare y.toModel.unpack = none
      ∧ y.toModel.unpack.compare x.toModel.unpack = none := by
    rcases h with h | h
    · rw [eq_notANumber h]
      exact ⟨rfl, by cases y.toModel.unpack <;> rfl⟩
    · rw [eq_notANumber h]
      exact ⟨by cases x.toModel.unpack <;> rfl, rfl⟩
  have hlt : ¬ x < y := by
    change ¬ decide ((x.toModel.unpack.compare y.toModel.unpack == some .lt) = true) = true
    rw [hcompare.1]
    decide
  have heq : ¬ (x == y) = true := by
    change ¬ (x.toModel.unpack.compare y.toModel.unpack == some .eq) = true
    rw [hcompare.1]
    decide
  have hgt : ¬ y < x := by
    change ¬ decide ((y.toModel.unpack.compare x.toModel.unpack == some .lt) = true) = true
    rw [hcompare.2]
    decide
  rw [compareFloats, if_neg hlt, if_neg heq, if_neg hgt]

/-! ### A whole number and a double -/

theorem value?_twoToThe63 :
    Double.value? twoToThe63.toModel.unpack = some ((2 ^ 63 : ℝ) : EReal) := by
  have h : twoToThe63.toModel.unpack = .finite .positive (2 ^ 52) 11 (by decide) := rfl
  rw [h, Double.value?, Option.some_inj, EReal.coe_eq_coe_iff]
  norm_num [Double.scaled, UnpackedFloat.Sign.apply]

theorem value?_zero : Double.value? (0.0 : Float).toModel.unpack = some 0 := rfl

-- Taking the sign away leaves the distance from zero.
theorem exists_value?_abs {x : Float} {b : EReal} (h : Double.value? x.toModel.unpack = some b) :
    ∃ c, Double.value? x.abs.toModel.unpack = some c ∧ 0 ≤ c ∧ (b = c ∨ b = -c) := by
  have hc : Double.Canonical x.toModel.unpack.abs := by
    have := Double.canonical_unpack x.toModel.toBits.toBitVec
    change Double.Canonical x.toModel.unpack at this
    cases hx : x.toModel.unpack <;> rw [hx] at this <;> exact this
  have habs : x.abs.toModel.unpack = x.toModel.unpack.abs := Double.unpack_toModel_pack hc
  rw [habs]
  rcases hx : x.toModel.unpack with (_ | _) | _ | _ | ⟨_ | _, m, e, hm⟩ <;>
    rw [hx] at h <;> simp only [Double.value?, reduceCtorEq, Option.some.injEq] at h <;> subst h
  case infinity.negative => exact ⟨⊤, rfl, le_top, .inr rfl⟩
  case infinity.positive => exact ⟨⊤, rfl, le_top, .inl rfl⟩
  case zero => exact ⟨0, rfl, le_rfl, .inl rfl⟩
  case finite.negative =>
    refine ⟨_, rfl, EReal.coe_nonneg.mpr (Double.scaled_positive_pos hm e).le, .inr ?_⟩
    rw [Double.scaled_negative, EReal.coe_neg]
  case finite.positive =>
    exact ⟨_, rfl, EReal.coe_nonneg.mpr (Double.scaled_positive_pos hm e).le, .inl rfl⟩

theorem twoToThe63_le_abs_iff {x : Float} {b : EReal}
    (hx : Double.value? x.toModel.unpack = some b) :
    twoToThe63 ≤ x.abs ↔ ((2 ^ 63 : ℝ) : EReal) ≤ b ∨ b ≤ ((-2 ^ 63 : ℝ) : EReal) := by
  have hpos : (0 : EReal) < ((2 ^ 63 : ℝ) : EReal) := EReal.coe_pos.mpr (by norm_num)
  have hneg : ((-2 ^ 63 : ℝ) : EReal) = -((2 ^ 63 : ℝ) : EReal) := EReal.coe_neg _
  obtain ⟨c, habs, hc, rfl | rfl⟩ := exists_value?_abs hx
  · have hb : ¬ b ≤ ((-2 ^ 63 : ℝ) : EReal) := fun h =>
      absurd (hc.trans h) (not_le_of_gt (EReal.coe_neg'.mpr (by norm_num)))
    rw [le_iff value?_twoToThe63 habs, or_iff_left hb]
  · have hb : ¬ ((2 ^ 63 : ℝ) : EReal) ≤ -c := fun h =>
      absurd (h.trans (EReal.neg_le_zero.mpr hc)) (not_le_of_gt hpos)
    rw [le_iff value?_twoToThe63 habs, or_iff_right hb, hneg, EReal.neg_le_neg_iff]

-- A double with a fraction is below `2 ^ 53`.
theorem fraction_bounds {x : Float} (hwhole : Whole.ofFloat? x = none) {r : ℝ}
    (hx : Double.value? x.toModel.unpack = some (r : EReal)) (hlow : -2 ^ 63 < r)
    (hhigh : r < 2 ^ 63) : -2 ^ 53 < r ∧ r < 2 ^ 53 := by
  have hcanonical : Double.Canonical x.toModel.unpack := Double.canonical_unpack _
  have hint : ∀ k : Int, (k : ℝ) ≠ r := by
    rintro k rfl
    have hk : -2 ^ 63 ≤ k ∧ k < 2 ^ 63 := ⟨by exact_mod_cast hlow.le, by exact_mod_cast hhigh⟩
    have := Whole.ofFloat?_eq_some_iff.mpr
      (hx.trans (by rw [Int64.toInt_ofInt_of_le hk.1 hk.2]) : _ = some
        (((Int64.ofInt k).toInt : ℝ) : EReal))
    rw [hwhole] at this
    cases this
  obtain ⟨d, hd, rfl⟩ := Double.dyadic?_of_value? hx
  have hexponent : d.exponent < 0 := by
    by_contra h
    exact hint _ (Dyadic.value_of_nonneg (by omega)).symm
  have hmantissa : d.mantissa < 2 ^ 53 := by
    rcases hu : x.toModel.unpack with _ | _ | _ | ⟨s, m, e, hm⟩ <;>
      rw [hu] at hd hcanonical <;>
      simp only [Double.dyadic?, reduceCtorEq, Option.some.injEq] at hd <;> subst hd
    · exact Nat.two_pow_pos 53
    · exact hcanonical.1
  have hpow : (2 : ℝ) ^ d.exponent ≤ 1 := zpow_le_one_of_nonpos₀ (by norm_num) hexponent.le
  have hpos : (0 : ℝ) < 2 ^ d.exponent := by positivity
  have habs : |d.value| < 2 ^ 53 := by
    have hsigned : |(d.signed : ℝ)| < 2 ^ 53 := by
      rw [← Int.cast_abs, Int.abs_eq_natAbs, Dyadic.natAbs_signed]
      exact_mod_cast hmantissa
    calc |d.value| = |(d.signed : ℝ)| * 2 ^ d.exponent := by
          rw [Dyadic.value, Double.scaled, abs_mul, abs_of_pos hpos]
      _ ≤ |(d.signed : ℝ)| := mul_le_of_le_one_right (abs_nonneg _) hpow
      _ < 2 ^ 53 := hsigned
  exact abs_lt.mp habs

theorem isNaN_eq_false {x : Float} {b : EReal} (hx : Double.value? x.toModel.unpack = some b) :
    x.isNaN = false := by
  rw [← Bool.not_eq_true]
  intro h
  rw [eq_notANumber h] at hx
  cases hx

-- A double too large to be a whole number lies beyond all of them, on the side of its sign.
theorem compare_large (n : Int64) {b : EReal} (hne : b ≠ ((-2 ^ 63 : ℝ) : EReal))
    (h : ((2 ^ 63 : ℝ) : EReal) ≤ b ∨ b ≤ ((-2 ^ 63 : ℝ) : EReal)) :
    compare ((n.toInt : ℝ) : EReal) b = if 0 < b then .lt else .gt := by
  have hlow : (-2 ^ 63 : ℝ) ≤ n.toInt := by exact_mod_cast n.le_toInt
  have hhigh : (n.toInt : ℝ) < 2 ^ 63 := by exact_mod_cast n.toInt_lt
  rcases h with h | h
  · have hpos : 0 < b := (EReal.coe_pos.mpr (by norm_num)).trans_le h
    rw [if_pos hpos, compare_lt_iff_lt]
    exact (EReal.coe_lt_coe_iff.mpr hhigh).trans_le h
  · have hlt : b < ((-2 ^ 63 : ℝ) : EReal) := lt_of_le_of_ne h hne
    have hneg : ¬ 0 < b := not_lt_of_ge (h.trans (EReal.coe_nonpos.mpr (by norm_num)))
    rw [if_neg hneg, compare_gt_iff_gt]
    exact hlt.trans_le (EReal.coe_le_coe_iff.mpr hlow)

-- Rounding a whole number does not carry it across a double with a fraction.
theorem compare_rounded {n : Int64} {r s : ℝ} (hlow : -2 ^ 53 < s) (hhigh : s < 2 ^ 53)
    (hexact : n.toInt.natAbs < 2 ^ 53 → r = n.toInt) (habove : 2 ^ 53 ≤ n.toInt → 2 ^ 53 ≤ r)
    (hbelow : n.toInt ≤ -2 ^ 53 → r ≤ -2 ^ 53) :
    compare (r : EReal) (s : EReal) = compare ((n.toInt : ℝ) : EReal) (s : EReal) := by
  have hcases : n.toInt.natAbs < 2 ^ 53 ∨ 2 ^ 53 ≤ n.toInt ∨ n.toInt ≤ -2 ^ 53 := by omega
  rcases hcases with h | h | h
  · rw [hexact h]
  · have hn : (2 : ℝ) ^ 53 ≤ n.toInt := by exact_mod_cast h
    rw [compare_gt_iff_gt.mpr (EReal.coe_lt_coe_iff.mpr (hhigh.trans_le (habove h))),
      compare_gt_iff_gt.mpr (EReal.coe_lt_coe_iff.mpr (hhigh.trans_le hn))]
  · have hn : (n.toInt : ℝ) ≤ -2 ^ 53 := by exact_mod_cast h
    rw [compare_lt_iff_lt.mpr (EReal.coe_lt_coe_iff.mpr ((hbelow h).trans_lt hlow)),
      compare_lt_iff_lt.mpr (EReal.coe_lt_coe_iff.mpr (hn.trans_lt hlow))]

theorem compareIntFloat_eq {n : Int64} {x : Float} {b : EReal}
    (hx : Double.value? x.toModel.unpack = some b) :
    compareIntFloat n x = some (compare ((n.toInt : ℝ) : EReal) b) := by
  rw [compareIntFloat, isNaN_eq_false hx, if_neg (by decide)]
  cases hwhole : Whole.ofFloat? x with
  | some m =>
    rw [Whole.ofFloat?_eq_some_iff, hx, Option.some_inj] at hwhole
    dsimp only
    rw [compareInts_eq, hwhole]
  | none =>
    have hne : b ≠ ((-2 ^ 63 : ℝ) : EReal) := by
      rintro rfl
      have hleast : (Int64.minValue.toInt : ℝ) = -2 ^ 63 := by
        rw [Int64.toInt_minValue]
        norm_num
      have := Whole.ofFloat?_eq_some_iff.mpr (hleast ▸ hx)
      rw [hwhole] at this
      cases this
    dsimp only
    by_cases h : twoToThe63 ≤ x.abs
    · rw [if_pos h, compare_large n hne ((twoToThe63_le_abs_iff hx).mp h)]
      simp only [lt_iff value?_zero hx]
    · have hbounds := mt (twoToThe63_le_abs_iff hx).mpr h
      rw [not_or, not_le, not_le] at hbounds
      obtain ⟨hhigh, hlow⟩ := hbounds
      lift b to ℝ using ⟨hhigh.ne_top, hlow.ne_bot⟩
      rw [EReal.coe_lt_coe_iff] at hhigh hlow
      obtain ⟨hlow, hhigh⟩ := fraction_bounds hwhole hx hlow hhigh
      obtain ⟨r, -, hr, hexact, habove, hbelow⟩ := Double.rounds_ofInt n
      rw [if_neg h, compareFloats_eq hr hx, compare_rounded hlow hhigh hexact habove hbelow]

-- Numbers compare as their exact values.
theorem compare?_eq_some {x y : Number} {a b : EReal} (hx : x.value? = some a)
    (hy : y.value? = some b) : x.compare? y = some (compare a b) := by
  cases x with
  | int m =>
    obtain rfl := Option.some.inj hx
    cases y with
    | int n =>
      obtain rfl := Option.some.inj hy
      exact congrArg some (compareInts_eq m n)
    | float y => exact compareIntFloat_eq hy
  | float x =>
    cases y with
    | int n =>
      obtain rfl := Option.some.inj hy
      rw [compare?, compareIntFloat_eq hx, Option.map_some, ← Std.OrientedCmp.eq_swap]
    | float y => exact compareFloats_eq hx hy

theorem compare?_eq_none {x y : Number} (h : x.isNaN ∨ y.isNaN) : x.compare? y = none := by
  cases x with
  | int m =>
    cases y with
    | int n => simp [isNaN] at h
    | float y => rw [compare?, compareIntFloat, if_pos (by simpa [isNaN] using h)]
  | float x =>
    cases y with
    | int n => rw [compare?, compareIntFloat, if_pos (by simpa [isNaN] using h), Option.map_none]
    | float y => exact compareFloats_eq_none h

theorem compare?_cases (x y : Number) :
    (∃ a b, x.value? = some a ∧ y.value? = some b ∧ x.compare? y = some (compare a b))
      ∨ ((x.isNaN ∨ y.isNaN) ∧ x.compare? y = none) := by
  cases hx : x.value? with
  | none =>
    have hnan : x.isNaN ∨ y.isNaN := .inl (value?_eq_none_iff.mp hx)
    exact .inr ⟨hnan, compare?_eq_none hnan⟩
  | some a =>
    cases hy : y.value? with
    | none =>
      have hnan : x.isNaN ∨ y.isNaN := .inr (value?_eq_none_iff.mp hy)
      exact .inr ⟨hnan, compare?_eq_none hnan⟩
    | some b => exact .inl ⟨a, b, rfl, rfl, compare?_eq_some hx hy⟩

-- What is not a number counts as equal to every number.
theorem getD_compare?_swap (x y : Number) :
    (y.compare? x).getD .eq = ((x.compare? y).getD .eq).swap := by
  obtain ⟨a, b, hx, hy, hcompare⟩ | ⟨hnan, hcompare⟩ := compare?_cases x y
  · have hswap : compare b a = (compare a b).swap := Std.OrientedCmp.eq_swap
    rw [hcompare, compare?_eq_some hy hx]
    exact hswap
  · rw [hcompare, compare?_eq_none hnan.symm]
    rfl

theorem getD_compare?_self (x : Number) : (x.compare? x).getD .eq = .eq := by
  obtain ⟨a, b, hx, hx', hcompare⟩ | ⟨-, hcompare⟩ := compare?_cases x x
  · obtain rfl := Option.some.inj (hx.symm.trans hx')
    rw [hcompare, compare_eq_iff_eq.mpr rfl]
    rfl
  · rw [hcompare]
    rfl

/-! ### Exact values -/

-- The value that the bits of a double denote: a whole number times a power of two, or an infinity.
-- What is not a number denotes nothing.
noncomputable def ofBits? (bits : Nat) : Option EReal :=
  let sign : Int := if 2 ^ 63 ≤ bits then -1 else 1
  let exponent : Nat := bits / 2 ^ 52 % 2 ^ 11
  let fraction : Nat := bits % 2 ^ 52
  if exponent = 2047 then
    if fraction = 0 then some (if 2 ^ 63 ≤ bits then ⊥ else ⊤) else none
  else if exponent = 0 then some (Double.scaled (sign * fraction) (-1074))
  else some (Double.scaled (sign * (fraction + 2 ^ 52 : Nat)) (exponent - 1075))

noncomputable def denoted? : Number → Option EReal
  | int n => some (n.toInt : ℝ)
  | float x => ofBits? x.toBits.toNat

theorem value?_finite {p : Prop} [Decidable p] (m : Nat) (e : Int) (hm : 0 < m) :
    Double.value? (.finite (if p then .negative else .positive) m e hm)
      = some (Double.scaled ((if p then -1 else 1) * m) e : EReal) := by
  split <;> simp [Double.value?, UnpackedFloat.Sign.apply]

theorem denoted?_eq (x : Number) : x.denoted? = x.value? := by
  cases x with
  | int n => rfl
  | float x =>
    change ofBits? x.toBits.toNat = Double.value? (UnpackedFloat.unpack .binary64 x.toBits.toBitVec)
    have hbits : x.toBits.toBitVec.toNat = x.toBits.toNat := rfl
    rw [Double.unpack_eq, Double.ofBitVec_unpackSign, ofBits?]
    simp only [hbits]
    split
    case isTrue =>
      split
      case isTrue => split <;> rfl
      case isFalse => rfl
    case isFalse =>
      split
      case isFalse => exact (value?_finite _ _ _).symm
      case isTrue =>
        by_cases hzero : x.toBits.toNat % 2 ^ 52 = 0
        · rw [dif_pos hzero, hzero]
          simp [Double.value?, Double.scaled]
        · rw [dif_neg hzero]
          exact (value?_finite _ _ _).symm

-- Numbers of all kinds stand in one order, that of their exact values.
structure OrdersExactly (order? : Number → Number → Option Ordering) : Prop where
  values (x y : Number) : order? x y = x.denoted?.bind fun a => y.denoted?.map fun b => compare a b
  denoted_iff (x : Number) : x.denoted? = none ↔ x.isNaN
  undefined (x y : Number) : order? x y = none ↔ x.isNaN ∨ y.isNaN
  antisymm (x y : Number) : order? y x = (order? x y).map Ordering.swap
  trans_lt (x y z : Number) : order? x y = some .lt → order? y z = some .lt → order? x z = some .lt
  trans_le (x y z : Number) : (order? x y).any Ordering.isLE → (order? y z).any Ordering.isLE →
    (order? x z).any Ordering.isLE

theorem compare?_eq_some_iff {x y : Number} {o : Ordering} : x.compare? y = some o
    ↔ ∃ a b, x.value? = some a ∧ y.value? = some b ∧ compare a b = o := by
  obtain ⟨a, b, hx, hy, hcompare⟩ | ⟨hnan, hcompare⟩ := compare?_cases x y
  · rw [hcompare, hx, hy]
    simp
  · rw [hcompare]
    simp only [← value?_eq_none_iff] at hnan
    obtain hnan | hnan := hnan <;> simp [hnan]

theorem isLE_iff {x y : Number} : (x.compare? y).any Ordering.isLE
    ↔ ∃ a b, x.value? = some a ∧ y.value? = some b ∧ a ≤ b := by
  rw [Option.any_eq_true]
  simp only [compare?_eq_some_iff, ← compare_le_iff_le, Ordering.ne_gt_iff_isLE]
  constructor
  · rintro ⟨o, ⟨a, b, hx, hy, rfl⟩, hle⟩
    exact ⟨a, b, hx, hy, hle⟩
  · rintro ⟨a, b, hx, hy, hle⟩
    exact ⟨_, ⟨a, b, hx, hy, rfl⟩, hle⟩

theorem compare?_ordersExactly : OrdersExactly compare? where
  values x y := by
    rw [denoted?_eq, denoted?_eq]
    obtain ⟨a, b, hx, hy, hcompare⟩ | ⟨hnan, hcompare⟩ := compare?_cases x y
    · rw [hcompare, hx, hy]
      rfl
    · rw [hcompare]
      simp only [← value?_eq_none_iff] at hnan
      obtain hnan | hnan := hnan <;> simp [hnan]
  denoted_iff x := by rw [denoted?_eq, value?_eq_none_iff]
  undefined x y := by
    refine ⟨fun hnone => ?_, compare?_eq_none⟩
    obtain ⟨a, b, -, -, hcompare⟩ | ⟨hnan, -⟩ := compare?_cases x y
    · rw [hnone] at hcompare
      cases hcompare
    · exact hnan
  antisymm x y := by
    obtain ⟨a, b, hx, hy, hcompare⟩ | ⟨hnan, hcompare⟩ := compare?_cases x y
    · rw [hcompare, compare?_eq_some hy hx, Option.map_some, ← Std.OrientedCmp.eq_swap]
    · rw [hcompare, compare?_eq_none hnan.symm, Option.map_none]
  trans_lt x y z hxy hyz := by
    obtain ⟨a, b, hx, hy, hab⟩ := compare?_eq_some_iff.mp hxy
    obtain ⟨b', c, hy', hz, hbc⟩ := compare?_eq_some_iff.mp hyz
    obtain rfl := Option.some.inj (hy.symm.trans hy')
    rw [compare_lt_iff_lt] at hab hbc
    exact compare?_eq_some_iff.mpr ⟨a, c, hx, hz, compare_lt_iff_lt.mpr (hab.trans hbc)⟩
  trans_le x y z hxy hyz := by
    obtain ⟨a, b, hx, hy, hab⟩ := isLE_iff.mp hxy
    obtain ⟨b', c, hy', hz, hbc⟩ := isLE_iff.mp hyz
    obtain rfl := Option.some.inj (hy.symm.trans hy')
    exact isLE_iff.mpr ⟨a, c, hx, hz, hab.trans hbc⟩

-- A whole number is not rounded, and a double next to it is another number.
example : compare? (int 9007199254740993) (float 9007199254740992.0) = some .gt := by decide +kernel

end NoteCell.Number
