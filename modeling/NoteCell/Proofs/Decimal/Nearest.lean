import Mathlib
import NoteCell.Decimal.Reading
import NoteCell.Proofs.Decimal.Bits

/-!
Decimal digits, and the nearest double: a number inside the interval of a double reads as that
double.
-/
namespace NoteCell.Decimal

theorem natOfDigits_eq (cs : List Char) : natOfDigits cs = Nat.ofDigitChars 10 cs 0 := by
  rw [Nat.ofDigitChars_eq_foldl]
  rfl

theorem natOfDigits_toDigits (n : Nat) : natOfDigits (Nat.toDigits 10 n) = n := by
  rw [natOfDigits_eq, Nat.ofDigitChars_ten_toDigits]

theorem natOfDigits_append (cs ds : List Char) :
    natOfDigits (cs ++ ds) = natOfDigits cs * 10 ^ ds.length + natOfDigits ds := by
  rw [natOfDigits_eq, natOfDigits_eq, natOfDigits_eq, Nat.ofDigitChars_append,
    Nat.ofDigitChars_eq_ofDigitChars_zero, Nat.mul_comm]

theorem natOfDigits_zeros (n : Nat) : natOfDigits (List.replicate n '0') = 0 := by
  rw [natOfDigits_eq, Nat.ofDigitChars_replicate_zero, Nat.mul_zero]

theorem isDigit_of_mem_toDigits {n : Nat} {c : Char} (h : c ∈ Nat.toDigits 10 n) : c.isDigit :=
  Nat.isDigit_of_mem_toDigits (by decide) (by decide) h

theorem length_toDigits_le {n k : Nat} (hk : 0 < k) :
    (Nat.toDigits 10 n).length ≤ k ↔ n < 10 ^ k :=
  Nat.length_toDigits_le_iff (by decide) hk

/-! ### Nearest doubles -/

-- Whether `a / b` lies in an interval.
def Interval.Holds (i : Interval) (a b : Nat) : Prop :=
  if i.closed then i.lower * b ≤ a ∧ a ≤ i.upper * b else i.lower * b < a ∧ a < i.upper * b

theorem Interval.holds_of_has {i : Interval} {g : Grid} {point : Nat} (h : i.has g point) :
    i.Holds (point * g.div) g.mul := by
  rw [Interval.has] at h
  rw [Interval.Holds]
  split at h
  case isTrue hc =>
    rw [if_pos hc]
    simpa using h
  case isFalse hc =>
    rw [if_neg hc]
    simpa using h

-- The same for a rational number.
def Interval.Contains (i : Interval) (r : ℚ) : Prop :=
  if i.closed then (i.lower : ℚ) ≤ r ∧ r ≤ i.upper else (i.lower : ℚ) < r ∧ r < i.upper

theorem Interval.holds_iff {i : Interval} {a b : Nat} (hb : 0 < b) :
    i.Holds a b ↔ i.Contains (a / b) := by
  have hb' : (0 : ℚ) < b := Nat.cast_pos.mpr hb
  have le (n : Nat) : (n : ℚ) ≤ a / b ↔ n * b ≤ a := by
    rw [le_div_iff₀ hb', ← Nat.cast_mul, Nat.cast_le]
  have ge (n : Nat) : (a : ℚ) / b ≤ n ↔ a ≤ n * b := by
    rw [div_le_iff₀ hb', ← Nat.cast_mul, Nat.cast_le]
  rw [Holds, Contains]
  simp only [← not_le, le, ge]

theorem nearestEven_eq {a b m : Nat} (hlow : 2 * (m * b) ≤ 2 * a + b)
    (hhigh : 2 * a ≤ 2 * (m * b) + b)
    (hodd : m % 2 = 1 → 2 * (m * b) < 2 * a + b ∧ 2 * a < 2 * (m * b) + b) (hb : 0 < b) :
    nearestEven a b = m := by
  have hdiv : b * (a / b) + a % b = a := Nat.div_add_mod a b
  have hmod : a % b < b := Nat.mod_lt a hb
  rw [nearestEven]
  generalize a % b = r at *
  obtain ⟨d, hd⟩ : ∃ d, d = a / b := ⟨_, rfl⟩
  rw [← hd] at hdiv ⊢
  -- The quotient is `m`, or one less when the rest is more than a half.
  have hcases : d = m ∨ d + 1 = m := by
    have h₁ : d < m + 1 := by
      refine Nat.lt_of_not_le fun h => ?_
      have := Nat.mul_le_mul_right b h
      rw [Nat.add_mul, Nat.mul_comm d b] at this
      omega
    have h₂ : m < d + 2 := by
      refine Nat.lt_of_not_le fun h => ?_
      have := Nat.mul_le_mul_right b h
      rw [Nat.add_mul, Nat.mul_comm d b] at this
      omega
    omega
  obtain rfl | rfl := hcases
  · rw [Nat.mul_comm d b] at hlow hhigh hodd
    rw [if_pos]
    omega
  · rw [Nat.add_mul, Nat.mul_comm d b] at hlow hhigh hodd
    rw [if_neg]
    omega

/-! ### The bits of a decimal -/

section

variable {x : Float} {m scale a b : Nat}

-- The interval in halves of a unit in the last place, where it reaches as far down as up.
structure Near (m a b : Nat) : Prop where
  low : 2 * (m * b) ≤ 2 * a + b
  high : 2 * a ≤ 2 * (m * b) + b
  odd : m % 2 = 1 → 2 * (m * b) < 2 * a + b ∧ 2 * a < 2 * (m * b) + b

theorem near_of_holds {q : Int} (hm : 0 < m) (h : (interval m q).Holds (4 * a) b) : Near m a b := by
  have hsub : (4 * m - 2) * b = 4 * (m * b) - 2 * b := by rw [Nat.sub_mul, Nat.mul_assoc]
  have hsub' : (4 * m - 1) * b = 4 * (m * b) - b := by rw [Nat.sub_mul, Nat.mul_assoc, Nat.one_mul]
  have hadd : (4 * m + 2) * b = 4 * (m * b) + 2 * b := by rw [Nat.add_mul, Nat.mul_assoc]
  rw [Interval.Holds, interval] at h
  simp only [decide_eq_true_eq] at h
  have hmb : b ≤ m * b := Nat.le_mul_of_pos_left b hm
  split at h <;> split at h <;> constructor <;> omega

-- Just below a power of two the doubles are twice as dense.
theorem low_of_holds {q : Int} (hm : m = 2 ^ 52) (hq : -1074 < q)
    (h : (interval m q).Holds (4 * a) b) : 4 * (m * b) ≤ 4 * a + b := by
  have hsub' : (4 * m - 1) * b = 4 * (m * b) - b := by rw [Nat.sub_mul, Nat.mul_assoc, Nat.one_mul]
  rw [Interval.Holds, interval] at h
  simp only [decide_eq_true_eq] at h
  rw [if_pos (by omega), if_pos ⟨hm, hq⟩] at h
  omega

theorem log2_sub (hlow : 0 < scale → 2 ^ 52 * (b * 2 ^ scale) ≤ a)
    (hhigh : a < 2 ^ 53 * (b * 2 ^ scale)) (hb : 0 < b) : (a / b).log2 - 52 = scale := by
  have hlt : a / b < 2 ^ (53 + scale) := by
    rw [Nat.div_lt_iff_lt_mul hb, Nat.pow_add, Nat.mul_assoc, Nat.mul_comm _ b]
    exact hhigh
  have hupper : (a / b).log2 < 53 + scale := by
    by_cases hzero : a / b = 0
    · rw [hzero, Nat.log2_zero]
      omega
    · exact (Nat.log2_lt hzero).mpr hlt
  rcases Nat.eq_zero_or_pos scale with hs | hs
  · omega
  · have hle : 2 ^ (52 + scale) ≤ a / b := by
      rw [Nat.le_div_iff_mul_le hb, Nat.pow_add, Nat.mul_assoc, Nat.mul_comm _ b]
      exact hlow hs
    have hne : a / b ≠ 0 := by
      have : 0 < 2 ^ (52 + scale) := Nat.two_pow_pos _
      omega
    have := (Nat.le_log2 hne).mpr hle
    omega

theorem nearestBits_eq (hx : Double.Finite x m scale) (hm : 0 < m) (hb : 0 < b)
    (h : (interval m (scale - 1074)).Holds (4 * (a * Nat.pow 2 leastExponent)) (b * 2 ^ scale)) :
    nearestBits a b = x.toBits.toNat := by
  rw [nearestBits]
  generalize a * Nat.pow 2 leastExponent = a at h ⊢
  have hnear := near_of_holds hm h
  have hB : 0 < b * 2 ^ scale := Nat.mul_pos hb (Nat.two_pow_pos _)
  have hm53 := hx.mantissa
  have hmB : m * (b * 2 ^ scale) ≤ (2 ^ 53 - 1) * (b * 2 ^ scale) :=
    Nat.mul_le_mul_right _ (by omega)
  have hhigh : a < 2 ^ 53 * (b * 2 ^ scale) := by
    have := hnear.high
    omega
  have hbits := hx.bits
  have hscale := hx.scale
  change min (2047 * 2 ^ 52) (((a / b).log2 - 52) * 2 ^ 52
    + nearestEven a (b * 2 ^ ((a / b).log2 - 52))) = _
  by_cases hlow : 0 < scale → 2 ^ 52 * (b * 2 ^ scale) ≤ a
  case pos =>
    rw [log2_sub hlow hhigh hb, nearestEven_eq hnear.low hnear.high hnear.odd hB]
    omega
  case neg =>
    -- The number lies below the least mantissa, so it is read with one bit more.
    obtain ⟨hpos, hlt⟩ := not_forall.mp hlow
    obtain ⟨s, rfl⟩ : ∃ s, scale = s + 1 := ⟨scale - 1, by omega⟩
    have hhalf : b * 2 ^ (s + 1) = 2 * (b * 2 ^ s) := by rw [Nat.pow_succ]; ring
    have hm52 : m = 2 ^ 52 := by
      refine Nat.le_antisymm (Nat.le_of_not_lt fun hgt => ?_) (hx.normal hpos)
      have : (2 ^ 52 + 1) * (b * 2 ^ (s + 1)) ≤ m * (b * 2 ^ (s + 1)) :=
        Nat.mul_le_mul_right _ hgt
      have := hnear.low
      omega
    have hclose := low_of_holds hm52 (by omega) h
    rw [hm52, hhalf] at hclose
    rw [hhalf] at hlt
    have hB' : 0 < b * 2 ^ s := Nat.mul_pos hb (Nat.two_pow_pos _)
    have hlow' : 2 ^ 52 * (b * 2 ^ s) ≤ a := by omega
    rw [log2_sub (fun _ => hlow') (by omega) hb, nearestEven_eq (m := 2 ^ 53) (by omega) (by omega)
      (fun h => absurd h (by decide)) hB']
    omega

end

/-! ### Decimals -/

-- The number `digits · 10 ^ exponent`.
def value (digits : Nat) (exponent : Int) : ℚ := digits * 10 ^ exponent

-- A power with the two signs of its exponent kept apart.
theorem zpow_eq_div {b : ℚ} (hb : b ≠ 0) (n : Int) : b ^ n = b ^ n.toNat / b ^ (-n).toNat := by
  rw [← zpow_natCast, ← zpow_natCast, ← zpow_sub₀ hb]
  congr 1
  omega

theorem value_eq_div (digits : Nat) (exponent : Int) :
    value digits exponent
      = ((digits * Nat.pow 10 exponent.toNat : Nat) : ℚ) / (Nat.pow 10 (-exponent).toNat : Nat) := by
  rw [value, zpow_eq_div (by norm_num), Nat.pow_eq, Nat.pow_eq]
  push_cast
  ring

theorem length_toDigits_bounds {n : Nat} (h : n ≠ 0) :
    10 ^ ((Nat.toDigits 10 n).length - 1) ≤ n ∧ n < 10 ^ (Nat.toDigits 10 n).length := by
  have hpos : 0 < (Nat.toDigits 10 n).length := Nat.length_toDigits_pos
  refine ⟨?_, (length_toDigits_le hpos).mp le_rfl⟩
  by_contra hlt
  rcases Nat.eq_zero_or_pos ((Nat.toDigits 10 n).length - 1) with hk | hk
  · rw [hk] at hlt
    omega
  · have := (length_toDigits_le hk).mpr (Nat.lt_of_not_le hlt)
    omega

-- Where the first digit of a number stands.
theorem value_bounds {digits : Nat} (h : digits ≠ 0) (exponent : Int) :
    (10 : ℚ) ^ ((Nat.toDigits 10 digits).length + exponent - 1) ≤ value digits exponent
      ∧ value digits exponent < 10 ^ ((Nat.toDigits 10 digits).length + exponent) := by
  have ⟨hlow, hhigh⟩ := length_toDigits_bounds h
  have hpos : 0 < (Nat.toDigits 10 digits).length := Nat.length_toDigits_pos
  generalize (Nat.toDigits 10 digits).length = k at *
  obtain ⟨k, rfl⟩ : ∃ l, k = l + 1 := ⟨k - 1, by omega⟩
  have h10 : (10 : ℚ) ≠ 0 := by norm_num
  have hpow : (0 : ℚ) < 10 ^ exponent := zpow_pos (by norm_num) _
  rw [value]
  constructor
  · rw [show ((k + 1 : Nat) : Int) + exponent - 1 = (k : Int) + exponent by omega, zpow_add₀ h10,
      zpow_natCast]
    exact mul_le_mul_of_nonneg_right (by exact_mod_cast hlow) hpow.le
  · rw [zpow_add₀ h10, zpow_natCast]
    exact mul_lt_mul_of_pos_right (by exact_mod_cast hhigh) hpow

section

variable {m : Nat} {q : Int} {r : ℚ}

-- An interval in units, and its ends made round.
theorem bounds_of_contains (hm : 0 < m) (hlt : m < 2 ^ 53) (h : (interval m q).Contains r) :
    2 ≤ r ∧ r ≤ 2 ^ 55 := by
  have hlower : (2 : ℚ) ≤ (interval m q).lower := by
    rw [interval]
    simp only
    split <;> exact_mod_cast (by omega)
  have hupper : ((interval m q).upper : ℚ) ≤ 2 ^ 55 := by
    change ((4 * m + 2 : Nat) : ℚ) ≤ _
    exact_mod_cast (by omega)
  rw [Interval.Contains] at h
  split at h
  · exact ⟨hlower.trans h.1, h.2.trans hupper⟩
  · exact ⟨hlower.trans h.1.le, h.2.le.trans hupper⟩

end

-- The powers of two that bound the doubles, among the powers of ten.
theorem ten_lt_two : (10 : ℚ) ^ (-330 : Int) < 2 ^ (-1075 : Int) := by
  rw [zpow_neg, zpow_neg]
  refine inv_strictAnti₀ (by positivity) ?_
  exact_mod_cast (by decide +kernel : 2 ^ 1075 < 10 ^ 330)

theorem two_le_ten : (2 : ℚ) ^ (1024 : Int) ≤ 10 ^ (309 : Int) := by
  exact_mod_cast (by decide +kernel : 2 ^ 1024 ≤ 10 ^ 309)

-- Quarters of a unit, from a fraction scaled to units of the least double.
theorem quarters_eq (a b scale k : Nat) : ((4 * (a * Nat.pow 2 k) : Nat) : ℚ) / (b * 2 ^ scale : Nat)
    = a / b / 2 ^ ((scale : Int) - (k + 2 : Nat)) := by
  rw [zpow_sub₀ (by norm_num), zpow_natCast, zpow_natCast, pow_add, Nat.pow_eq]
  push_cast
  field_simp
  ring

theorem toFloat_eq {x : Float} {m scale digits : Nat} {exponent : Int}
    (hx : Double.Finite x m scale) (hm : 0 < m)
    (h : (interval m (scale - 1074)).Contains (value digits exponent / 2 ^ ((scale : Int) - 1076))) :
    toFloat digits exponent = x := by
  have hscale := hx.scale
  have hunit : (0 : ℚ) < 2 ^ ((scale : Int) - 1076) := zpow_pos (by norm_num) _
  have ⟨hlow, hhigh⟩ := bounds_of_contains hm hx.mantissa h
  rw [le_div_iff₀ hunit] at hlow
  rw [div_le_iff₀ hunit] at hhigh
  have hdigits : digits ≠ 0 := by
    rintro rfl
    rw [value, Nat.cast_zero, zero_mul] at hlow
    linarith
  have ⟨hfirst, hlast⟩ := value_bounds hdigits exponent
  have htop : ¬ (Nat.toDigits 10 digits).length + exponent < -330 := by
    intro hlt
    have h₁ : (2 : ℚ) ^ (-1075 : Int) ≤ 2 * 2 ^ ((scale : Int) - 1076) := by
      rw [← zpow_one_add₀ (by norm_num)]
      exact zpow_le_zpow_right₀ (by norm_num) (by omega)
    have h₂ : (10 : ℚ) ^ ((Nat.toDigits 10 digits).length + exponent) ≤ 10 ^ (-330 : Int) :=
      zpow_le_zpow_right₀ (by norm_num) (by omega)
    linarith [ten_lt_two]
  have hbottom : ¬ 310 < (Nat.toDigits 10 digits).length + exponent := by
    intro hlt
    have h₁ : (2 : ℚ) ^ 55 * 2 ^ ((scale : Int) - 1076) ≤ 2 ^ (1024 : Int) := by
      rw [← zpow_natCast, ← zpow_add₀ (by norm_num)]
      exact zpow_le_zpow_right₀ (by norm_num) (by omega)
    have h₂ : (10 : ℚ) ^ (309 : Int) < 10 ^ ((Nat.toDigits 10 digits).length + exponent - 1) :=
      zpow_lt_zpow_right₀ (by norm_num) (by omega)
    exact absurd (h₂.trans_le (hfirst.trans (hhigh.trans (h₁.trans two_le_ten)))) (lt_irrefl _)
  have hbits : bitsOf digits exponent = x.toBits.toNat := by
    rw [bitsOf, if_neg (by simp [hdigits, htop]), if_neg hbottom]
    refine nearestBits_eq hx hm (Nat.pow_pos (by decide)) ?_
    have hten : 0 < Nat.pow 10 (-exponent).toNat := Nat.pow_pos (by decide)
    rw [Interval.holds_iff (Nat.mul_pos hten (Nat.two_pow_pos _))]
    rw [quarters_eq, ← value_eq_div]
    exact h
  rw [toFloat, hbits, UInt64.ofNat_toNat, Double.ofBits_toBits]

end NoteCell.Decimal
