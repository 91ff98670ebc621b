import NoteCell.Proofs.Decimal.Nearest

/-!
Shortest decimals. Seventeen digits are always enough to come into the interval of a double, so the
shortest decimal of a double reads as that double.
-/
namespace NoteCell.Decimal

variable {m : Nat} {q : Int}

/-! ### Grids -/

theorem Grid.mul_pos (q step : Int) : 0 < (Grid.of q step).mul :=
  Nat.mul_pos (Nat.two_pow_pos _) (Nat.pow_pos (by decide))

theorem Grid.div_pos (q step : Int) : 0 < (Grid.of q step).div :=
  Nat.mul_pos (Nat.two_pow_pos _) (Nat.pow_pos (by decide))

-- The width of a grid in quarters of a unit.
theorem Grid.width_eq (q step : Int) :
    ((Grid.of q step).div : ℚ) / (Grid.of q step).mul = 10 ^ step / 2 ^ (q - 2) := by
  rw [zpow_eq_div (b := 10) (by norm_num), zpow_eq_div (b := 2) (by norm_num), Grid.of]
  simp only [Nat.pow_eq, neg_sub]
  push_cast
  field_simp

theorem Grid.point_eq (q step : Int) (point : Nat) :
    ((point * (Grid.of q step).div : Nat) : ℚ) / (Grid.of q step).mul
      = value point step / 2 ^ (q - 2) := by
  rw [Nat.cast_mul, mul_div_assoc, width_eq, value, mul_div_assoc]

-- Whether a number of quarters reaches over one step of a grid.
theorem Grid.lt_iff (q step : Int) (n : Nat) :
    (Grid.of q step).div < n * (Grid.of q step).mul ↔ (10 : ℚ) ^ step < n * 2 ^ (q - 2) := by
  have hmul : (0 : ℚ) < (Grid.of q step).mul := Nat.cast_pos.mpr (mul_pos q step)
  have hunit : (0 : ℚ) < 2 ^ (q - 2) := zpow_pos (by norm_num) _
  rw [← div_lt_iff₀ hunit, ← width_eq, div_lt_iff₀ hmul, ← Nat.cast_mul, Nat.cast_lt]

theorem Grid.le_iff (q step : Int) (n : Nat) :
    (Grid.of q step).div ≤ n * (Grid.of q step).mul ↔ (10 : ℚ) ^ step ≤ n * 2 ^ (q - 2) := by
  have hmul : (0 : ℚ) < (Grid.of q step).mul := Nat.cast_pos.mpr (mul_pos q step)
  have hunit : (0 : ℚ) < 2 ^ (q - 2) := zpow_pos (by norm_num) _
  rw [← div_le_iff₀ hunit, ← width_eq, div_le_iff₀ hmul, ← Nat.cast_mul, Nat.cast_le]

/-! ### Points in the interval -/

theorem Interval.has_of_nearest? {i : Interval} {g : Grid} {point : Nat}
    (h : i.nearest? g = some point) : i.has g point := by
  rw [nearest?] at h
  split at h
  case h_1 hbelow habove => split at h <;> cases h <;> assumption
  case h_2 hbelow _ => cases h; exact hbelow
  case h_3 _ habove => cases h; exact habove
  case h_4 => cases h

-- A grid finer than the interval has a point in it, and one next to the center.
theorem Interval.exists_nearest? {i : Interval} {g : Grid} (hdiv : 0 < g.div)
    (hlow : i.lower ≤ i.center) (hhigh : i.center < i.upper)
    (hwidth : g.div < (i.upper - i.lower) * g.mul) : ∃ point, i.nearest? g = some point := by
  rw [nearest?]
  split
  case h_1 => split <;> exact ⟨_, rfl⟩
  case h_2 => exact ⟨_, rfl⟩
  case h_3 => exact ⟨_, rfl⟩
  case h_4 hbelow habove =>
    exfalso
    have hb : i.center * g.mul / g.div * g.div ≤ i.center * g.mul := Nat.div_mul_le_self _ _
    have ha : i.center * g.mul < (i.center * g.mul / g.div + 1) * g.div :=
      Nat.lt_mul_of_div_lt (Nat.lt_succ_self _) hdiv
    generalize i.center * g.mul / g.div = below at *
    have hcl : i.lower * g.mul ≤ i.center * g.mul := Nat.mul_le_mul_right _ hlow
    have hmul : 0 < g.mul := Nat.pos_of_ne_zero fun h => by simp [h] at hwidth
    have hcu : i.center * g.mul < i.upper * g.mul := Nat.mul_lt_mul_of_pos_right hhigh hmul
    rw [Nat.sub_mul] at hwidth
    rw [Nat.add_mul, Nat.one_mul] at ha
    simp only [has, Nat.add_mul, Nat.one_mul] at hbelow habove
    by_cases hc : i.closed <;>
      simp only [hc, if_true, if_false, Bool.false_eq_true, Bool.and_eq_false_iff,
        decide_eq_false_iff_not] at hbelow habove <;>
      omega

theorem quarters (q : Int) : (2 : ℚ) ^ q = 4 * 2 ^ (q - 2) := by
  rw [zpow_sub₀ (by norm_num)]
  norm_num
  ring

-- Seventeen digits are finer than the doubles.
theorem exists_seventeen {k : Int} (hm : 0 < m) (hlt : m < 2 ^ 53)
    (hk : (10 : ℚ) ^ (k - 1) ≤ m * 2 ^ q) :
    ∃ point, (interval m q).nearest? (Grid.of q (k - 17)) = some point := by
  have fine {n : Nat} (h : 4 * m < n * 10 ^ 16) :
      (Grid.of q (k - 17)).div < n * (Grid.of q (k - 17)).mul := by
    have hn : (4 * m : ℚ) < n * 10 ^ 16 := by exact_mod_cast h
    have hunit : (0 : ℚ) < 2 ^ (q - 2) := zpow_pos (by norm_num) _
    rw [Grid.lt_iff, show k - 17 = k - 1 - (16 : Nat) by omega, zpow_sub₀ (by norm_num),
      zpow_natCast, div_lt_iff₀ (by norm_num)]
    calc (10 : ℚ) ^ (k - 1) ≤ m * 2 ^ q := hk
      _ = 4 * m * 2 ^ (q - 2) := by rw [quarters]; ring
      _ < n * 10 ^ 16 * 2 ^ (q - 2) := mul_lt_mul_of_pos_right hn hunit
      _ = n * 2 ^ (q - 2) * 10 ^ 16 := by ring
  have hlower : (interval m q).lower
      = if m = Nat.pow 2 52 ∧ -1074 < q then 4 * m - 1 else 4 * m - 2 := rfl
  have hcenter : (interval m q).center = 4 * m := rfl
  have hupper : (interval m q).upper = 4 * m + 2 := rfl
  refine Interval.exists_nearest? (Grid.div_pos _ _) ?_ ?_ (fine ?_)
  · rw [hlower, hcenter]
    split <;> omega
  · omega
  · rw [hlower, hupper]
    split
    case isTrue h =>
      have : m = 2 ^ 52 := h.1
      omega
    case isFalse => omega

/-! ### The place of the first digit -/

theorem magnitudeFrom_le {q : Int} {center : Nat} (fuel : Nat) {guess : Int}
    (h : (10 : ℚ) ^ (guess - 1) ≤ center * 2 ^ (q - 2)) :
    (10 : ℚ) ^ (magnitudeFrom q center fuel guess - 1) ≤ center * 2 ^ (q - 2) := by
  induction fuel generalizing guess
  case zero => exact h
  case succ fuel ih =>
    rw [magnitudeFrom]
    split
    case isTrue => exact h
    case isFalse hle =>
      refine ih ?_
      rw [Int.add_sub_cancel]
      exact (Grid.le_iff q guess center).mp (Nat.le_of_not_lt hle)

-- Powers of ten and of two are compared through a power of each that is close to the other.
theorem ten_zpow_le_two_zpow {c n : Nat} {j l : Int} (hn : 0 < n) (hle : n * j ≤ c * l)
    (hpow : ((10 : ℚ) ^ c) ^ l ≤ (2 ^ n) ^ l) : (10 : ℚ) ^ j ≤ 2 ^ l := by
  refine le_of_pow_le_pow_left₀ hn.ne' (zpow_nonneg (by norm_num) _) ?_
  calc ((10 : ℚ) ^ j) ^ n = 10 ^ (n * j) := by rw [← zpow_natCast, ← zpow_mul, mul_comm]
    _ ≤ 10 ^ (c * l) := zpow_le_zpow_right₀ (by norm_num) hle
    _ = (10 ^ c) ^ l := by rw [zpow_mul, zpow_natCast]
    _ ≤ (2 ^ n) ^ l := hpow
    _ = (2 ^ l) ^ n := by rw [← zpow_natCast, ← zpow_natCast, ← zpow_mul, ← zpow_mul, mul_comm]

-- The first guess is not above the place of the first digit.
theorem guess_le {l : Int} (hlow : -1074 ≤ l) (hhigh : l ≤ 1024) :
    (10 : ℚ) ^ (l * 30102 / 100000 - 1 - 1) ≤ 2 ^ l := by
  rcases Int.le_total 0 l with hl | hl
  · refine ten_zpow_le_two_zpow (n := 10) (c := 3) (by decide) (by push_cast; omega) ?_
    obtain ⟨k, rfl⟩ := Int.eq_ofNat_of_zero_le hl
    rw [zpow_natCast, zpow_natCast]
    exact pow_le_pow_left₀ (by norm_num) (by norm_num) k
  · refine ten_zpow_le_two_zpow (n := 93) (c := 28) (by decide) (by push_cast; omega) ?_
    obtain ⟨k, hk⟩ := Int.eq_ofNat_of_zero_le (Int.neg_nonneg.mpr hl)
    obtain rfl : l = -k := by omega
    rw [zpow_neg, zpow_neg, zpow_natCast, zpow_natCast]
    exact inv_anti₀ (by positivity) (pow_le_pow_left₀ (by norm_num) (by norm_num) k)

theorem magnitude_le {scale : Nat} (hm : 0 < m) (hlt : m < 2 ^ 53) (hscale : scale < 2046) :
    (10 : ℚ) ^ (magnitude m (scale - 1074) - 1) ≤ m * 2 ^ ((scale : Int) - 1074) := by
  have hlog : m.log2 < 53 := (Nat.log2_lt hm.ne').mpr hlt
  have htwo : ((2 ^ m.log2 : Nat) : ℚ) ≤ m := Nat.cast_le.mpr (Nat.log2_self_le hm.ne')
  have hguess := guess_le (l := m.log2 + (scale - 1074)) (by omega) (by omega)
  rw [zpow_add₀ (by norm_num), zpow_natCast] at hguess
  have hcenter : (m : ℚ) * 2 ^ ((scale : Int) - 1074)
      = (4 * m : Nat) * 2 ^ ((scale : Int) - 1074 - 2) := by
    rw [quarters]
    push_cast
    ring
  rw [magnitude, hcenter]
  refine magnitudeFrom_le 4 ?_
  rw [← hcenter]
  push_cast at htwo
  exact hguess.trans (mul_le_mul_of_nonneg_right htwo (zpow_nonneg (by norm_num) _))

/-! ### The shortest decimal -/

theorem contains_shortestFrom {i : Interval} {q k : Int} {last : Nat}
    (hlast : ∃ point, i.nearest? (Grid.of q (k - last)) = some point) (fuel : Nat) {count : Nat}
    (hle : count ≤ last) (hfuel : last < count + fuel) :
    i.Contains (value (shortestFrom i q k fuel count).digits
      (shortestFrom i q k fuel count).exponent / 2 ^ (q - 2)) := by
  induction fuel generalizing count
  case zero => omega
  case succ fuel ih =>
    rw [shortestFrom]
    split
    case h_1 point hpoint =>
      rw [← Grid.point_eq, ← Interval.holds_iff (Grid.mul_pos _ _)]
      exact Interval.holds_of_has (Interval.has_of_nearest? hpoint)
    case h_2 hnone =>
      refine ih (Nat.lt_of_le_of_ne hle ?_) (by omega)
      rintro rfl
      have ⟨point, hpoint⟩ := hlast
      rw [hnone] at hpoint
      cases hpoint

section

variable {x : Float} {scale : Nat} (hx : Double.Finite x m scale) (hm : 0 < m)

include hx hm

theorem contains_shortest : (interval m (scale - 1074)).Contains
    (value (shortest m (scale - 1074)).digits (shortest m (scale - 1074)).exponent
      / 2 ^ ((scale : Int) - 1076)) := by
  rw [show (scale : Int) - 1076 = scale - 1074 - 2 by omega]
  exact contains_shortestFrom
    (exists_seventeen hm hx.mantissa (magnitude_le hm hx.mantissa hx.scale)) 17 (by decide)
    (by decide)

theorem digits_shortest_ne_zero : (shortest m (scale - 1074)).digits ≠ 0 := by
  intro hzero
  have := (bounds_of_contains hm hx.mantissa (contains_shortest hx hm)).1
  rw [hzero, value, Nat.cast_zero, zero_mul, zero_div] at this
  linarith

theorem toFloat_of_shortest {digits : Nat} {exponent : Int}
    (h : value digits exponent = value (shortest m (scale - 1074)).digits
      (shortest m (scale - 1074)).exponent) : toFloat digits exponent = x :=
  toFloat_eq hx hm (h ▸ contains_shortest hx hm)

end

end NoteCell.Decimal
