import NoteCell.Machine.Builtins
import NoteCell.Proofs.Machine.Actions
import NoteCell.Proofs.Value.Iterations

/-!
Arithmetic on whole numbers is exact or refuses. A quotient without its fraction and a remainder
with the sign of the dividend are put right by one step, which never leaves 64 bits, so that they
are the floor and what it leaves. Powers are refused by their exponents alone where these are too
long.
-/
namespace NoteCell

namespace Action

variable {act : Action Value} {w : World} {n : Int} {kind : ExnKind}

-- Whole numbers that actions give and what they raise, where the world stays as it is.
def Gives (act : Action Value) (w : World) (n : Int) : Prop :=
  ∃ m : Int64, act.run.run w = (.ok (.int m), w) ∧ m.toInt = n

def Raises (act : Action Value) (w : World) (kind : ExnKind) : Prop :=
  ∃ message, act.run.run w = (.error (.raised ⟨kind, message⟩), w)

def Computes (act : Action Value) (w : World) (r : Arithmetic.Result) : Prop :=
  act.run.run w = (r.attempt.map .ofNumber, w)

namespace Computes

variable {fault : ArithmeticFault} {m : Int64}

theorem gives (h : act.Computes w (.ok (.int m))) : act.Gives w m.toInt := ⟨m, h, rfl⟩

theorem raises_iff (h : act.Computes w (.error fault)) : act.Raises w kind ↔ fault.kind = kind := by
  rw [Raises, h]
  constructor
  · rintro ⟨message, heq⟩
    cases heq
    rfl
  · rintro rfl
    exact ⟨fault.message, rfl⟩

theorem not_raises {x : Number} (h : act.Computes w (.ok x)) : ¬ act.Raises w kind := by
  rw [Raises, h]
  rintro ⟨message, heq⟩
  cases heq

end Computes
end Action

namespace Operators

theorem computes_binary (op : BinaryOp) (x y : Int64) (w : World) :
    (binary op (.int x) (.int y)).Computes w (Arithmetic.ints op x y) :=
  Action.run_lift_map _ _ w

theorem computes_neg (x : Int64) (w : World) :
    (unary .neg (.int x)).Computes w (Arithmetic.exact (-x.toInt)) :=
  Action.run_lift_map _ _ w

end Operators

theorem Builtins.computes_abs (x : Int64) (w : World) :
    (call .abs ⟨[.int x], []⟩).Computes w (Arithmetic.exact x.toInt.natAbs) := by
  have habsolute : absolute w.heap (.int x)
      = (Arithmetic.exact x.toInt.natAbs).attempt.map .ofNumber := by
    simp only [absolute, Value.number?, Arithmetic.absolute]
    cases (Arithmetic.exact x.toInt.natAbs).attempt <;> rfl
  change (Action.lift (.ok ()) >>= fun _ => Action.lift (.ok (.int x)) >>= fun v =>
    Action.heap >>= fun h => Action.lift (absolute h v)).run.run w = _
  rw [Action.run_lift_bind, Action.run_lift_bind, Action.run_heap_bind, habsolute]
  rfl

/-! ### Exact results -/

-- Gives the whole number that is meant if it fits, and is refused otherwise.
structure Action.Exact (act : Action Value) (w : World) (n : Int) : Prop where
  gives_iff : act.Gives w n ↔ ∃ m : Int64, m.toInt = n
  raises_iff : act.Raises w .overflow ↔ ∀ m : Int64, m.toInt ≠ n

namespace Arithmetic

variable {b : Int} {e : Nat}

theorem exact_of_toInt_eq {m : Int64} (hm : m.toInt = b) : exact b = .ok (.int m) := by
  rw [exact, Whole.ofInt?_eq_some_iff.mpr hm]

theorem exact_of_forall_ne (h : ∀ m : Int64, m.toInt ≠ b) : exact b = .error .tooLarge := by
  rw [exact]
  cases hfits : Whole.ofInt? b with
  | none => rfl
  | some m => exact absurd (Whole.ofInt?_eq_some_iff.mp hfits) (h m)

end Arithmetic

theorem Action.Computes.exact {act : Action Value} {w : World} {n : Int}
    (h : act.Computes w (Arithmetic.exact n)) : act.Exact w n := by
  by_cases hfits : ∃ m : Int64, m.toInt = n
  case pos =>
    obtain ⟨m, hm⟩ := hfits
    rw [Arithmetic.exact_of_toInt_eq hm] at h
    exact ⟨iff_of_true (hm ▸ h.gives) ⟨m, hm⟩, iff_of_false h.not_raises fun hne => hne m hm⟩
  case neg =>
    have hne : ∀ m : Int64, m.toInt ≠ n := fun m hm => hfits ⟨m, hm⟩
    rw [Arithmetic.exact_of_forall_ne hne] at h
    exact ⟨iff_of_false (fun ⟨m, _, hm⟩ => hne m hm) hfits,
      iff_of_true (h.raises_iff.mpr rfl) hne⟩

/-! ### Powers -/

namespace Arithmetic

variable {b : Int} {e : Nat}

-- The powers of `-1`, `0` and `1` repeat after two.
theorem pow_shortExponent (b : Int) (e : Nat) : b ^ shortExponent b e = b ^ e := by
  rw [shortExponent]
  split
  case isTrue h =>
    obtain rfl | rfl | rfl : b = -1 ∨ b = 0 ∨ b = 1 := by omega
    · rw [neg_one_pow_eq_pow_mod_two e]
      rcases Nat.mod_two_eq_zero_or_one e with he | he
      · rw [he]
        rfl
      · rw [he]
    · rw [zero_pow (by omega), zero_pow (by omega)]
    · rw [one_pow, one_pow]
  case isFalse => rfl

theorem forall_toInt_ne_pow (hb : 2 ≤ b.natAbs) (he : 64 ≤ e) (m : Int64) : m.toInt ≠ b ^ e := by
  intro heq
  have hpow : 2 ^ 64 ≤ (b ^ e).natAbs := by
    rw [Int.natAbs_pow]
    calc 2 ^ 64 ≤ b.natAbs ^ 64 := Nat.pow_le_pow_left hb 64
      _ ≤ b.natAbs ^ e := Nat.pow_le_pow_right (by omega) he
  have hbounds := And.intro m.le_toInt m.toInt_lt
  omega

theorem exists_toInt_eq_pow (hb : b.natAbs ≤ 1) (e : Nat) : ∃ m : Int64, m.toInt = b ^ e := by
  have hpow : (b ^ e).natAbs ≤ 1 := by
    rw [Int.natAbs_pow]
    exact pow_le_one' hb e
  exact ⟨Int64.ofInt (b ^ e), Int64.toInt_ofInt_of_le (by omega) (by omega)⟩

theorem intPower_of_long (he : 2 ^ 32 ≤ e) : intPower b e = .error .tooLarge := if_pos he

theorem intPower_eq_exact (h : e < 2 ^ 32 ∨ 2 ≤ b.natAbs) : intPower b e = exact (b ^ e) := by
  by_cases hlarge : 2 ≤ b.natAbs ∧ 64 ≤ e
  case pos =>
    rw [exact_of_forall_ne (forall_toInt_ne_pow hlarge.1 hlarge.2), intPower, if_pos hlarge]
    exact ite_self _
  case neg =>
    have he : e < Nat.pow 2 32 := show e < 2 ^ 32 by omega
    rw [intPower, if_neg he.not_ge, if_neg hlarge]
    exact congrArg exact (pow_shortExponent b e)

end Arithmetic

namespace Operators

theorem computes_pow {y : Int64} (hy : 0 ≤ y.toInt) (x : Int64) (w : World) :
    (binary .pow (.int x) (.int y)).Computes w (Arithmetic.intPower x.toInt y.toInt.toNat) := by
  have hpow : Arithmetic.ints .pow x y = Arithmetic.intPower x.toInt y.toInt.toNat := if_pos hy
  exact hpow ▸ computes_binary .pow x y w

-- Results are exact wherever they fit, but exponents of more than 32 bits are refused even for the
-- bases whose powers all fit.
theorem exact_or_refused (x y : Int64) (w : World) :
    (binary .add (.int x) (.int y)).Exact w (x.toInt + y.toInt)
      ∧ (binary .sub (.int x) (.int y)).Exact w (x.toInt - y.toInt)
      ∧ (binary .mul (.int x) (.int y)).Exact w (x.toInt * y.toInt)
      ∧ (unary .neg (.int x)).Exact w (-x.toInt)
      ∧ (Builtins.call .abs ⟨[.int x], []⟩).Exact w x.toInt.natAbs
      ∧ (0 ≤ y.toInt → y.toInt < 2 ^ 32 ∨ 2 ≤ x.toInt.natAbs →
        (binary .pow (.int x) (.int y)).Exact w (x.toInt ^ y.toInt.toNat))
      ∧ (2 ^ 32 ≤ y.toInt → x.toInt.natAbs ≤ 1 →
        (binary .pow (.int x) (.int y)).Raises w .overflow
          ∧ ∃ m : Int64, m.toInt = x.toInt ^ y.toInt.toNat) := by
  refine ⟨(computes_binary .add x y w).exact, (computes_binary .sub x y w).exact,
    (computes_binary .mul x y w).exact, (computes_neg x w).exact,
    (Builtins.computes_abs x w).exact, fun hy hshort => ?_, fun hlong hx => ?_⟩
  case refine_1 =>
    have hcomputes := computes_pow hy x w
    rw [Arithmetic.intPower_eq_exact (by omega)] at hcomputes
    exact hcomputes.exact
  case refine_2 =>
    have hcomputes := computes_pow (by omega : 0 ≤ y.toInt) x w
    rw [Arithmetic.intPower_of_long (by omega)] at hcomputes
    exact ⟨hcomputes.raises_iff.mpr rfl, Arithmetic.exists_toInt_eq_pow hx _⟩

theorem exact_or_refused_powers :
    let w : World := ⟨.empty, [], false⟩
    (binary .pow (.int (-3)) (.int 3)).Gives w (-27)
      ∧ (binary .pow (.int 1) (.int 4294967296)).Raises w .overflow := by
  intro w
  have hpower := (exact_or_refused (-3) 3 w).2.2.2.2.2.1 (by decide) (.inl (by decide))
  have hone := (exact_or_refused 1 4294967296 w).2.2.2.2.2.2 (by decide) (by decide)
  exact ⟨hpower.gives_iff.mpr ⟨-27, by decide⟩, hone.1⟩

end Operators

/-! ### Floor division -/

namespace Arithmetic

variable {m n r : Int64} {a b : Int}

theorem toInt_add_of_fits (hlow : -2 ^ 63 ≤ m.toInt + n.toInt) (hhigh : m.toInt + n.toInt < 2 ^ 63) :
    (m + n).toInt = m.toInt + n.toInt := by
  rw [Int64.toInt_add]
  exact Int.bmod_eq_of_le (by omega) (by omega)

theorem fdiv_eq_tdiv_sub (hb : b ≠ 0) : a.fdiv b
    = if a.tmod b ≠ 0 ∧ (a < 0 ↔ ¬ b < 0) then a.tdiv b - 1 else a.tdiv b := by
  rw [Int.fdiv_eq_tdiv]
  simp only [Int.dvd_iff_tmod_eq_zero]
  rcases Int.lt_or_gt_of_ne hb with hb | hb
  · have hsign := Int.sign_eq_neg_one_of_neg hb
    split_ifs <;> omega
  · have hsign := Int.sign_eq_one_of_pos hb
    split_ifs <;> omega

theorem tmod_neg_iff (hne : a.tmod b ≠ 0) : a.tmod b < 0 ↔ a < 0 := by
  rcases Int.le_total 0 a with ha | ha
  · have := Int.tmod_nonneg b ha
    omega
  · have := Int.tmod_nonneg b (Int.neg_nonneg_of_nonpos ha)
    rw [Int.neg_tmod] at this
    have : a ≠ 0 := by
      rintro rfl
      exact hne (Int.zero_tmod b)
    omega

theorem fmod_eq_tmod_add : a.fmod b
    = if a.tmod b ≠ 0 ∧ (a.tmod b < 0 ↔ ¬ b < 0) then a.tmod b + b else a.tmod b := by
  rw [Int.fmod_eq_tmod]
  simp only [Int.dvd_iff_tmod_eq_zero]
  by_cases hne : a.tmod b = 0
  · rw [if_pos hne, if_neg (fun h => h.1 hne), Int.add_zero]
  · have hsign := tmod_neg_iff hne
    split_ifs <;> omega

theorem adjusts_iff : (r != 0 && (m < 0) != (n < 0)) = true
    ↔ r.toInt ≠ 0 ∧ (m.toInt < 0 ↔ ¬ n.toInt < 0) := by
  have hr : r = 0 ↔ r.toInt = 0 := by rw [← Int64.toInt_inj, Int64.toInt_zero]
  simp only [Bool.and_eq_true, bne_iff_ne, ne_eq, hr, decide_eq_decide, Int64.lt_iff_toInt_lt,
    Int64.toInt_zero]
  tauto

theorem modulo_eq (hn : n ≠ 0) :
    ∃ r, modulo m n = .ok (.int r) ∧ r.toInt = m.toInt.fmod n.toInt := by
  have hr : (m % n).toInt = m.toInt.tmod n.toInt := Int64.toInt_mod m n
  rw [modulo, if_neg hn]
  refine ⟨_, rfl, ?_⟩
  rw [fmod_eq_tmod_add, ← hr]
  simp only [adjusts_iff]
  split
  case isTrue hadjusts =>
    -- The two have different signs, so their sum lies between them.
    have hbounds := And.intro (m % n).le_toInt (m % n).toInt_lt
    have hbounds' := And.intro n.le_toInt n.toInt_lt
    exact toInt_add_of_fits (by omega) (by omega)
  case isFalse => rfl

-- A quotient with a fraction has a divisor other than one.
theorem lt_tdiv (hlow : -2 ^ 63 ≤ a) (hhigh : a < 2 ^ 63) (hb : b ≠ 0) (hne : a.tmod b ≠ 0) :
    -2 ^ 63 < a.tdiv b := by
  have hone : b.natAbs ≠ 1 := by
    intro hone
    apply hne
    rw [← Int.natAbs_eq_zero, Int.natAbs_tmod, hone, Nat.mod_one]
  have hquotient : (a.tdiv b).natAbs ≤ a.natAbs / 2 := by
    rw [Int.natAbs_tdiv]
    exact Nat.div_le_div_left (by omega) (by omega)
  omega

theorem toInt_ne_zero (hn : n ≠ 0) : n.toInt ≠ 0 := fun h => hn (Int64.toInt_inj.mp h)

theorem floorDivide_eq (hn : n ≠ 0) (hleast : ¬ (m = Int64.minValue ∧ n = -1)) :
    ∃ q, floorDivide m n = .ok (.int q) ∧ q.toInt = m.toInt.fdiv n.toInt := by
  have hfits := Range.tdiv_fits m.le_toInt m.toInt_lt fun ⟨hm, hone⟩ =>
    hleast ⟨Int64.toInt_inj.mp hm, Int64.toInt_inj.mp hone⟩
  obtain ⟨q, hq⟩ : ∃ q : Int64, q.toInt = m.toInt.tdiv n.toInt :=
    ⟨_, Int64.toInt_ofInt_of_le hfits.1 hfits.2⟩
  rw [floorDivide, if_neg hn, Whole.ofInt?_eq_some_iff.mpr hq]
  refine ⟨_, rfl, ?_⟩
  rw [fdiv_eq_tdiv_sub (toInt_ne_zero hn), ← hq, ← Int64.toInt_mod]
  simp only [adjusts_iff]
  split
  case isTrue hadjusts =>
    have hlt := lt_tdiv m.le_toInt m.toInt_lt (toInt_ne_zero hn) (Int64.toInt_mod m n ▸ hadjusts.1)
    have hhigh := q.toInt_lt
    rw [Int64.toInt_sub, Int64.toInt_one]
    exact Int.bmod_eq_of_le (by omega) (by omega)
  case isFalse => rfl

theorem floorDivide_cases (m n : Int64) :
    n = 0 ∧ floorDivide m n = .error .floorDivision
      ∨ (m = Int64.minValue ∧ n = -1) ∧ floorDivide m n = .error .tooLarge
      ∨ n ≠ 0 ∧ ¬ (m = Int64.minValue ∧ n = -1)
        ∧ ∃ q, floorDivide m n = .ok (.int q) ∧ q.toInt = m.toInt.fdiv n.toInt := by
  by_cases hn : n = 0
  · exact .inl ⟨hn, if_pos hn⟩
  · by_cases hleast : m = Int64.minValue ∧ n = -1
    · obtain ⟨rfl, rfl⟩ := hleast
      exact .inr (.inl ⟨⟨rfl, rfl⟩, rfl⟩)
    · exact .inr (.inr ⟨hn, hleast, floorDivide_eq hn hleast⟩)

-- What a floor leaves has the sign of the divisor and is nearer to zero.
theorem fmod_between (hb : b ≠ 0) : 0 ≤ a.fmod b ∧ a.fmod b < b ∨ b < a.fmod b ∧ a.fmod b ≤ 0 := by
  rcases Int.lt_or_gt_of_ne hb with hb | hb
  · have hnonneg := Int.fmod_nonneg_of_pos (-a) (Int.neg_pos_of_neg hb)
    have hlt := Int.fmod_lt_of_pos (-a) (Int.neg_pos_of_neg hb)
    rw [Int.neg_fmod_neg] at hnonneg hlt
    omega
  · exact .inl ⟨Int.fmod_nonneg_of_pos a hb, Int.fmod_lt_of_pos a hb⟩

-- Only the least whole number, divided by `-1`, has a quotient that does not fit.
theorem floor_fits_iff : (m = Int64.minValue ∧ n = -1)
    ↔ ∀ q : Int64, q.toInt ≠ m.toInt.fdiv n.toInt := by
  constructor
  · rintro ⟨rfl, rfl⟩ q hq
    have hlt := q.toInt_lt
    rw [hq] at hlt
    exact absurd hlt (by decide)
  · intro hnone
    by_contra hleast
    by_cases hn : n = 0
    · subst hn
      exact hnone 0 (Int.fdiv_zero _).symm
    · obtain ⟨q, -, hq⟩ := floorDivide_eq hn hleast
      exact hnone q hq

end Arithmetic

namespace Operators

theorem floorDiv_raises_iff (x y : Int64) (w : World) :
    ((binary .floorDiv (.int x) (.int y)).Raises w .zeroDivision ↔ y = 0)
      ∧ ((binary .floorDiv (.int x) (.int y)).Raises w .overflow
        ↔ x = Int64.minValue ∧ y = -1) := by
  have hcomputes : (binary .floorDiv (.int x) (.int y)).Computes w (Arithmetic.floorDivide x y) :=
    computes_binary .floorDiv x y w
  rcases Arithmetic.floorDivide_cases x y with ⟨rfl, h⟩ | ⟨⟨rfl, rfl⟩, h⟩ | ⟨hy, hleast, q, h, -⟩
  all_goals rw [h] at hcomputes
  · exact ⟨iff_of_true (hcomputes.raises_iff.mpr rfl) rfl,
      iff_of_false (mt hcomputes.raises_iff.mp nofun) fun h => absurd h.2 (by decide)⟩
  · exact ⟨iff_of_false (mt hcomputes.raises_iff.mp nofun) (by decide),
      iff_of_true (hcomputes.raises_iff.mpr rfl) ⟨rfl, rfl⟩⟩
  · exact ⟨iff_of_false hcomputes.not_raises hy, iff_of_false hcomputes.not_raises hleast⟩

theorem mod_raises_iff (x y : Int64) (w : World) :
    (binary .mod (.int x) (.int y)).Raises w .zeroDivision ↔ y = 0 := by
  have hcomputes : (binary .mod (.int x) (.int y)).Computes w (Arithmetic.modulo x y) :=
    computes_binary .mod x y w
  by_cases hy : y = 0
  · rw [Arithmetic.modulo, if_pos hy] at hcomputes
    exact iff_of_true (hcomputes.raises_iff.mpr rfl) hy
  · obtain ⟨r, h, -⟩ := Arithmetic.modulo_eq (m := x) hy
    rw [h] at hcomputes
    exact iff_of_false hcomputes.not_raises hy

-- Floor divisions and remainders of whole numbers.
theorem floor_division (x y : Int64) (w : World) :
    let quotient := binary .floorDiv (.int x) (.int y)
    let remainder := binary .mod (.int x) (.int y)
    (quotient.Raises w .zeroDivision ↔ y = 0) ∧ (remainder.Raises w .zeroDivision ↔ y = 0)
      ∧ (quotient.Raises w .overflow ↔ x = Int64.minValue ∧ y = -1)
      ∧ (x = Int64.minValue ∧ y = -1 ↔ ∀ q : Int64, q.toInt ≠ x.toInt.fdiv y.toInt)
      ∧ (y ≠ 0 → ∃ r, remainder.Gives w r ∧ (0 ≤ r ∧ r < y.toInt ∨ y.toInt < r ∧ r ≤ 0)
        ∧ (¬ (x = Int64.minValue ∧ y = -1) → ∃ q, quotient.Gives w q
          ∧ x.toInt = q * y.toInt + r)) := by
  intro quotient remainder
  obtain ⟨hzero, hoverflow⟩ := floorDiv_raises_iff x y w
  refine ⟨hzero, mod_raises_iff x y w, hoverflow, Arithmetic.floor_fits_iff, fun hy => ?_⟩
  have hquotient : quotient.Computes w (Arithmetic.floorDivide x y) := computes_binary _ x y w
  have hremainder : remainder.Computes w (Arithmetic.modulo x y) := computes_binary _ x y w
  obtain ⟨r, hmodulo, hr⟩ := Arithmetic.modulo_eq (m := x) hy
  rw [hmodulo] at hremainder
  refine ⟨_, hr ▸ hremainder.gives, Arithmetic.fmod_between (Arithmetic.toInt_ne_zero hy),
    fun hleast => ?_⟩
  obtain ⟨q, hdivide, hq⟩ := Arithmetic.floorDivide_eq hy hleast
  rw [hdivide] at hquotient
  exact ⟨_, hq ▸ hquotient.gives, (Int.fdiv_mul_add_fmod _ _).symm⟩

theorem floor_division_negative :
    let w : World := ⟨.empty, [], false⟩
    (binary .floorDiv (.int (-7)) (.int 2)).Gives w (-4)
      ∧ (binary .mod (.int (-7)) (.int 2)).Gives w 1
      ∧ (binary .floorDiv (.int Int64.minValue) (.int (-1))).Raises w .overflow := by
  intro w
  obtain ⟨-, -, -, -, hresults⟩ := floor_division (-7) 2 w
  obtain ⟨r, hr, hbetween, hquotient⟩ := hresults (by decide)
  obtain ⟨q, hq, heq⟩ := hquotient (by decide)
  have hx : (-7 : Int64).toInt = -7 := by decide
  have hy : (2 : Int64).toInt = 2 := by decide
  rw [hy] at hbetween
  rw [hx, hy] at heq
  obtain rfl : r = 1 := by omega
  obtain rfl : q = -4 := by omega
  exact ⟨hq, hr, (floor_division Int64.minValue (-1) w).2.2.1.mpr ⟨rfl, rfl⟩⟩

end Operators
end NoteCell
