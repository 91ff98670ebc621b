import Mathlib.Data.List.TakeWhile
import NoteCell.Decimal.FloatText
import NoteCell.Proofs.Decimal.Shortest

/-!
Texts of doubles. However a double is laid out, with zeros for places that hold no digit, with a
point and with an exponent, the parts of its text denote its shortest decimal.
-/
namespace NoteCell.Decimal

theorem isDigit_of_mem_zeros {n : Nat} {c : Char} (h : c ∈ zeros n) : c.isDigit := by
  rw [List.eq_of_mem_replicate h]
  rfl

theorem isDigit_of_mem_append {cs ds : List Char} (hcs : ∀ c ∈ cs, c.isDigit)
    (hds : ∀ c ∈ ds, c.isDigit) : ∀ c ∈ cs ++ ds, c.isDigit := by
  intro c hc
  obtain hc | hc := List.mem_append.mp hc
  · exact hcs c hc
  · exact hds c hc

theorem natOfDigits_append_zeros (cs : List Char) (n : Nat) :
    natOfDigits (cs ++ zeros n) = natOfDigits cs * 10 ^ n := by
  rw [natOfDigits_append, zeros, natOfDigits_zeros, List.length_replicate, Nat.add_zero]

theorem natOfDigits_zeros_append (cs : List Char) (n : Nat) :
    natOfDigits (zeros n ++ cs) = natOfDigits cs := by
  rw [natOfDigits_append, zeros, natOfDigits_zeros, Nat.zero_mul, Nat.zero_add]

-- Zeros behind the digits count as powers of ten.
theorem value_mul_pow (digits n : Nat) (exponent : Int) :
    value (digits * 10 ^ n) exponent = value digits (exponent + n) := by
  rw [value, value, zpow_add₀ (by norm_num), zpow_natCast]
  push_cast
  ring

/-! ### Parts -/

namespace Parts

variable (p : Parts)

def value : ℚ :=
  Decimal.value (natOfDigits (p.whole ++ p.fraction))
    ((if p.exponentNegative then -(natOfDigits p.exponent : Int) else natOfDigits p.exponent)
      - p.fraction.length)

theorem toFloat_eq {x : Float} {m scale : Nat} (hx : Double.Finite x m scale) (hm : 0 < m)
    (h : p.value = Decimal.value (shortest m (scale - 1074)).digits
      (shortest m (scale - 1074)).exponent) : p.toFloat = x :=
  toFloat_of_shortest hx hm h

-- A fraction behind its point, and an exponent behind its mark and its sign, if there are any.
def pointed (fraction : List Char) : List Char :=
  if fraction.isEmpty then [] else '.' :: fraction

def marked (sign exponent : List Char) : List Char :=
  if exponent.isEmpty then [] else 'e' :: (sign ++ exponent)

-- The sign of the exponent, where `plus` is how a positive one is marked.
def sign (plus : List Char) : List Char := if p.exponentNegative then ['-'] else plus

def text (plus : List Char) : List Char :=
  p.whole ++ (pointed p.fraction ++ marked (p.sign plus) p.exponent)

-- Parts that the text of a float can have.
structure Regular : Prop where
  whole : p.whole ≠ [] ∧ ∀ c ∈ p.whole, c.isDigit
  fraction : ∀ c ∈ p.fraction, c.isDigit
  exponent : ∀ c ∈ p.exponent, c.isDigit
  isFloat : p.fraction ≠ [] ∨ p.exponent ≠ []
  unsigned : p.exponent = [] → p.exponentNegative = false

end Parts

/-! ### Layouts -/

theorem significant_eq (d : Digits) (hd : d.digits ≠ 0) :
    ∃ ds exponent, d.significant = (ds, exponent) ∧ ds ≠ [] ∧ (∀ c ∈ ds, c.isDigit)
      ∧ value d.digits d.exponent = value (natOfDigits ds) (exponent + 1 - ds.length) := by
  have hdigit (c : Char) (hc : c ∈ Nat.toDigits 10 d.digits) : c.isDigit :=
    isDigit_of_mem_toDigits hc
  have hvalue := natOfDigits_toDigits d.digits
  rw [Digits.significant]
  generalize Nat.toDigits 10 d.digits = all at *
  obtain ⟨n, hall⟩ : ∃ n, all = (all.reverse.dropWhile (· = '0')).reverse ++ zeros n := by
    refine ⟨(all.reverse.takeWhile (· = '0')).length, ?_⟩
    have hzeros : all.reverse.takeWhile (· = '0')
        = zeros (all.reverse.takeWhile (· = '0')).length :=
      List.eq_replicate_iff.mpr ⟨rfl, fun c hc => by simpa using List.mem_takeWhile_imp hc⟩
    rw [← List.reverse_inj, List.reverse_append, List.reverse_reverse, zeros, List.reverse_replicate,
      ← zeros, ← hzeros, List.takeWhile_append_dropWhile]
  generalize (all.reverse.dropWhile (· = '0')).reverse = ds at *
  subst hall
  refine ⟨ds, _, rfl, ?_, fun c hc => hdigit c (List.mem_append_left _ hc), ?_⟩
  · rintro rfl
    rw [List.nil_append, zeros, natOfDigits_zeros] at hvalue
    exact hd hvalue.symm
  · rw [← hvalue, natOfDigits_append_zeros, value_mul_pow]
    congr 1
    simp [zeros]
    omega

variable {ds : List Char} {exponent : Int}

theorem withFraction_of_point {text : List Char} (h : '.' ∈ text) :
    valueStyle.withFraction text = text := by
  rw [Style.withFraction, if_neg]
  simpa [valueStyle] using h

theorem withFraction_of_digits {text : List Char} (h : ∀ c ∈ text, c.isDigit) :
    valueStyle.withFraction text = text ++ ['.', '0'] := by
  rw [Style.withFraction, if_pos]
  simp only [valueStyle, Bool.true_and, Bool.not_eq_true', List.contains_eq_mem,
    decide_eq_false_iff_not]
  exact fun hmem => absurd (h '.' hmem) (by decide)

theorem withFraction_positional (hne : ds ≠ []) (hds : ∀ c ∈ ds, c.isDigit) :
    ∃ p : Parts, p.Regular ∧ valueStyle.withFraction (positional ds exponent) = p.text ['+']
      ∧ p.value = value (natOfDigits ds) (exponent + 1 - ds.length) := by
  rw [positional]
  split
  case isTrue hneg =>
    refine ⟨⟨['0'], zeros (-exponent - 1).toNat ++ ds, false, []⟩, ⟨by simp, ?_, by simp, ?_, ?_⟩,
      ?_, ?_⟩
    · exact isDigit_of_mem_append (fun _ => isDigit_of_mem_zeros) hds
    · exact .inl (by simp [hne])
    · exact fun _ => rfl
    · rw [withFraction_of_point (by simp)]
      simp [Parts.text, Parts.pointed, Parts.marked, hne]
    · rw [Parts.value]
      congr 1
      · rw [← natOfDigits_zeros_append ds ((-exponent - 1).toNat + 1)]
        simp [zeros, List.replicate_succ]
      · simp [zeros, natOfDigits]
        omega
  case isFalse hpos =>
    simp only
    split
    case isTrue hle =>
      have hdigits := isDigit_of_mem_append hds
        (fun _ => isDigit_of_mem_zeros (n := exponent.toNat + 1 - ds.length))
      refine ⟨⟨ds ++ zeros (exponent.toNat + 1 - ds.length), ['0'], false, []⟩,
        ⟨⟨by simp [hne], hdigits⟩, by simp, by simp, by simp, fun _ => rfl⟩, ?_, ?_⟩
      · rw [withFraction_of_digits hdigits]
        simp [Parts.text, Parts.pointed, Parts.marked]
      · rw [Parts.value]
        simp only [List.append_assoc]
        rw [show zeros (exponent.toNat + 1 - ds.length) ++ ['0']
          = zeros (exponent.toNat + 1 - ds.length + 1) from List.replicate_succ'.symm,
          natOfDigits_append_zeros, value_mul_pow]
        congr 1
        simp [natOfDigits]
        omega
    case isFalse hlt =>
      refine ⟨⟨ds.take (exponent.toNat + 1), ds.drop (exponent.toNat + 1), false, []⟩,
        ⟨⟨by simp [hne], fun c hc => hds c (List.mem_of_mem_take hc)⟩,
          fun c hc => hds c (List.mem_of_mem_drop hc), by simp, ?_, fun _ => rfl⟩, ?_, ?_⟩
      · exact .inl (by simp; omega)
      · rw [withFraction_of_point (by simp)]
        simp [Parts.text, Parts.pointed, Parts.marked]
        omega
      · rw [Parts.value, List.take_append_drop]
        congr 1
        simp [natOfDigits]
        omega

theorem mantissa_append_exponent (hne : ds ≠ []) (hds : ∀ c ∈ ds, c.isDigit) :
    ∃ p : Parts, p.Regular ∧ mantissa ds ++ valueStyle.exponentText exponent = p.text ['+']
      ∧ p.value = value (natOfDigits ds) (exponent + 1 - ds.length) := by
  obtain ⟨d, ds, rfl⟩ := List.exists_cons_of_ne_nil hne
  have hexponent (c : Char) (hc : c ∈ zeros (2 - (Nat.toDigits 10 exponent.natAbs).length)
      ++ Nat.toDigits 10 exponent.natAbs) : c.isDigit :=
    isDigit_of_mem_append (fun _ => isDigit_of_mem_zeros) (fun _ => isDigit_of_mem_toDigits) c hc
  have hsome : Nat.toDigits 10 exponent.natAbs ≠ [] := Nat.toDigits_ne_nil
  refine ⟨⟨[d], ds, exponent < 0, zeros (2 - (Nat.toDigits 10 exponent.natAbs).length)
    ++ Nat.toDigits 10 exponent.natAbs⟩, ⟨⟨by simp, ?_⟩, ?_, hexponent, ?_, ?_⟩, ?_, ?_⟩
  · simpa using hds d (by simp)
  · exact fun c hc => hds c (List.mem_cons_of_mem d hc)
  · exact .inr (by simp [hsome])
  · simp [hsome]
  · by_cases hneg : exponent < 0 <;> cases ds <;>
      simp [Parts.text, Parts.pointed, Parts.marked, Parts.sign, mantissa, valueStyle, signedExponent, hsome, hneg]
  · rw [Parts.value]
    congr 1
    rw [natOfDigits_zeros_append, natOfDigits_toDigits]
    simp only [List.length_cons, decide_eq_true_eq]
    split <;> omega

-- The text of a finite double above zero.
theorem magnitudeText_eq {m scale : Nat} {x : Float} (hx : Double.Finite x m scale) (hm : 0 < m)
    (negative : Bool) : ∃ p : Parts, p.Regular
      ∧ valueStyle.magnitudeText ⟨negative, m, scale - 1074⟩ = p.text ['+'] ∧ p.toFloat = x := by
  have ⟨ds, exponent, hsignificant, hne, hds, hvalue⟩ :=
    significant_eq (shortest m (scale - 1074)) (digits_shortest_ne_zero hx hm)
  rw [Style.magnitudeText, if_neg hm.ne', hsignificant]
  simp only
  split
  case isTrue =>
    have ⟨p, hp, htext, hp'⟩ := @withFraction_positional ds exponent hne hds
    exact ⟨p, hp, htext, p.toFloat_eq hx hm (hp'.trans hvalue.symm)⟩
  case isFalse =>
    have ⟨p, hp, htext, hp'⟩ := @mantissa_append_exponent ds exponent hne hds
    exact ⟨p, hp, htext, p.toFloat_eq hx hm (hp'.trans hvalue.symm)⟩

theorem toFloat_of_bitsOf {x : Float} {digits : Nat} {exponent : Int}
    (h : bitsOf digits exponent = x.toBits.toNat) : toFloat digits exponent = x := by
  rw [toFloat, h, UInt64.ofNat_toNat, Double.ofBits_toBits]

theorem valueText_eq {x : Float} (hx : Double.IsMagnitude x) {d : Dyadic}
    (hd : Dyadic.ofFloat? x = some d) : (valueText x).toList = valueStyle.magnitudeText d := by
  rw [valueText, Style.text, hx.not_isNaN, hx.not_isNegative, hd]
  simp

-- What is written for a double reads as that double: infinity, zero and the others in turn.
theorem exists_parts {x : Float} (hx : Double.IsMagnitude x) : ∃ p : Parts, p.Regular
    ∧ (∃ plus, (plus = [] ∨ plus = ['+']) ∧
        (if x.isInf then "1e309" else valueText x).toList = p.text plus)
    ∧ p.toFloat = x := by
  split
  case isTrue hinf =>
    refine ⟨⟨['1'], [], false, ['3', '0', '9']⟩, ⟨by simp, by simp, by simp, by simp,
      by simp⟩, ⟨[], .inl rfl, rfl⟩, toFloat_of_bitsOf ?_⟩
    rw [hx.isInf_iff.mp hinf]
    decide +kernel
  case isFalse hfinite =>
    have ⟨m, scale, hm, hd⟩ := hx.finite fun h => hfinite (hx.isInf_iff.mpr h)
    rw [valueText_eq hx hd]
    rcases Nat.eq_zero_or_pos m with rfl | hpos
    · refine ⟨⟨['0'], ['0'], false, []⟩, ⟨by simp, by simp, by simp, by simp, by simp⟩,
        ⟨[], .inl rfl, by simp [Style.magnitudeText, valueStyle, Style.withFraction, Parts.text,
          Parts.pointed, Parts.marked]⟩,
        toFloat_of_bitsOf ?_⟩
      have hscale : scale = 0 := Nat.eq_zero_of_not_pos fun h => by
        have := hm.normal h
        omega
      rw [hm.bits, hscale]
      rfl
    · have ⟨p, hp, htext, hp'⟩ := magnitudeText_eq hm hpos false
      exact ⟨p, hp, ⟨['+'], .inr rfl, htext⟩, hp'⟩

end NoteCell.Decimal
