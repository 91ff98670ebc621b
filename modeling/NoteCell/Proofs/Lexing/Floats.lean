import NoteCell.Proofs.Decimal.Text
import NoteCell.Proofs.Lexing.Pieces

/-!
Numbers with a point or an exponent. The text of a double is cut off as one lexeme, and that is the
double.
-/
namespace NoteCell

open Piece

/-! ### Splitting a text into its parts -/

theorem dropWhile_append_of_stop {p : Char → Bool} {cs rest : List Char} (h : ∀ c ∈ cs, p c)
    (hrest : ∀ c ∈ rest.head?, p c = false) : (cs ++ rest).dropWhile p = rest := by
  rw [List.dropWhile_append_of_pos h]
  cases rest with
  | nil => rfl
  | cons c cs => rw [List.dropWhile_cons, hrest c rfl]; rfl

theorem takeWhile_dropWhile_of_stop {p : Char → Bool} {cs rest : List Char} (h : ∀ c ∈ cs, p c)
    (hrest : ∀ c ∈ rest.head?, p c = false) :
    (cs ++ rest).takeWhile p = cs ∧ (cs ++ rest).dropWhile p = rest :=
  ⟨takeWhile_append_of_stop h hrest, dropWhile_append_of_stop h hrest⟩

namespace Decimal.Parts

theorem exponentParts_sign {p : Parts} {plus : List Char} (hplus : plus = [] ∨ plus = ['+'])
    (hexponent : ∀ c ∈ p.exponent, c.isDigit) :
    exponentParts p.whole p.fraction (p.sign plus ++ p.exponent) = p := by
  obtain ⟨whole, fraction, negative, exponent⟩ := p
  cases negative
  case true => rfl
  case false =>
    obtain rfl | rfl := hplus
    · change exponentParts whole fraction exponent = _
      cases exponent with
      | nil => rfl
      | cons d ds =>
        have hd : d.isDigit := hexponent d (by simp)
        rw [exponentParts.eq_3 _ _ _ (fun _ h => ?_) (fun _ h => ?_)]
        all_goals
          rw [(List.cons.inj h).1] at hd
          exact absurd hd (by decide)
    · rfl

theorem head_pointed {fraction rest : List Char} {c : Char}
    (h : c ∈ (pointed fraction ++ rest).head?) : c = '.' ∨ c ∈ rest.head? := by
  cases fraction with
  | nil => exact .inr h
  | cons => exact .inl (Option.some.inj h).symm

theorem head_marked {sign exponent rest : List Char} {c : Char}
    (h : c ∈ (marked sign exponent ++ rest).head?) : c = 'e' ∨ c ∈ rest.head? := by
  cases exponent with
  | nil => exact .inr h
  | cons => exact .inl (Option.some.inj h).symm

variable {p : Parts} (hp : p.Regular) {plus : List Char} (hplus : plus = [] ∨ plus = ['+'])

include hp hplus

theorem of_text : Parts.of (p.text plus) = p := by
  have hexponent := exponentParts_sign hplus hp.exponent
  rw [Parts.of, text]
  generalize p.sign plus = sg at hexponent ⊢
  have hmarked (c : Char) (hc : c ∈ (marked sg p.exponent).head?) : c.isDigit = false := by
    rw [← List.append_nil (marked _ _)] at hc
    rw [(head_marked hc).resolve_right (by simp)]
    rfl
  have hpointed (c : Char) (hc : c ∈ (pointed p.fraction ++ marked sg p.exponent).head?) :
      c.isDigit = false := by
    obtain rfl | hc := head_pointed hc
    · rfl
    · exact hmarked c hc
  obtain ⟨htake, hdrop⟩ := takeWhile_dropWhile_of_stop hp.whole.2 hpointed
  obtain ⟨htake', hdrop'⟩ := takeWhile_dropWhile_of_stop hp.fraction hmarked
  have hunsigned := hp.unsigned
  have hfloat := hp.isFloat
  rw [htake, hdrop]
  obtain ⟨whole, fraction, negative, exponent⟩ := p
  cases fraction with
  | nil =>
    cases exponent with
    | nil => exact absurd hfloat (by simp)
    | cons d ds => exact hexponent
  | cons f fs =>
    simp only [pointed, List.isEmpty_cons, Bool.false_eq_true, if_false, List.cons_append]
    rw [← List.cons_append, htake', hdrop']
    cases exponent with
    | nil => exact congrArg (fun b => Parts.mk whole (f :: fs) b []) (hunsigned rfl).symm
    | cons d ds => exact hexponent

theorem not_mem_text : '_' ∉ p.text plus := by
  have hdigit {ds : List Char} (hds : ∀ c ∈ ds, c.isDigit) : '_' ∉ ds :=
    fun h => absurd (hds '_' h) (by decide)
  have hsign : '_' ∉ p.sign plus := by
    unfold sign
    split
    · decide
    · obtain rfl | rfl := hplus <;> decide
  have hwhole := hdigit hp.whole.2
  have hfraction := hdigit hp.fraction
  have hexponent := hdigit hp.exponent
  simp only [text, pointed, marked, List.mem_append]
  split <;> split <;> simp_all

end Decimal.Parts

/-! ### The length of a number -/

theorem digitCount_append {ds rest : List Char} (hds : ∀ c ∈ ds, c.isDigit)
    (hrest : ∀ c ∈ rest.head?, isDigitOrUnderscore c = false) :
    digitCount (ds ++ rest) = ds.length := by
  rw [digitCount, takeWhile_append_of_stop (fun c hc => isDigitOrUnderscore_of_isDigit (hds c hc))
    hrest]

theorem isDigitOrUnderscore_of_stop {c : Char} (h : isNameContinue c = false) :
    isDigitOrUnderscore c = false := by
  rw [Bool.eq_false_iff]
  exact fun hc => by simp [isNameContinue_of_isDigitOrUnderscore hc] at h

theorem fractionLength_pointed {fraction rest : List Char} (hfraction : ∀ c ∈ fraction, c.isDigit)
    (hrest : ∀ c ∈ rest.head?, isDigitOrUnderscore c = false)
    (hpoint : fraction = [] → rest.head? ≠ some '.') :
    fractionLength (Decimal.Parts.pointed fraction ++ rest)
      = (Decimal.Parts.pointed fraction).length := by
  cases fraction with
  | nil =>
    change fractionLength rest = 0
    unfold fractionLength
    split
    case h_1 => exact absurd rfl (hpoint rfl)
    case h_2 => rfl
  | cons f fs =>
    have hf : f.isDigit := hfraction f (by simp)
    have hname := isNameStart_of_isDigit hf
    have hdot : f ≠ '.' := by
      rintro rfl
      cases hf
    have hcount := digitCount_append hfraction hrest
    simp only [Decimal.Parts.pointed, List.isEmpty_cons, Bool.false_eq_true, if_false,
      List.cons_append, fractionLength, hname, hdot, decide_false, Bool.or_false]
    rw [← List.cons_append, hcount, List.length_cons, Nat.add_comm]
    rfl

theorem signLength_append {sign rest : List Char} (hsign : sign = [] ∨ sign = ['+'] ∨ sign = ['-'])
    (hrest : ∀ c ∈ rest.head?, c.isDigit) : signLength (sign ++ rest) = sign.length := by
  obtain rfl | rfl | rfl := hsign
  · change signLength rest = 0
    unfold signLength
    split
    case h_1 => exact absurd (hrest '+' rfl) (by decide)
    case h_2 => exact absurd (hrest '-' rfl) (by decide)
    case h_3 => rfl
  · rfl
  · rfl

theorem exponentLength_marked {sign exponent rest : List Char}
    (hsign : sign = [] ∨ sign = ['+'] ∨ sign = ['-']) (hexponent : ∀ c ∈ exponent, c.isDigit)
    (hrest : ∀ c ∈ rest.head?, isNameContinue c = false) :
    exponentLength (Decimal.Parts.marked sign exponent ++ rest)
      = (Decimal.Parts.marked sign exponent).length := by
  cases exponent with
  | nil => exact exponentLength_of_stop hrest
  | cons d ds =>
    have hd : d.isDigit := hexponent d (by simp)
    have hlength : signLength (sign ++ d :: (ds ++ rest)) = sign.length :=
      signLength_append hsign fun c hc => by cases hc; exact hd
    have hcount : digitCount (ds ++ rest) = ds.length :=
      digitCount_append (fun c hc => hexponent c (by simp [hc]))
        fun c hc => isDigitOrUnderscore_of_stop (hrest c hc)
    have hmark : Decimal.isExponentMark 'e' = true := rfl
    simp only [Decimal.Parts.marked, List.isEmpty_cons, Bool.false_eq_true, if_false,
      List.cons_append, List.append_assoc, exponentLength, hlength, List.drop_left, hmark, hd,
      Bool.and_self, if_true, hcount, List.length_cons, List.length_append]
    omega

-- The number ends with its text.
theorem numberLength_text {p : Decimal.Parts} (hp : p.Regular) {plus rest : List Char}
    (hplus : plus = [] ∨ plus = ['+']) (hrest : ∀ c ∈ rest.head?, isNameContinue c = false) :
    numberLength (p.text plus ++ rest) = (p.text plus).length := by
  have hsign : p.sign plus = [] ∨ p.sign plus = ['+'] ∨ p.sign plus = ['-'] := by
    unfold Decimal.Parts.sign
    split
    · exact .inr (.inr rfl)
    · exact hplus.imp_right .inl
  rw [Decimal.Parts.text]
  generalize p.sign plus = sign at hsign ⊢
  have hmarked (c : Char) (hc : c ∈ (Decimal.Parts.marked sign p.exponent ++ rest).head?) :
      isDigitOrUnderscore c = false := by
    obtain rfl | hc := Decimal.Parts.head_marked hc
    · rfl
    · exact isDigitOrUnderscore_of_stop (hrest c hc)
  have hpoint (hnone : p.fraction = []) :
      (Decimal.Parts.marked sign p.exponent ++ rest).head? ≠ some '.' := by
    obtain ⟨d, ds, hd⟩ := List.exists_cons_of_ne_nil (hp.isFloat.resolve_left (by simp [hnone]))
    rw [hd]
    simp [Decimal.Parts.marked]
  have hpointed (c : Char) (hc : c ∈ (Decimal.Parts.pointed p.fraction
      ++ (Decimal.Parts.marked sign p.exponent ++ rest)).head?) : isDigitOrUnderscore c = false := by
    obtain rfl | hc := Decimal.Parts.head_pointed hc
    · rfl
    · exact hmarked c hc
  have hwhole := digitCount_append hp.whole.2 hpointed
  have hpos : p.whole.length ≠ 0 := by simpa using hp.whole.1
  simp only [numberLength, List.append_assoc, hwhole, if_neg hpos, List.drop_left,
    fractionLength_pointed hp.fraction hmarked hpoint]
  rw [← List.drop_drop, List.drop_left, List.drop_left, exponentLength_marked hsign hp.exponent hrest]
  simp only [List.length_append]
  omega

theorem numberToken_text {p : Decimal.Parts} (hp : p.Regular) {plus : List Char}
    (hplus : plus = [] ∨ plus = ['+']) : numberToken (p.text plus) = .token (.float p.toFloat) := by
  have hfilter : (p.text plus).filter (· ≠ '_') = p.text plus := by
    rw [List.filter_eq_self]
    intro c hc
    refine decide_eq_true fun h => ?_
    subst h
    exact Decimal.Parts.not_mem_text hp hplus hc
  have hany : (p.text plus).any (fun c => c = '.' || Decimal.isExponentMark c) = true := by
    rw [List.any_eq_true]
    obtain h | h := hp.isFloat
    · exact ⟨'.', by simp [Decimal.Parts.text, Decimal.Parts.pointed, h], rfl⟩
    · exact ⟨'e', by simp [Decimal.Parts.text, Decimal.Parts.marked, h], rfl⟩
  rw [numberToken, hfilter]
  simp only [hany, if_true, Decimal.Parts.of_text hp hplus]

theorem first_float {x : Float} (hx : Double.IsMagnitude x) {rest : List Char}
    (hrest : (Token.float x).Stops rest) : ∃ c cs, (Token.float x).spelling.toList = c :: cs
      ∧ c.isDigit ∧ first c (cs ++ rest) = ⟨.token (.float x), cs.length⟩ := by
  have ⟨p, hp, ⟨plus, hplus, hspelling⟩, hfloat⟩ := Decimal.exists_parts hx
  obtain ⟨c, ds, hwhole⟩ := List.exists_cons_of_ne_nil hp.whole.1
  have hc : c.isDigit := hp.whole.2 c (by simp [hwhole])
  obtain ⟨cs, htext⟩ : ∃ cs, p.text plus = c :: cs := ⟨_, by rw [Decimal.Parts.text, hwhole]; rfl⟩
  have hlength := numberLength_text hp hplus hrest
  have htoken := numberToken_text hp hplus
  rw [htext] at hlength htoken
  exact ⟨c, cs, hspelling.trans htext, hc,
    by rw [first_number hc hlength hrest, htoken, hfloat]⟩

end NoteCell
