import NoteCell.Proofs.Decimal.Nearest
import NoteCell.Token.Lexeme
import NoteCell.Tree.Printing

/-!
Lexemes of spelled tokens. The spelling of a token at the head of a text is cut off as that token,
when what comes right behind it does not run on with it.
-/
namespace NoteCell

-- Whether a sign and a character right behind it begin something longer.
def Sign.runsOn : Sign → Char → Bool
  | plus, c | minus, c | doubleStar, c | doubleSlash, c | percent, c | less, c | greater, c
  | assign, c => '=' == c
  | star, c => '*' == c || '=' == c
  | slash, c => '/' == c || '=' == c
  | dot, c => c.isDigit
  | _, _ => false

def Token.runsOn : Token → Char → Bool
  | .name _, c | .word _, c | .float _, c => isNameContinue c
  | .int _, c => isNameContinue c || c = '.'
  | .str _, c => c = '\'' || c = '"'
  | .sign s, c => s.runsOn c
  | .newline, _ | .indent, _ | .dedent, _ => false

-- The text behind a token leaves it as it is.
def Token.Stops (t : Token) (rest : List Char) : Prop := ∀ c ∈ rest.head?, t.runsOn c = false

/-! ### Signs -/

theorem Sign.atHead?_text (s : Sign) {rest : List Char} (h : (Token.sign s).Stops rest) :
    atHead? (s.text.toList ++ rest) = some s := by
  cases rest with
  | nil => cases s <;> decide
  | cons c cs =>
    have hc : s.runsOn c = false := h c rfl
    have ne {d : Char} (hd : d ≠ c) : (d == c) = false := beq_eq_false_iff_ne.mpr hd
    cases s
    case star | slash =>
      simp only [runsOn, Bool.or_eq_false_iff] at hc
      simp [atHead?, longestFirst, text, List.find?, List.isPrefixOf, hc.1, hc.2]
    all_goals simp [runsOn] at hc
    all_goals simp [atHead?, longestFirst, text, List.find?, List.isPrefixOf, ne, hc]

theorem Piece.first_sign (s : Sign) {rest : List Char} (h : (Token.sign s).Stops rest) {c : Char}
    {cs : List Char} (htext : s.text.toList = c :: cs) :
    first c (cs ++ rest) = ⟨.token (.sign s), cs.length⟩ := by
  have hat : Sign.atHead? (c :: (cs ++ rest)) = some s := by
    rw [← List.cons_append, ← htext, Sign.atHead?_text s h]
  have hplain : isLineBreak c = false ∧ (c = '\'' || c = '"') = false
      ∧ startsNumber (c :: (cs ++ rest)) = false ∧ isNameStart c = false := by
    cases s <;> cases htext <;> refine ⟨by decide, by decide, ?_, by decide⟩
    case dot =>
      cases rest with
      | nil => rfl
      | cons d ds => exact h d rfl
    all_goals rfl
  rw [first]
  have hlength : s.text.length = cs.length + 1 := by
    rw [← String.length_toList, htext, List.length_cons]
  simp only [hplain.1, hplain.2.1, hplain.2.2.1, hplain.2.2.2, hat, hlength]
  simp

/-! ### Names and reserved words -/

theorem takeWhile_append_of_stop {p : Char → Bool} {cs rest : List Char} (h : ∀ c ∈ cs, p c)
    (hrest : ∀ c ∈ rest.head?, p c = false) : (cs ++ rest).takeWhile p = cs := by
  rw [List.takeWhile_append_of_pos h]
  cases rest with
  | nil => simp
  | cons c cs => simp [hrest c rfl]

-- The text of a name or a reserved word.
structure IsWordText (s : String) : Prop where
  starts : ∃ c cs, s.toList = c :: cs ∧ isNameStart c
  continues : ∀ c ∈ s.toList, isNameContinue c

theorem exists_digitChar {c : Char} (h : c.isDigit) : ∃ d < 10, c = Nat.digitChar d := by
  have hc : Char.ofNat c.toNat = c := c.ofNat_toNat
  have hb : 48 ≤ c.toNat ∧ c.toNat ≤ 57 := Char.isDigit_iff_toNat.mp h
  refine ⟨c.toNat - 48, by omega, ?_⟩
  have : c.toNat = 48 ∨ c.toNat = 49 ∨ c.toNat = 50 ∨ c.toNat = 51 ∨ c.toNat = 52 ∨ c.toNat = 53
      ∨ c.toNat = 54 ∨ c.toNat = 55 ∨ c.toNat = 56 ∨ c.toNat = 57 := by omega
  rcases this with h | h | h | h | h | h | h | h | h | h <;> (rw [h] at hc ⊢; rw [← hc]; decide)

-- What holds of the ten digits holds of every digit.
theorem forall_isDigit {P : Char → Prop} (h : ∀ d < 10, P (Nat.digitChar d)) {c : Char}
    (hc : c.isDigit) : P c := by
  have ⟨d, hd, hcd⟩ := exists_digitChar hc
  exact hcd ▸ h d hd

theorem isNameStart_of_isDigit {c : Char} (h : c.isDigit) : isNameStart c = false :=
  forall_isDigit (P := fun c => isNameStart c = false) (by decide) h

theorem Piece.first_name {c : Char} {cs rest : List Char} (hc : isNameStart c)
    (hcs : ∀ d ∈ cs, isNameContinue d) (hrest : ∀ d ∈ rest.head?, isNameContinue d = false) :
    first c (cs ++ rest) = ⟨.token (nameToken (String.ofList (c :: cs))), cs.length⟩ := by
  have no {d : Char} (hd : isNameStart d = false) : c ≠ d := by
    rintro rfl
    exact absurd hc (by simp [hd])
  have hbreak : isLineBreak c = false := by
    simp [isLineBreak, no (d := '\r') (by decide), no (d := '\n') (by decide)]
  have hquote : (c = '\'' || c = '"') = false := by
    simp [no (d := '\'') (by decide), no (d := '"') (by decide)]
  have hnumber : startsNumber (c :: (cs ++ rest)) = false := by
    have hdigit : c.isDigit = false := by
      rw [Bool.eq_false_iff]
      exact fun h => absurd hc (by simp [isNameStart_of_isDigit h])
    unfold startsNumber
    split
    case h_1 heq => exact absurd (List.cons.inj heq).1 (no (by decide))
    case h_2 heq => rw [← (List.cons.inj heq).1, hdigit]
    case h_3 => rfl
  rw [first, hbreak, hquote, hnumber, name, takeWhile_append_of_stop hcs hrest]
  simp [hc]

/-! ### Whole numbers -/

open Piece

theorem isDigitOrUnderscore_of_isDigit {c : Char} (h : c.isDigit) : isDigitOrUnderscore c := by
  simp [isDigitOrUnderscore, h]

theorem isNameContinue_of_isDigit {c : Char} (h : c.isDigit) : isNameContinue c :=
  forall_isDigit (P := fun c => isNameContinue c = true) (by decide) h

theorem isNameContinue_of_isDigitOrUnderscore {c : Char} (h : isDigitOrUnderscore c) :
    isNameContinue c := by
  simp only [isDigitOrUnderscore, Bool.or_eq_true, decide_eq_true_eq] at h
  obtain h | rfl := h
  · exact isNameContinue_of_isDigit h
  · decide

theorem isNameContinue_of_isExponentMark {c : Char} (h : Decimal.isExponentMark c) :
    isNameContinue c := by
  simp only [Decimal.isExponentMark, Bool.or_eq_true, decide_eq_true_eq] at h
  obtain rfl | rfl := h <;> decide

theorem exponentLength_of_stop {rest : List Char}
    (h : ∀ c ∈ rest.head?, isNameContinue c = false) : exponentLength rest = 0 := by
  cases rest with
  | nil => rfl
  | cons c cs =>
    have hc : Decimal.isExponentMark c = false := by
      rw [Bool.eq_false_iff]
      exact fun hm => by simpa [isNameContinue_of_isExponentMark hm] using h c rfl
    rw [exponentLength]
    split <;> simp [hc]

theorem takeWhile_of_stop {p : Char → Bool} {rest : List Char}
    (h : ∀ c ∈ rest.head?, p c = false) : rest.takeWhile p = [] := by
  cases rest with
  | nil => rfl
  | cons c cs => rw [List.takeWhile_cons, h c rfl]; rfl

theorem fractionLength_of_stop {rest : List Char} (h : ∀ c ∈ rest.head?, c ≠ '.') :
    fractionLength rest = 0 := by
  unfold fractionLength
  split
  case h_1 cs => exact absurd rfl (h '.' rfl)
  case h_2 => rfl

-- A point behind which a name starts belongs to no number.
theorem fractionLength_point {c : Char} (hc : isNameStart c) (cs : List Char) :
    fractionLength ('.' :: c :: cs) = 0 := by
  simp [fractionLength, hc]

theorem numberLength_digits {ds rest : List Char} (hne : ds ≠ []) (hds : ∀ c ∈ ds, c.isDigit)
    (hrest : ∀ c ∈ rest.head?, isNameContinue c = false) (hfraction : fractionLength rest = 0) :
    numberLength (ds ++ rest) = ds.length := by
  have hcount : digitCount (ds ++ rest) = ds.length := by
    rw [digitCount, takeWhile_append_of_stop (fun c hc => isDigitOrUnderscore_of_isDigit (hds c hc))]
    intro c hc
    rw [Bool.eq_false_iff]
    exact fun h => by simpa [isNameContinue_of_isDigitOrUnderscore h] using hrest c hc
  have hpos : ds.length ≠ 0 := by simpa using hne
  simp only [numberLength, hcount, if_neg hpos]
  rw [List.drop_left, hfraction, Nat.add_zero, List.drop_left, exponentLength_of_stop hrest,
    Nat.add_zero]

theorem first_number {c : Char} {cs rest : List Char} (hc : c.isDigit) (hlength :
    numberLength (c :: cs ++ rest) = (c :: cs).length)
    (hrest : ∀ c ∈ rest.head?, isNameContinue c = false) :
    first c (cs ++ rest) = ⟨numberToken (c :: cs), cs.length⟩ := by
  have hbreak : isLineBreak c = false :=
    forall_isDigit (P := fun c => isLineBreak c = false) (by decide) hc
  have hquote : (c = '\'' || c = '"') = false :=
    forall_isDigit (P := fun c => (c = '\'' || c = '"') = false) (by decide) hc
  have hnumber : startsNumber (c :: (cs ++ rest)) = true := by
    unfold startsNumber
    split
    case h_1 heq => exact absurd ((List.cons.inj heq).1 ▸ hc) (by decide)
    case h_2 heq => rw [← (List.cons.inj heq).1, hc]
    case h_3 heq => cases heq
  rw [first, hbreak, hquote, hnumber, number]
  simp only [← List.cons_append, hlength]
  rw [List.drop_left, List.take_left, takeWhile_of_stop hrest]
  simp

theorem numberToken_toDigits {n : Nat} (hn : n < 2 ^ 63) :
    numberToken (Nat.toDigits 10 n) = .token (.int (Int64.ofNat n)) := by
  have hfilter : (Nat.toDigits 10 n).filter (· ≠ '_') = Nat.toDigits 10 n := by
    rw [List.filter_eq_self]
    exact fun c hc => forall_isDigit (P := fun c => decide (c ≠ '_') = true) (by decide)
      (Decimal.isDigit_of_mem_toDigits hc)
  have hplain : (Nat.toDigits 10 n).any (fun c => c = '.' || Decimal.isExponentMark c) = false := by
    rw [List.any_eq_false]
    intro c hc
    have := forall_isDigit (P := fun c => (c = '.' || Decimal.isExponentMark c) = false)
      (by decide) (Decimal.isDigit_of_mem_toDigits hc)
    simpa using this
  rw [numberToken, hfilter, hplain]
  simp only [Decimal.natOfDigits_toDigits]
  rw [if_neg (by simp)]
  exact if_pos hn

theorem toList_spelling_int {n : Int64} (h : 0 ≤ n.toInt) :
    (Token.int n).spelling.toList = Nat.toDigits 10 n.toInt.toNat := by
  rw [Token.spelling, Int.toString_eq_repr, Int.repr_eq_if, if_pos h, Nat.toList_repr]

theorem first_digits {n : Int64} (h : 0 ≤ n.toInt) {rest : List Char}
    (hrest : ∀ c ∈ rest.head?, isNameContinue c = false) (hfraction : fractionLength rest = 0)
    {c : Char} {cs : List Char} (htext : (Token.int n).spelling.toList = c :: cs) :
    first c (cs ++ rest) = ⟨.token (.int n), cs.length⟩ := by
  rw [toList_spelling_int h] at htext
  have hdigits (d : Char) (hd : d ∈ c :: cs) : d.isDigit :=
    Decimal.isDigit_of_mem_toDigits (htext ▸ hd)
  have hlt : n.toInt.toNat < 2 ^ 63 := by
    have := n.toInt_lt
    omega
  have hn : Int64.ofNat n.toInt.toNat = n := by
    rw [← Int64.ofInt_eq_ofNat, Int.toNat_of_nonneg h, Int64.ofInt_toInt]
  rw [first_number (hdigits c (by simp))
    (numberLength_digits (List.cons_ne_nil c cs) hdigits hrest hfraction) hrest, ← htext,
    numberToken_toDigits hlt, hn]

end NoteCell
