import NoteCell.Proofs.Lexing.Alone

/-!
Lexemes within a text. What ends within a text that ends in a line break is cut off alike, whatever
stands behind the text.
-/
namespace NoteCell

-- A text that ends in a line break.
def EndsInBreak (text : List Char) : Prop := ∃ c ∈ text.getLast?, isLineBreak c

theorem EndsInBreak.tail {c : Char} {cs : List Char} (h : EndsInBreak (c :: cs)) (hne : cs ≠ []) :
    EndsInBreak cs := by
  obtain ⟨d, ds, rfl⟩ := List.exists_cons_of_ne_nil hne
  rwa [EndsInBreak, List.getLast?_cons_cons] at h

theorem EndsInBreak.append {text : List Char} (h : EndsInBreak text) (front : List Char) :
    EndsInBreak (front ++ text) := by
  obtain ⟨d, hd, hbreak⟩ := h
  refine ⟨d, ?_, hbreak⟩
  rw [List.getLast?_append, hd]
  rfl

namespace Piece

/-! ### Numbers in front of other texts -/

section

variable {cs more : List Char}

theorem takeWhile_before {p : Char → Bool} (h : ∀ d ∈ more.head?, p d = false) (cs : List Char) :
    (cs ++ more).takeWhile p = cs.takeWhile p := by
  rw [List.takeWhile_append]
  split
  case isTrue hall =>
    rw [takeWhile_of_stop h, List.append_nil,
      List.IsPrefix.eq_of_length (List.takeWhile_prefix p) hall]
  case isFalse => rfl

theorem digitCount_before (h : ∀ d ∈ more.head?, isNameContinue d = false) (cs : List Char) :
    digitCount (cs ++ more) = digitCount cs :=
  congrArg List.length (takeWhile_before (fun d hd => isDigitOrUnderscore_of_stop (h d hd)) cs)

theorem isNameStart_of_stop {c : Char} (h : isNameContinue c = false) : isNameStart c = false := by
  rw [isNameContinue, Bool.or_eq_false_iff] at h
  exact h.1

-- A point and what follows it, when more digits do not.
theorem fractionLength_before (h : ∀ d ∈ more.head?, isNameContinue d = false)
    (hpoint : ∀ d ∈ more.head?, d ≠ '.') (cs : List Char) :
    fractionLength (cs ++ more) = fractionLength cs := by
  by_cases hne : ∀ c ∈ cs.head?, c ≠ '.'
  case pos =>
    rw [fractionLength_of_ne hne, fractionLength_of_ne]
    cases cs with
    | nil => exact hpoint
    | cons => exact hne
  case neg =>
    obtain ⟨ds, rfl⟩ : ∃ ds, cs = '.' :: ds := by
      cases cs <;> simp_all
    cases ds with
    | cons d ds =>
      rw [List.cons_append, List.cons_append, fractionLength_cons, fractionLength_cons,
        ← List.cons_append, digitCount_before h]
    | nil =>
      cases more with
      | nil => rfl
      | cons d more =>
        have hstart := isNameStart_of_stop (h d rfl)
        have hcount := digitCount_before h []
        rw [List.nil_append] at hcount
        rw [List.singleton_append, fractionLength_cons, hcount, hstart,
          if_neg (by simpa using hpoint d rfl)]
        rfl

theorem digitCount_le (cs : List Char) : digitCount cs ≤ cs.length :=
  (List.takeWhile_prefix _).length_le

theorem mantissaLength_before (h : ∀ d ∈ more.head?, isNameContinue d = false) (hne : cs ≠ [])
    (hfraction : digitCount cs ≠ 0 → fractionLength (cs.drop (digitCount cs) ++ more)
      = fractionLength (cs.drop (digitCount cs))) :
    mantissaLength (cs ++ more) = mantissaLength cs := by
  have hpos : 1 ≤ cs.length := List.length_pos_of_ne_nil hne
  rw [mantissaLength, mantissaLength, digitCount_before h, List.drop_append_of_le_length hpos,
    digitCount_before h, List.drop_append_of_le_length (digitCount_le cs)]
  split
  case isTrue => rfl
  case isFalse hdigits => rw [hfraction hdigits]

end

/-! ### Lengths of numbers -/

section

variable (cs : List Char)

theorem signLength_le : signLength cs ≤ cs.length := by
  rw [signLength.eq_def]
  split <;> simp

theorem fractionLength_le : fractionLength cs ≤ cs.length := by
  by_cases hpoint : ∀ c ∈ cs.head?, c ≠ '.'
  case pos =>
    rw [fractionLength_of_ne hpoint]
    exact Nat.zero_le _
  case neg =>
    obtain ⟨ds, rfl⟩ : ∃ ds, cs = '.' :: ds := by
      cases cs <;> simp_all
    cases ds with
    | nil => exact Nat.le_refl 1
    | cons c ds =>
      rw [fractionLength_cons]
      split
      · exact Nat.zero_le _
      · rw [Nat.add_comm]
        exact Nat.succ_le_succ (digitCount_le _)

theorem mantissaLength_le (hne : cs ≠ []) : mantissaLength cs ≤ cs.length := by
  have hpos := List.length_pos_of_ne_nil hne
  have hdigits := digitCount_le (cs.drop 1)
  have hfraction := fractionLength_le (cs.drop (digitCount cs))
  have hwhole := digitCount_le cs
  rw [List.length_drop] at hdigits hfraction
  rw [mantissaLength]
  split <;> omega

theorem exponentLength_le : exponentLength cs ≤ cs.length := by
  by_cases hzero : exponentLength cs = 0
  case pos => exact hzero ▸ Nat.zero_le _
  case neg =>
    obtain ⟨mark, sign, d, rest, rfl, hmark, hd, hsign⟩ := exists_exponent hzero
    have hdigits := digitCount_le rest
    rw [exponentLength_parts hmark hd hsign]
    simp only [List.length_cons, List.length_append]
    omega

theorem numberLength_le (hne : cs ≠ []) : numberLength cs ≤ cs.length := by
  have hmantissa := mantissaLength_le cs hne
  have hexponent := exponentLength_le (cs.drop (mantissaLength cs))
  rw [List.length_drop] at hexponent
  rw [numberLength_eq]
  omega

end

/-! ### Lexemes in front of a line break -/

theorem of_isLineBreak {d : Char} {P : Char → Prop} (hd : isLineBreak d) (hcr : P '\r')
    (hlf : P '\n') : P d := by
  simp only [isLineBreak, Bool.or_eq_true, decide_eq_true_eq] at hd
  obtain rfl | rfl := hd
  · exact hcr
  · exact hlf

section

variable {c d : Char} (hd : isLineBreak d) (cs more : List Char)

include hd

theorem forall_head_lineBreak {p : Char → Bool} (hcr : p '\r' = false) (hlf : p '\n' = false) :
    ∀ e ∈ (d :: more).head?, p e = false := by
  have hp : p d = false := of_isLineBreak (P := fun e => p e = false) hd hcr hlf
  simpa using hp

theorem signLength_lineBreak : signLength (cs ++ d :: more) = signLength cs := by
  match cs with
  | [] => exact of_isLineBreak (P := fun e => signLength (e :: more) = 0) hd rfl rfl
  | c :: cs =>
    rw [List.cons_append, signLength.eq_def, signLength.eq_def]
    split <;> simp_all

theorem digitCount_lineBreak : digitCount (cs ++ d :: more) = digitCount cs :=
  digitCount_before (forall_head_lineBreak hd more (by decide) (by decide)) cs

theorem exponentLength_lineBreak : exponentLength (cs ++ d :: more) = exponentLength cs := by
  cases cs with
  | nil =>
    exact exponentLength_of_not_mark
      (of_isLineBreak (P := fun e => Decimal.isExponentMark e = false) hd (by decide) (by decide))
  | cons mark cs =>
    rw [List.cons_append, exponentLength, exponentLength, signLength_lineBreak hd,
      List.drop_append_of_le_length (signLength_le cs)]
    cases cs.drop (signLength cs) with
    | nil =>
      have hdigit : d.isDigit = false :=
        of_isLineBreak (P := fun e => e.isDigit = false) hd (by decide) (by decide)
      simp [hdigit]
    | cons e rest => simp only [List.cons_append, digitCount_lineBreak hd]

theorem mantissaLength_lineBreak (hne : cs ≠ []) :
    mantissaLength (cs ++ d :: more) = mantissaLength cs := by
  have hhead := forall_head_lineBreak hd more (p := isNameContinue) (by decide) (by decide)
  have hpoint : d ≠ '.' := of_isLineBreak (P := (· ≠ '.')) hd (by decide) (by decide)
  exact mantissaLength_before hhead hne fun _ => fractionLength_before hhead (by simpa using hpoint) _

theorem numberLength_lineBreak (hne : cs ≠ []) :
    numberLength (cs ++ d :: more) = numberLength cs := by
  rw [numberLength_eq, numberLength_eq, mantissaLength_lineBreak hd cs more hne,
    List.drop_append_of_le_length (mantissaLength_le cs hne), exponentLength_lineBreak hd]

theorem number_lineBreak (hne : cs ≠ []) : number (cs ++ d :: more) = number cs := by
  have hle := numberLength_le cs hne
  have hhead := forall_head_lineBreak hd more (p := isNameContinue) (by decide) (by decide)
  rw [number, number]
  simp only [numberLength_lineBreak hd cs more hne, List.drop_append_of_le_length hle,
    List.take_append_of_le_length hle, takeWhile_before hhead]

theorem startsNumber_lineBreak (hne : cs ≠ []) :
    startsNumber (cs ++ d :: more) = startsNumber cs := by
  match cs with
  | [c] =>
    by_cases hc : c = '.'
    case pos =>
      subst hc
      exact of_isLineBreak (P := fun e => e.isDigit = false) hd (by decide) (by decide)
    case neg =>
      rw [List.singleton_append, startsNumber.eq_2 _ _ (by simp [hc]), startsNumber.eq_2 _ _ (by simp)]
  | c :: e :: es =>
    by_cases hc : c = '.'
    case pos =>
      subst hc
      rfl
    case neg =>
      rw [List.cons_append, startsNumber.eq_2 _ _ (by simp [hc]), startsNumber.eq_2 _ _ (by simp [hc])]

omit hd in
theorem isPrefixOf_before {part : List Char} (hpart : d ∉ part) :
    part.isPrefixOf (cs ++ d :: more) = part.isPrefixOf cs := by
  induction part generalizing cs
  case nil => simp
  case cons e part ih =>
    obtain ⟨he, hpart⟩ := not_or.mp (List.mem_cons.not.mp hpart)
    cases cs with
    | nil =>
      have he : (e == d) = false := beq_eq_false_iff_ne.mpr (Ne.symm he)
      simp [List.isPrefixOf, he]
    | cons c cs => rw [List.cons_append, List.isPrefixOf, List.isPrefixOf, ih cs hpart]

theorem atHead?_lineBreak : Sign.atHead? (cs ++ d :: more) = Sign.atHead? cs := by
  have hsign (s : Sign) : d ∉ s.text.toList :=
    of_isLineBreak (P := (· ∉ s.text.toList)) hd (by cases s <;> decide) (by cases s <;> decide)
  simp only [Sign.atHead?, isPrefixOf_before _ _ (hsign _)]

-- What is no string ends before a line break.
theorem first_lineBreak (hbreak : isLineBreak c = false) (hquote : (c = '\'' || c = '"') = false) :
    first c (cs ++ d :: more) = first c cs := by
  rw [first, first, hbreak, hquote, ← List.cons_append, number_lineBreak hd _ _ (List.cons_ne_nil c cs),
    startsNumber_lineBreak hd _ _ (List.cons_ne_nil c cs), atHead?_lineBreak hd, name, name,
    takeWhile_before (forall_head_lineBreak hd more (by decide) (by decide))]
  simp only [Bool.false_eq_true, if_false]

end

/-! ### Strings in front of other texts -/

section

variable {quote c : Char} {cs body : List Char} (more : List Char)

-- A literal that is closed stays closed.
theorem shortBody_append (hquote : quote ≠ '\\') (h : shortBody quote cs = (body, true)) :
    shortBody quote (cs ++ more) = (body, true) := by
  induction cs using shortBody.induct quote generalizing body
  case case1 => simp [shortBody] at h
  case case2 c cs inner closed hinner ih =>
    simp only [shortBody, hinner, Prod.mk.injEq] at h
    obtain ⟨rfl, rfl⟩ := h
    simp only [List.cons_append, shortBody, ih hinner]
  case case3 cs hpair =>
    rw [shortBody_cons hquote, if_pos rfl] at h
    rw [List.cons_append, shortBody_cons hquote, if_pos rfl, h]
  case case4 c cs hpair hne hstop =>
    rw [shortBody.eq_3 _ _ _ hpair, if_neg hne, if_pos hstop] at h
    cases h
  case case5 c cs hpair hne hstop inner closed hinner ih =>
    have hplain : c ≠ '\\' ∧ isLineBreak c = false := by simpa using hstop
    rw [shortBody_cons hplain.1, if_neg hne, hinner] at h
    simp only [hplain.2, Bool.false_eq_true, if_false, Prod.mk.injEq] at h
    obtain ⟨rfl, rfl⟩ := h
    rw [List.cons_append, shortBody_cons hplain.1, if_neg hne, ih hinner]
    simp [hplain.2]

theorem marks_append (h : 2 ≤ cs.length) :
    [quote, quote].isPrefixOf (cs ++ more) = [quote, quote].isPrefixOf cs := by
  match cs with
  | a :: b :: cs => simp [List.isPrefixOf]

-- A single character that is no mark does not open a longer literal with what stands behind.
theorem marks_before (hne : cs ≠ []) (hmark : ∀ d, cs = [d] → d ≠ quote) :
    [quote, quote].isPrefixOf (cs ++ more) = [quote, quote].isPrefixOf cs := by
  match cs with
  | [] => exact (hne rfl).elim
  | [d] =>
    have hd : (quote == d) = false := beq_eq_false_iff_ne.mpr (hmark d rfl).symm
    simp [List.isPrefixOf, hd]
  | _ :: _ :: cs => exact marks_append more (Nat.le_add_left 2 cs.length)

theorem longBody_append (hquote : quote ≠ '\\') (h : longBody quote cs = (body, true)) :
    longBody quote (cs ++ more) = (body, true) := by
  induction cs using longBody.induct quote generalizing body
  case case1 => simp [longBody] at h
  case case2 c cs inner closed hinner ih =>
    simp only [longBody, hinner, Prod.mk.injEq] at h
    obtain ⟨rfl, rfl⟩ := h
    simp only [List.cons_append, longBody, ih hinner]
  case case3 c cs hpair hclosing =>
    obtain ⟨rfl, hprefix⟩ : c = quote ∧ [quote, quote] <+: cs := by simpa using hclosing
    rw [longBody_cons hquote, if_pos hclosing] at h
    rw [List.cons_append, longBody_cons hquote, marks_append more hprefix.length_le, if_pos hclosing,
      h]
  case case4 c cs hpair hclosing inner closed hinner ih =>
    rw [longBody.eq_3 _ _ _ hpair, if_neg hclosing, hinner, Prod.mk.injEq] at h
    obtain ⟨rfl, rfl⟩ := h
    obtain ⟨⟨rest, hrest⟩, -⟩ := longBody_closed hquote hinner
    have hslash : c ≠ '\\' := by
      rintro rfl
      cases inner <;> exact hpair _ _ rfl hrest
    have hlength : 2 ≤ cs.length := by
      rw [hrest]
      simp only [List.length_append, List.length_cons]
      omega
    rw [List.cons_append, longBody_cons hslash, marks_append more hlength, if_neg hclosing, ih hinner]

end

/-! ### Lexemes within a text -/

section

variable {quote c : Char} {text body more : List Char}

-- A literal that ends within a text which ends in a line break is cut off alike before all texts.
theorem shortBody_within (hquote : quote ≠ '\\') (hlast : EndsInBreak text)
    (h : (shortBody quote (text ++ more)).1.length < text.length) (more' : List Char) :
    shortBody quote (text ++ more') = shortBody quote (text ++ more) := by
  have hne {cs body : List Char} (h : body.length < cs.length) : cs ≠ [] :=
    List.ne_nil_of_length_pos (Nat.zero_lt_of_lt h)
  -- A backslash at the end of the text is no line break.
  have hslash {c : Char} {cs : List Char} (hlast : EndsInBreak (c :: cs))
      (hpair : ∀ d ds, c = '\\' → cs = d :: ds → False) : c ≠ '\\' := by
    rintro rfl
    cases cs with
    | cons d ds => exact hpair d ds rfl rfl
    | nil =>
      obtain ⟨d, hd, hbreak⟩ := hlast
      cases hd
      cases hbreak
  induction text using shortBody.induct quote
  case case1 => cases h
  case case2 c cs inner closed hinner ih =>
    have hlt : (shortBody quote (cs ++ more)).1.length < cs.length := by
      simpa [shortBody] using h
    have ih := ih ((hlast.tail (List.cons_ne_nil c cs)).tail (hne hlt)) hlt
    simp only [List.cons_append, shortBody, ih]
  case case3 cs hpair =>
    rw [List.cons_append, List.cons_append, shortBody_cons hquote, shortBody_cons hquote, if_pos rfl,
      if_pos rfl]
  case case4 c cs hpair hne' hstop =>
    have hc := hslash hlast hpair
    have hbreak : isLineBreak c := by simpa [hc] using hstop
    rw [List.cons_append, List.cons_append, shortBody_cons hc, shortBody_cons hc, if_neg hne',
      if_neg hne', if_pos hbreak, if_pos hbreak]
  case case5 c cs hpair hne' hstop inner closed hinner ih =>
    have hc := hslash hlast hpair
    have hbreak : ¬isLineBreak c := fun hbreak => hstop (by simp [hbreak])
    rw [List.cons_append, shortBody_cons hc, if_neg hne', if_neg hbreak] at h
    have hlt : (shortBody quote (cs ++ more)).1.length < cs.length := Nat.lt_of_succ_lt_succ h
    rw [List.cons_append, List.cons_append, shortBody_cons hc, shortBody_cons hc,
      ih (hlast.tail (hne hlt)) hlt]

-- A literal in tripled marks that is not closed goes on to the end of the text.
theorem longBody_open (h : longBody quote text = (body, false)) : body = text := by
  induction text using longBody.induct quote generalizing body
  case case1 => exact (Prod.mk.inj h).1.symm
  case case2 c cs inner closed hinner ih =>
    simp only [longBody, hinner, Prod.mk.injEq] at h
    obtain ⟨rfl, rfl⟩ := h
    rw [ih hinner]
  case case3 c cs hpair hclosing =>
    rw [longBody.eq_3 _ _ _ hpair, if_pos hclosing] at h
    cases h
  case case4 c cs hpair hclosing inner closed hinner ih =>
    rw [longBody.eq_3 _ _ _ hpair, if_neg hclosing, hinner, Prod.mk.injEq] at h
    obtain ⟨rfl, rfl⟩ := h
    rw [ih hinner]

theorem longBody_within (hquote : quote ≠ '\\') (h : longBody quote (text ++ more) = (body, true))
    (hlength : body.length + 3 ≤ text.length) (more' : List Char) :
    longBody quote (text ++ more') = (body, true) := by
  obtain ⟨⟨rest, htext⟩, halone⟩ := longBody_closed hquote h
  obtain ⟨rest', rfl⟩ : body ++ [quote, quote, quote] <+: text := by
    refine List.prefix_of_prefix_length_le ⟨rest, ?_⟩ (List.prefix_append text more)
      (by simpa using hlength)
    rw [htext, List.append_assoc]
    rfl
  rw [List.append_assoc]
  exact longBody_append _ hquote halone

theorem quoted_within (hquote : quote ≠ '\\') (hmark : isLineBreak quote = false)
    (hlast : EndsInBreak text) (h : (quoted quote (text ++ more)).extra < text.length)
    (more' : List Char) : quoted quote (text ++ more') = quoted quote (text ++ more) := by
  have hmarks (more : List Char) :
      [quote, quote].isPrefixOf (text ++ more) = [quote, quote].isPrefixOf text := by
    obtain ⟨d, hd, hbreak⟩ := hlast
    refine marks_before more (by rintro rfl; cases hd) ?_
    rintro e rfl rfl
    cases hd
    exact Bool.false_ne_true (hmark.symm.trans hbreak)
  rw [quoted, hmarks] at h
  rw [quoted, quoted, hmarks, hmarks]
  split at h
  case isTrue hprefix =>
    rw [if_pos hprefix, if_pos hprefix]
    obtain ⟨ds, rfl⟩ := List.isPrefixOf_iff_prefix.mp hprefix
    have hdrop (more : List Char) : ([quote, quote] ++ ds ++ more).drop 2 = ds ++ more := rfl
    rw [hdrop] at h ⊢
    rw [hdrop]
    cases hbody : longBody quote (ds ++ more) with
    | mk body closed =>
      rw [hbody] at h
      cases closed with
      | true =>
        rw [extra_string, List.length_append, List.length_cons, List.length_singleton] at h
        rw [longBody_within hquote hbody (by omega)]
      | false =>
        obtain rfl := longBody_open hbody
        simp only [string, Bool.false_eq_true, if_false, List.length_append, List.length_cons,
          List.length_nil] at h
        omega
  case isFalse hprefix =>
    rw [if_neg hprefix, if_neg hprefix, shortBody_within hquote hlast]
    cases hbody : shortBody quote (text ++ more) with
    | mk body closed =>
      rw [hbody] at h
      have hlt : body.length < text.length := by
        cases closed <;> simp only [string, Bool.false_eq_true, if_false, if_true] at h <;> omega
      exact hlt

-- So is any lexeme.
theorem first_within (hlast : EndsInBreak text) (h : (first c (text ++ more)).extra < text.length)
    (more' : List Char) : first c (text ++ more') = first c (text ++ more) := by
  by_cases hbreak : isLineBreak c
  case pos =>
    obtain ⟨d, ds, rfl⟩ := List.exists_cons_of_length_pos (Nat.zero_lt_of_lt h)
    simp [first, hbreak, List.isPrefixOf]
  case neg =>
    rw [Bool.not_eq_true] at hbreak
    by_cases hquote : c = '\'' || c = '"'
    case pos =>
      have hfirst (cs : List Char) : first c cs = quoted c cs := by
        rw [first, hbreak, if_neg Bool.false_ne_true, if_pos hquote]
      rw [hfirst] at h ⊢
      rw [hfirst]
      exact quoted_within (by rintro rfl; cases hquote) hbreak hlast h more'
    case neg =>
      obtain ⟨d, hd, hend⟩ := hlast
      obtain ⟨before, rfl⟩ := List.getLast?_eq_some_iff.mp hd
      have hquote := Bool.eq_false_iff.mpr hquote
      rw [List.append_assoc, List.append_assoc, List.singleton_append, List.singleton_append,
        first_lineBreak hend _ _ hbreak hquote, first_lineBreak hend _ _ hbreak hquote]

end

end Piece

/-! ### Padding within a text -/

-- Padding that ends within a text which ends in a line break does not depend on what stands behind.
theorem paddingLength_within {flag : Bool} {text more : List Char} (hbreak : EndsInBreak text)
    (hlt : paddingLength flag (text ++ more) < text.length) (more' : List Char) :
    paddingLength flag (text ++ more') = paddingLength flag (text ++ more) := by
  have hne (cs : List Char) {n : Nat} (hlt : n < cs.length) : cs ≠ [] :=
    List.ne_nil_of_length_pos (Nat.zero_lt_of_lt hlt)
  -- A backslash that joins no lines joins none with other text behind, as it is not the last character.
  have hhead {c d : Char} {cs : List Char} (hcs : c = '\\' → cs ≠ [])
      (hd : ∀ ds, c = '\\' → cs = d :: ds → False) (more ds : List Char) (hc : c = '\\')
      (h : cs ++ more = d :: ds) : False := by
    obtain ⟨e, cs, rfl⟩ := List.exists_cons_of_ne_nil (hcs hc)
    injection h with he
    exact hd cs hc (he ▸ rfl)
  have hplain {c : Char} {cs : List Char} (hcr : ∀ ds, c = '\\' → cs = '\r' :: ds → False)
      (hlf : ∀ ds, c = '\\' → cs = '\n' :: ds → False) (hcs : c = '\\' → cs ≠ []) (more : List Char) :
      paddingLength false (c :: (cs ++ more))
        = if c = ' ' || c = '\t' || c = '\x0c' then 1 + paddingLength false (cs ++ more)
          else if c = '#' then 1 + paddingLength true (cs ++ more) else 0 :=
    paddingLength.eq_6 _ _ (fun ds => hhead hcs hcr more _) (hhead hcs hcr more) (hhead hcs hlf more)
  induction flag, text using paddingLength.induct
  case case1 => cases hlt
  case case2 c cs hc =>
    rw [List.cons_append, List.cons_append, paddingLength, paddingLength, if_pos hc, if_pos hc]
  case case3 c cs hc ih =>
    rw [List.cons_append, paddingLength, if_neg hc, List.length_cons] at hlt
    have hlt : paddingLength true (cs ++ more) < cs.length := by omega
    rw [List.cons_append, List.cons_append, paddingLength, paddingLength, if_neg hc, if_neg hc,
      ih (hbreak.tail (hne cs hlt)) hlt]
  case case4 cs ih =>
    simp only [List.cons_append, paddingLength, List.length_cons] at hlt
    have hlt : paddingLength false (cs ++ more) < cs.length := by omega
    simp only [List.cons_append, paddingLength]
    rw [ih (((hbreak.tail (by simp)).tail (by simp)).tail (hne cs hlt)) hlt]
  case case5 cs hcrlf ih =>
    -- Only with nothing between could a line feed behind the text be a part of this line break.
    have hcs : cs ≠ [] := by
      rintro rfl
      cases more with
      | nil => simp [paddingLength] at hlt
      | cons d ds =>
        by_cases hd : d = '\n'
        case pos =>
          subst hd
          simp only [List.cons_append, List.nil_append, paddingLength, List.length_cons,
            List.length_nil] at hlt
          omega
        case neg =>
          rw [List.cons_append, List.cons_append, List.nil_append, paddingLength.eq_4 _ (by simp [hd])] at hlt
          simp only [List.length_cons, List.length_nil] at hlt
          omega
    have hcrlf' (more ds : List Char) (h : cs ++ more = '\n' :: ds) : False := by
      obtain ⟨d, cs, rfl⟩ := List.exists_cons_of_ne_nil hcs
      injection h with hd
      exact hcrlf cs (hd ▸ rfl)
    simp only [List.cons_append, List.length_cons] at hlt ⊢
    rw [paddingLength.eq_4 _ (hcrlf' more)] at hlt
    have hlt : paddingLength false (cs ++ more) < cs.length := by omega
    rw [paddingLength.eq_4 _ (hcrlf' more), paddingLength.eq_4 _ (hcrlf' more'),
      ih ((hbreak.tail (by simp)).tail hcs) hlt]
  case case6 cs ih =>
    simp only [List.cons_append, paddingLength, List.length_cons] at hlt
    have hlt : paddingLength false (cs ++ more) < cs.length := by omega
    simp only [List.cons_append, paddingLength]
    rw [ih ((hbreak.tail (by simp)).tail (hne cs hlt)) hlt]
  case case7 c cs hcrlf hcr hlf hblank ih =>
    have hslash : c = '\\' → cs ≠ [] := by
      rintro rfl
      cases hblank
    rw [List.cons_append, hplain hcr hlf hslash more, if_pos hblank, List.length_cons] at hlt
    have hlt : paddingLength false (cs ++ more) < cs.length := by omega
    rw [List.cons_append, List.cons_append, hplain hcr hlf hslash more, hplain hcr hlf hslash more',
      if_pos hblank, if_pos hblank, ih (hbreak.tail (hne cs hlt)) hlt]
  case case8 cs hcrlf hcr hlf hblank ih =>
    have hslash : '#' = '\\' → cs ≠ [] := fun h => by cases h
    rw [List.cons_append, hplain hcr hlf hslash more, if_neg hblank, if_pos rfl, List.length_cons] at hlt
    have hlt : paddingLength true (cs ++ more) < cs.length := by omega
    rw [List.cons_append, List.cons_append, hplain hcr hlf hslash more, hplain hcr hlf hslash more',
      if_neg hblank, if_neg hblank, if_pos rfl, if_pos rfl, ih (hbreak.tail (hne cs hlt)) hlt]
  case case9 c cs hcrlf hcr hlf hblank hhash =>
    have hslash : c = '\\' → cs ≠ [] := by
      rintro rfl rfl
      obtain ⟨d, hd, hbreak⟩ := hbreak
      cases hd
      cases hbreak
    rw [List.cons_append, List.cons_append, hplain hcr hlf hslash more, hplain hcr hlf hslash more',
      if_neg hblank, if_neg hblank, if_neg hhash, if_neg hhash]

end NoteCell
