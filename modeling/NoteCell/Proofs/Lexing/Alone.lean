import NoteCell.Proofs.Lexing.Strings

/-!
Tokens on their own. A lexeme that is a token is cut off alike when nothing stands behind it.
-/
namespace NoteCell.Piece

/-! ### Strings -/

section

variable {quote c : Char} {cs body : List Char}

theorem shortBody_cons (hc : c ≠ '\\') (cs : List Char) :
    shortBody quote (c :: cs) = if c = quote then ([], true) else if isLineBreak c then ([], false)
      else (c :: (shortBody quote cs).1, (shortBody quote cs).2) := by
  rw [shortBody.eq_3 _ _ _ fun _ _ h _ => hc h]
  simp [hc]

theorem longBody_cons (hc : c ≠ '\\') (cs : List Char) :
    longBody quote (c :: cs) = if c = quote && [quote, quote].isPrefixOf cs then ([], true)
      else (c :: (longBody quote cs).1, (longBody quote cs).2) := by
  rw [longBody.eq_3 _ _ _ fun _ _ h _ => hc h]

-- A closed body is followed by its quotation mark, and closed wherever that follows.
theorem shortBody_closed (hquote : quote ≠ '\\') (h : shortBody quote cs = (body, true)) :
    (∃ rest, cs = body ++ quote :: rest) ∧ shortBody quote (body ++ [quote]) = (body, true) := by
  induction cs using shortBody.induct quote generalizing body
  case case1 => simp [shortBody] at h
  case case2 c cs inner closed hinner ih =>
    simp only [shortBody, hinner, Prod.mk.injEq] at h
    obtain ⟨rfl, rfl⟩ := h
    obtain ⟨⟨rest, hrest⟩, halone⟩ := ih hinner
    refine ⟨⟨rest, by rw [hrest]; rfl⟩, ?_⟩
    simp only [List.cons_append, shortBody, halone]
  case case3 cs _ =>
    rw [shortBody_cons hquote, if_pos rfl] at h
    obtain ⟨rfl, -⟩ := Prod.mk.inj h
    refine ⟨⟨cs, rfl⟩, ?_⟩
    rw [List.nil_append, shortBody_cons hquote, if_pos rfl]
  case case4 c cs hpair hne hstop =>
    rw [shortBody.eq_3 _ _ _ hpair, if_neg hne, if_pos hstop] at h
    cases h
  case case5 c cs hpair hne hstop inner closed hinner ih =>
    have hplain : c ≠ '\\' ∧ isLineBreak c = false := by simpa using hstop
    rw [shortBody_cons hplain.1, if_neg hne, hinner] at h
    simp only [hplain.2, Bool.false_eq_true, if_false, Prod.mk.injEq] at h
    obtain ⟨rfl, rfl⟩ := h
    obtain ⟨⟨rest, hrest⟩, halone⟩ := ih hinner
    refine ⟨⟨rest, by rw [hrest]; rfl⟩, ?_⟩
    rw [List.cons_append, shortBody_cons hplain.1, if_neg hne, halone]
    simp [hplain.2]

-- Whether a mark closes the literal shows in the two characters behind it.
theorem isPrefixOf_closing (body rest : List Char) :
    [quote, quote].isPrefixOf (body ++ quote :: quote :: quote :: rest)
      = [quote, quote].isPrefixOf (body ++ [quote, quote, quote]) := by
  match body with
  | [] => simp [List.isPrefixOf]
  | [_] => simp [List.isPrefixOf]
  | _ :: _ :: _ => simp [List.isPrefixOf]

theorem longBody_closed (hquote : quote ≠ '\\') (h : longBody quote cs = (body, true)) :
    (∃ rest, cs = body ++ quote :: quote :: quote :: rest)
      ∧ longBody quote (body ++ [quote, quote, quote]) = (body, true) := by
  induction cs using longBody.induct quote generalizing body
  case case1 => simp [longBody] at h
  case case2 c cs inner closed hinner ih =>
    simp only [longBody, hinner, Prod.mk.injEq] at h
    obtain ⟨rfl, rfl⟩ := h
    obtain ⟨⟨rest, hrest⟩, halone⟩ := ih hinner
    refine ⟨⟨rest, by rw [hrest]; rfl⟩, ?_⟩
    simp only [List.cons_append, longBody, halone]
  case case3 c cs hpair hclosing =>
    obtain ⟨rfl, hprefix⟩ : c = quote ∧ [quote, quote] <+: cs := by simpa using hclosing
    rw [longBody_cons hquote, if_pos hclosing] at h
    obtain ⟨rfl, -⟩ := Prod.mk.inj h
    obtain ⟨rest, rfl⟩ := hprefix
    refine ⟨⟨rest, rfl⟩, ?_⟩
    rw [List.nil_append, longBody_cons hquote]
    simp
  case case4 c cs hpair hclosing inner closed hinner ih =>
    rw [longBody.eq_3 _ _ _ hpair, if_neg hclosing, hinner, Prod.mk.injEq] at h
    obtain ⟨rfl, rfl⟩ := h
    obtain ⟨⟨rest, hrest⟩, halone⟩ := ih hinner
    have hslash : c ≠ '\\' := by
      rintro rfl
      cases inner <;> exact hpair _ _ rfl hrest
    refine ⟨⟨rest, by rw [hrest]; rfl⟩, ?_⟩
    rw [hrest, isPrefixOf_closing] at hclosing
    rw [List.cons_append, longBody_cons hslash, if_neg hclosing, halone]

theorem closed_of_string {marks : Nat} {closed : Bool} {t : Token}
    (h : (string marks body closed).lexeme = .token t) : closed = true := by
  cases closed
  case true => rfl
  case false => cases h

theorem extra_string (marks : Nat) (body : List Char) :
    (string marks body true).extra = 2 * marks + body.length - 1 := rfl

theorem quoted_take {t : Token} (hquote : quote ≠ '\\')
    (h : (quoted quote cs).lexeme = .token t) :
    quoted quote (cs.take (quoted quote cs).extra) = quoted quote cs := by
  cases hprefix : [quote, quote].isPrefixOf cs
  case true =>
    obtain ⟨cs, rfl⟩ := List.isPrefixOf_iff_prefix.mp hprefix
    cases hbody : longBody quote cs with
    | mk body closed =>
      have hquoted : quoted quote ([quote, quote] ++ cs) = string 3 body closed := by
        simp [quoted, hbody]
      rw [hquoted] at h ⊢
      obtain rfl := closed_of_string h
      obtain ⟨⟨rest, rfl⟩, halone⟩ := longBody_closed hquote hbody
      have htake : ([quote, quote] ++ (body ++ quote :: quote :: quote :: rest)).take
          (string 3 body true).extra = [quote, quote] ++ (body ++ [quote, quote, quote]) := by
        have happend : [quote, quote] ++ (body ++ quote :: quote :: quote :: rest)
            = [quote, quote] ++ (body ++ [quote, quote, quote]) ++ rest := by
          simp
        rw [happend]
        apply List.take_left'
        simp only [List.length_append, List.length_cons, List.length_nil, extra_string]
        omega
      rw [htake]
      simp [quoted, halone]
  case false =>
    cases hbody : shortBody quote cs with
    | mk body closed =>
      have hquoted : quoted quote cs = string 1 body closed := by
        simp [quoted, hbody, hprefix]
      rw [hquoted] at h ⊢
      obtain rfl := closed_of_string h
      obtain ⟨⟨rest, rfl⟩, halone⟩ := shortBody_closed hquote hbody
      have htake : (body ++ quote :: rest).take (string 1 body true).extra = body ++ [quote] := by
        rw [List.append_cons]
        apply List.take_left'
        simp only [List.length_append, List.length_cons, List.length_nil, extra_string]
        omega
      have hnot : [quote, quote].isPrefixOf (body ++ [quote]) = false := by
        rw [Bool.eq_false_iff, ne_eq, List.isPrefixOf_iff_prefix] at hprefix ⊢
        intro halone
        apply hprefix
        rw [List.append_cons]
        exact halone.trans (List.prefix_append _ _)
      rw [htake]
      simp [quoted, halone, hnot]

end

/-! ### Numbers -/

section

variable {cs : List Char}

theorem digitCount_take {n : Nat} (h : digitCount cs ≤ n) :
    digitCount (cs.take n) = digitCount cs := by
  rw [digitCount, ← List.take_takeWhile, List.length_take]
  exact Nat.min_eq_right h

-- The whole part of a number with its fraction.
def mantissaLength (cs : List Char) : Nat :=
  if digitCount cs = 0 then 1 + digitCount (cs.drop 1)
  else digitCount cs + fractionLength (cs.drop (digitCount cs))

theorem numberLength_eq (cs : List Char) : numberLength cs
    = mantissaLength cs + exponentLength (cs.drop (mantissaLength cs)) := rfl

-- The parts of an exponent.
theorem exists_exponent (h : exponentLength cs ≠ 0) : ∃ mark sign d rest,
    cs = mark :: (sign ++ d :: rest) ∧ Decimal.isExponentMark mark ∧ d.isDigit
      ∧ (sign = [] ∨ sign = ['+'] ∨ sign = ['-']) := by
  cases cs with
  | nil => exact absurd rfl h
  | cons mark cs =>
    rw [exponentLength] at h
    split at h
    case h_1 d rest hdrop =>
      split at h
      case isTrue hmark =>
        obtain ⟨hmark, hd⟩ := Bool.and_eq_true_iff.mp hmark
        refine ⟨mark, cs.take (signLength cs), d, rest, ?_, hmark, hd, ?_⟩
        · rw [← hdrop, List.take_append_drop]
        · unfold signLength
          split <;> simp
      case isFalse => exact absurd rfl h
    case h_2 => exact absurd rfl h

theorem exponentLength_parts {mark d : Char} {sign rest : List Char}
    (hmark : Decimal.isExponentMark mark) (hd : d.isDigit)
    (hsign : sign = [] ∨ sign = ['+'] ∨ sign = ['-']) :
    exponentLength (mark :: (sign ++ d :: rest)) = 2 + sign.length + digitCount rest := by
  have hlength : signLength (sign ++ d :: rest) = sign.length :=
    signLength_append hsign fun c hc => Option.some.inj hc ▸ hd
  simp only [exponentLength, hlength, List.drop_left, hmark, hd, Bool.and_self, if_true]

theorem exponentLength_take :
    exponentLength (cs.take (exponentLength cs)) = exponentLength cs := by
  by_cases hzero : exponentLength cs = 0
  case pos =>
    rw [hzero]
    rfl
  case neg =>
    obtain ⟨mark, sign, d, rest, rfl, hmark, hd, hsign⟩ := exists_exponent hzero
    have htake : (mark :: (sign ++ d :: rest)).take (2 + sign.length + digitCount rest)
        = mark :: (sign ++ d :: rest.take (digitCount rest)) := by
      have hlength : 2 + sign.length + digitCount rest
          = (mark :: (sign ++ [d])).length + digitCount rest := by
        simp only [List.length_cons, List.length_append, List.length_nil]
        omega
      rw [List.append_cons, ← List.cons_append, hlength, List.take_length_add_append]
      simp
    rw [exponentLength_parts hmark hd hsign, htake, exponentLength_parts hmark hd hsign,
      digitCount_take (Nat.le_refl _)]

theorem exponentLength_of_not_mark {c : Char} (h : Decimal.isExponentMark c = false) :
    exponentLength (c :: cs) = 0 := by
  rw [exponentLength]
  split <;> simp [h]

theorem fractionLength_of_ne (h : ∀ c ∈ cs.head?, c ≠ '.') : fractionLength cs = 0 := by
  unfold fractionLength
  split
  case h_1 => exact absurd rfl (h '.' rfl)
  case h_2 => rfl

theorem fractionLength_cons (c : Char) (cs : List Char) : fractionLength ('.' :: c :: cs)
    = if isNameStart c || c = '.' then 0 else 1 + digitCount (c :: cs) := rfl

-- A fraction ends with its digits, whatever of the exponent is left behind it.
theorem fractionLength_take : fractionLength (cs.take (fractionLength cs
    + exponentLength (cs.drop (fractionLength cs)))) = fractionLength cs := by
  by_cases hpoint : ∀ c ∈ cs.head?, c ≠ '.'
  case pos =>
    rw [fractionLength_of_ne hpoint]
    refine fractionLength_of_ne fun c hc => hpoint c ?_
    rw [List.head?_take] at hc
    split at hc
    · cases hc
    · exact hc
  case neg =>
    obtain ⟨cs, rfl⟩ : ∃ ds, cs = '.' :: ds := by
      cases cs <;> simp_all
    cases cs with
    | nil => rfl
    | cons c ds =>
      rw [fractionLength_cons]
      split
      case isTrue =>
        rw [List.drop_zero, exponentLength_of_not_mark (by decide)]
        rfl
      case isFalse hc =>
        generalize exponentLength (('.' :: c :: ds).drop (1 + digitCount (c :: ds))) = n
        rw [Nat.add_assoc, Nat.add_comm 1, List.take_succ_cons]
        have hcount : digitCount ((c :: ds).take (digitCount (c :: ds) + n))
            = digitCount (c :: ds) :=
          digitCount_take (Nat.le_add_right _ n)
        cases htake : (c :: ds).take (digitCount (c :: ds) + n) with
        | nil =>
          rw [htake] at hcount
          rw [← hcount]
          rfl
        | cons d es =>
          obtain rfl : d = c := by
            have hhead := congrArg List.head? htake
            rw [List.head?_take] at hhead
            split at hhead
            · cases hhead
            · exact (Option.some.inj hhead).symm
          rw [fractionLength_cons, if_neg hc, ← htake, hcount, Nat.add_comm]

theorem mantissaLength_take : mantissaLength (cs.take (numberLength cs)) = mantissaLength cs := by
  have hcount : digitCount (cs.take (numberLength cs)) = digitCount cs := by
    by_cases hzero : digitCount cs = 0
    case pos =>
      rw [hzero, digitCount, ← List.take_takeWhile, List.length_take]
      exact Nat.min_eq_zero_iff.mpr (.inr hzero)
    case neg =>
      refine digitCount_take ?_
      rw [numberLength_eq, mantissaLength, if_neg hzero]
      omega
  rw [mantissaLength, mantissaLength, hcount]
  split
  case isTrue hzero =>
    rw [List.drop_take, digitCount_take]
    rw [numberLength_eq, mantissaLength, if_pos hzero]
    omega
  case isFalse hzero =>
    have hlength : numberLength cs - digitCount cs = fractionLength (cs.drop (digitCount cs))
        + exponentLength ((cs.drop (digitCount cs)).drop
          (fractionLength (cs.drop (digitCount cs)))) := by
      rw [numberLength_eq, mantissaLength, if_neg hzero, List.drop_drop]
      omega
    rw [List.drop_take, hlength, fractionLength_take]

theorem numberLength_take : numberLength (cs.take (numberLength cs)) = numberLength cs := by
  rw [numberLength_eq (cs.take _), mantissaLength_take, List.drop_take, numberLength_eq cs,
    Nat.add_sub_cancel_left, exponentLength_take]

theorem numberLength_pos (cs : List Char) : 0 < numberLength cs := by
  have hmantissa : 0 < mantissaLength cs := by
    unfold mantissaLength
    split <;> omega
  rw [numberLength_eq]
  omega

theorem startsNumber_take (h : startsNumber cs) : startsNumber (cs.take (numberLength cs)) := by
  obtain ⟨n, hn⟩ := Nat.exists_eq_succ_of_ne_zero (Nat.pos_iff_ne_zero.mp (numberLength_pos cs))
  rw [startsNumber.eq_def] at h
  split at h
  case h_1 d ds =>
    -- The digit behind the point is a part of the number.
    have hlength : 2 ≤ numberLength ('.' :: d :: ds) := by
      have hzero : digitCount ('.' :: d :: ds) = 0 := rfl
      have hone : 0 < digitCount (d :: ds) := by
        rw [digitCount, List.takeWhile_cons, isDigitOrUnderscore_of_isDigit h]
        exact Nat.succ_pos _
      rw [numberLength_eq, mantissaLength, if_pos hzero, List.drop_one, List.tail_cons]
      omega
    obtain ⟨k, hk⟩ := Nat.exists_eq_add_of_le hlength
    rw [hk, Nat.add_comm, List.take_succ_cons, List.take_succ_cons]
    exact h
  case h_2 d ds _ =>
    rw [hn, List.take_succ_cons, startsNumber.eq_2]
    · exact h
    · rintro e es rfl
      cases h
  case h_3 => cases h

theorem number_take {t : Token} (h : (number cs).lexeme = .token t) :
    (number cs).extra = numberLength cs - 1 ∧ number (cs.take (numberLength cs)) = number cs := by
  unfold number at h ⊢
  dsimp only at h ⊢
  split at h
  case isTrue htrailing =>
    rw [if_pos htrailing, numberLength_take, List.drop_take, Nat.sub_self, List.take_take,
      Nat.min_self]
    exact ⟨rfl, rfl⟩
  case isFalse => cases h

end

/-! ### Lexemes -/

variable {c : Char} {cs : List Char} {t : Token}

-- A token stays what it is when the text behind it is cut off.
theorem first_take (h : (first c cs).lexeme = .token t) :
    first c (cs.take (first c cs).extra) = first c cs := by
  by_cases hbreak : isLineBreak c
  case pos =>
    rw [first, if_pos hbreak] at h
    cases h
  by_cases hquote : c = '\'' || c = '"'
  case pos =>
    have hfirst (cs : List Char) : first c cs = quoted c cs := by
      rw [first, if_neg hbreak, if_pos hquote]
    rw [hfirst] at h ⊢
    rw [hfirst]
    refine quoted_take ?_ h
    rintro rfl
    cases hquote
  by_cases hnumber : startsNumber (c :: cs)
  case pos =>
    have hfirst {cs : List Char} (h : startsNumber (c :: cs)) : first c cs = number (c :: cs) := by
      rw [first, if_neg hbreak, if_neg hquote, if_pos h]
    rw [hfirst hnumber] at h ⊢
    obtain ⟨hextra, halone⟩ := number_take h
    have htake : c :: cs.take (numberLength (c :: cs) - 1)
        = (c :: cs).take (numberLength (c :: cs)) := by
      rw [← List.take_succ_cons, Nat.sub_add_cancel (numberLength_pos _)]
    have hstarts := startsNumber_take hnumber
    rw [← htake] at hstarts halone
    rw [hextra, hfirst hstarts, halone]
  by_cases hname : isNameStart c
  case pos =>
    have hfirst : first c cs = name c cs := by
      rw [first, if_neg hbreak, if_neg hquote, if_neg hnumber, if_pos hname]
    have htake : cs.take (name c cs).extra = cs.takeWhile isNameContinue :=
      (List.prefix_iff_eq_take.mp (List.takeWhile_prefix _)).symm
    have halone := @first_name c (cs.takeWhile isNameContinue) [] hname
      (fun d hd => List.mem_takeWhile_imp hd) (by simp)
    rw [hfirst, htake]
    rwa [List.append_nil] at halone
  case neg =>
    cases hsign : Sign.atHead? (c :: cs) with
    | none =>
      rw [first, if_neg hbreak, if_neg hquote, if_neg hnumber, if_neg hname, hsign] at h
      cases h
    | some s =>
      have hfirst : first c cs = ⟨.token (.sign s), s.text.length - 1⟩ := by
        rw [first, if_neg hbreak, if_neg hquote, if_neg hnumber, if_neg hname, hsign]
      obtain ⟨rest, hrest⟩ := Sign.text_of_atHead? hsign
      obtain ⟨d, ds, htext⟩ : ∃ d ds, s.text.toList = d :: ds := by
        cases s <;> exact ⟨_, _, rfl⟩
      rw [htext, List.cons_append, List.cons.injEq] at hrest
      obtain ⟨rfl, rfl⟩ := hrest
      have hlength : s.text.length - 1 = ds.length := by
        rw [← String.length_toList, htext, List.length_cons, Nat.add_sub_cancel]
      have halone := @first_sign s [] (by simp [Token.Stops]) d ds htext
      rw [List.append_nil] at halone
      rw [hfirst, hlength, List.take_left, halone]

end NoteCell.Piece
