import NoteCell.Proofs.Lexing.Appended
import NoteCell.Proofs.Lexing.Lines

/-!
Lexemes in front of other texts. Where a lexeme ends shows in what stands right behind it, so that it
is cut off alike before any text that starts the same, or with what divides lexemes.
-/
namespace NoteCell

-- The characters that end whatever lexeme stands before them.
def divides (c : Char) : Bool := c = ')' || isPadding c

-- A text that ends a lexeme where another text did.
inductive EndsAlike : List Char → List Char → Prop
  | divided {more more' : List Char} (h : ∀ d ∈ more'.head?, divides d) : EndsAlike more more'
  -- A number goes on at a point only when there is no name behind that.
  | shared {d : Char} {more more' : List Char} (h : d = '.' → more.head? = more'.head?) :
    EndsAlike (d :: more) (d :: more')

section

variable {more more' : List Char}

theorem EndsAlike.head {p : Char → Bool} (h : EndsAlike more more') (hp : ∀ d, divides d → p d = false)
    (hmore : ∀ d ∈ more.head?, p d = false) : ∀ d ∈ more'.head?, p d = false := by
  cases h with
  | divided h => exact fun d hd => hp d (h d hd)
  | shared => exact hmore

theorem forall_divides {P : Char → Prop}
    (h : P ')' ∧ P ' ' ∧ P '\t' ∧ P '\x0c' ∧ P '#' ∧ P '\\') : ∀ d, divides d → P d := by
  intro d hd
  simp only [divides, isPadding, Bool.or_eq_true, decide_eq_true_eq] at hd
  obtain rfl | (((rfl | rfl) | rfl) | rfl) | rfl := hd <;> simp only [h]

theorem isNameContinue_of_divides : ∀ d, divides d → isNameContinue d = false :=
  forall_divides (P := fun d => isNameContinue d = false) (by decide)

end

namespace Piece

/-! ### Numbers -/

section

variable {cs more more' : List Char}

-- An exponent that nothing is left behind of.
theorem exponentLength_before (h : ∀ d ∈ more.head?, isNameContinue d = false)
    (hall : exponentLength cs = cs.length) : exponentLength (cs ++ more) = cs.length := by
  by_cases hzero : exponentLength cs = 0
  case pos =>
    obtain rfl := List.eq_nil_of_length_eq_zero (hall ▸ hzero)
    exact exponentLength_of_stop h
  case neg =>
    obtain ⟨mark, sign, d, rest, rfl, hmark, hd, hsign⟩ := exists_exponent hzero
    have hassoc : mark :: (sign ++ d :: rest) ++ more = mark :: (sign ++ d :: (rest ++ more)) := by simp
    rw [hassoc, exponentLength_parts hmark hd hsign, digitCount_before h,
      ← exponentLength_parts hmark hd hsign, hall]

-- A fraction that ends at a point of what follows, which no digits follow.
theorem fractionLength_point (hhead : more.head? = more'.head?)
    (h : fractionLength (cs ++ '.' :: more) = fractionLength cs) :
    fractionLength (cs ++ '.' :: more') = fractionLength cs := by
  by_cases hne : ∀ c ∈ cs.head?, c ≠ '.'
  case pos =>
    cases cs with
    | cons c cs =>
      rw [fractionLength_of_ne hne, fractionLength_of_ne (by simpa using hne)]
    | nil =>
      cases more with
      | nil => cases h
      | cons d more =>
        obtain ⟨ds, rfl⟩ : ∃ ds, more' = d :: ds := by
          cases more' <;> simp_all
        rw [List.nil_append, fractionLength_cons] at h ⊢
        split at h
        case isTrue hd => exact if_pos hd
        case isFalse =>
          rw [Nat.add_comm] at h
          cases h
  case neg =>
    obtain ⟨ds, rfl⟩ : ∃ ds, cs = '.' :: ds := by
      cases cs <;> simp_all
    cases ds with
    | nil => cases h
    | cons d ds =>
      have hstop : ∀ d ∈ ('.' :: more').head?, isNameContinue d = false := by
        intro d hd
        cases hd
        decide
      rw [List.cons_append, List.cons_append, fractionLength_cons, fractionLength_cons,
        ← List.cons_append, digitCount_before hstop]

theorem numberLength_alike (h : EndsAlike more more') (hne : cs ≠ [])
    (hmore : ∀ d ∈ more.head?, isNameContinue d = false)
    (hlength : numberLength (cs ++ more) = cs.length) : numberLength (cs ++ more') = cs.length := by
  have hmore' : ∀ d ∈ more'.head?, isNameContinue d = false := h.head isNameContinue_of_divides hmore
  -- The number is as long on its own, and so is its mantissa.
  have halone := @numberLength_take (cs ++ more)
  have hmantissa := @mantissaLength_take (cs ++ more)
  rw [hlength, List.take_left] at halone hmantissa
  have hfraction : digitCount cs ≠ 0 → fractionLength (cs.drop (digitCount cs) ++ more')
      = fractionLength (cs.drop (digitCount cs)) := by
    intro hdigits
    cases h with
    | divided hdivided =>
      have hpoint : ∀ d ∈ more'.head?, d ≠ '.' := fun d hd =>
        forall_divides (P := (· ≠ '.')) (by decide) d (hdivided d hd)
      exact fractionLength_before hmore' hpoint _
    | @shared d more more' hshared =>
      by_cases hpoint : d = '.'
      case neg => exact fractionLength_before hmore' (by simpa using hpoint) _
      case pos =>
        subst hpoint
        rw [mantissaLength, mantissaLength, digitCount_before hmore, if_neg hdigits, if_neg hdigits,
          List.drop_append_of_le_length (digitCount_le cs)] at hmantissa
        exact fractionLength_point (hshared rfl) (Nat.add_left_cancel hmantissa.symm)
  have hle := mantissaLength_le cs hne
  rw [numberLength_eq] at halone
  have hexponent : exponentLength (cs.drop (mantissaLength cs)) = (cs.drop (mantissaLength cs)).length := by
    rw [List.length_drop]
    omega
  rw [numberLength_eq, mantissaLength_before hmore' hne hfraction, List.drop_append_of_le_length hle,
    exponentLength_before hmore' hexponent, List.length_drop]
  omega

theorem of_number {t : Token} (h : number (cs ++ more) = ⟨.token t, cs.length - 1⟩) (hne : cs ≠ []) :
    numberLength (cs ++ more) = cs.length ∧ (∀ d ∈ more.head?, isNameContinue d = false)
      ∧ numberToken cs = .token t := by
  have hextra := (number_take (congrArg Piece.lexeme h)).1
  have hpos := numberLength_pos (cs ++ more)
  have hlength : numberLength (cs ++ more) = cs.length := by
    have := List.length_pos_of_ne_nil hne
    rw [h] at hextra
    dsimp only at hextra
    omega
  rw [number, hlength] at h
  rw [List.drop_left, List.take_left] at h
  split at h
  case isTrue htrailing =>
    refine ⟨hlength, fun d hd => ?_, congrArg Piece.lexeme h⟩
    cases more with
    | nil => cases hd
    | cons c more =>
      obtain rfl : c = d := Option.some.inj hd
      rw [Bool.eq_false_iff]
      intro hc
      rw [List.takeWhile_cons, hc] at htrailing
      cases htrailing
  case isFalse => cases congrArg Piece.lexeme h

theorem number_eq (hlength : numberLength (cs ++ more) = cs.length)
    (hmore : ∀ d ∈ more.head?, isNameContinue d = false) :
    number (cs ++ more) = ⟨numberToken cs, cs.length - 1⟩ := by
  rw [number, hlength, List.drop_left, List.take_left, takeWhile_of_stop hmore]
  rfl

theorem startsNumber_append (h : startsNumber cs) (more : List Char) : startsNumber (cs ++ more) := by
  rw [startsNumber.eq_def] at h
  split at h
  case h_1 => exact h
  case h_2 d ds hpoint =>
    have hd : d ≠ '.' := by
      rintro rfl
      cases h
    rw [List.cons_append, startsNumber.eq_2 _ _ (by simp [hd])]
    exact h
  case h_3 => cases h

end

/-! ### Lexemes -/

section

variable {c : Char} {part more more' : List Char} {t : Token}

-- A literal that is followed by more marks than it ends in is empty.
theorem quoted_alike (h : EndsAlike more more') (hquote : c ≠ '\\') (hdivides : ∀ d, divides d → d ≠ c)
    (hpiece : quoted c (part ++ more) = ⟨.token t, part.length⟩) :
    quoted c (part ++ more') = ⟨.token t, part.length⟩ := by
  have halone := quoted_take hquote (congrArg Piece.lexeme hpiece)
  rw [hpiece, List.take_left] at halone
  have hmarks : [c, c].isPrefixOf (part ++ more') = [c, c].isPrefixOf part := by
    obtain ⟨before, rest, hpart, -⟩ := quoted_closed hquote (congrArg Piece.lexeme halone)
    match part with
    | [] => simp at hpart
    | a :: b :: part => exact marks_append more' (Nat.le_add_left 2 part.length)
    | [a] =>
      obtain rfl : a = c := by
        cases before <;> simp_all
      -- A third mark would have opened a longer literal.
      have hmore : ∀ d ∈ more.head?, (d == a) = false := by
        intro d hd
        rw [beq_eq_false_iff_ne]
        rintro rfl
        obtain ⟨ds, rfl⟩ : ∃ ds, more = d :: ds := by
          cases more <;> simp_all
        rw [quoted, if_pos (by simp [List.isPrefixOf])] at hpiece
        cases hbody : longBody d (([d] ++ d :: ds).drop 2) with
        | mk body closed =>
          rw [hbody] at hpiece
          obtain rfl := closed_of_string (congrArg Piece.lexeme hpiece)
          have hextra : 2 * 3 + body.length - 1 = 1 := congrArg Piece.extra hpiece
          omega
      have hmore' := h.head (fun d hd => beq_eq_false_iff_ne.mpr (hdivides d hd)) hmore
      cases more' with
      | nil => rfl
      | cons d ds =>
        have hd : (a == d) = false := BEq.comm.trans (hmore' d rfl)
        simp [List.isPrefixOf, hd]
  rw [quoted_append more' hquote hmarks (congrArg Piece.lexeme halone), halone]

theorem name_alike (h : EndsAlike more more') (hc : isNameStart c)
    (hpiece : name c (part ++ more) = ⟨.token t, part.length⟩) :
    first c (part ++ more') = ⟨.token t, part.length⟩ := by
  have hpart : (part ++ more).takeWhile isNameContinue = part :=
    (List.prefix_of_prefix_length_le (List.takeWhile_prefix _) (List.prefix_append part more)
      (Nat.le_of_eq (congrArg Piece.extra hpiece))).eq_of_length (congrArg Piece.extra hpiece)
  have hcontinues : ∀ d ∈ part, isNameContinue d := fun d hd => List.mem_takeWhile_imp (hpart ▸ hd)
  have hmore : ∀ d ∈ more.head?, isNameContinue d = false := by
    rw [List.takeWhile_append_of_pos hcontinues, List.append_right_eq_self] at hpart
    intro d hd
    cases more with
    | nil => cases hd
    | cons e more =>
      obtain rfl : e = d := Option.some.inj hd
      rw [Bool.eq_false_iff]
      intro he
      rw [List.takeWhile_cons, he] at hpart
      cases hpart
  have htoken : Lexeme.token (nameToken (String.ofList (c :: part))) = .token t := by
    have hlexeme := congrArg Piece.lexeme hpiece
    rw [name] at hlexeme
    rwa [hpart] at hlexeme
  rw [first_name hc hcontinues (h.head isNameContinue_of_divides hmore), htoken]

end

end Piece

theorem Sign.stops_of_atHead? {s : Sign} {more : List Char}
    (h : atHead? (s.text.toList ++ more) = some s)
    (hnumber : Piece.startsNumber (s.text.toList ++ more) = false) : (Token.sign s).Stops more := by
  intro d hd
  obtain ⟨ds, rfl⟩ : ∃ ds, more = d :: ds := by
    cases more <;> simp_all
  rw [Bool.eq_false_iff]
  intro hruns
  cases s <;> simp only [Token.runsOn, runsOn, Bool.or_eq_true, beq_iff_eq, Bool.false_eq_true] at hruns
  case dot => exact Bool.false_ne_true (hnumber.symm.trans hruns)
  case star | slash =>
    obtain rfl | rfl := hruns <;> simp [atHead?, longestFirst, text, List.find?, List.isPrefixOf] at h
    split at h <;> cases h
  all_goals
    subst hruns
    simp [atHead?, longestFirst, text, List.find?, List.isPrefixOf] at h

namespace Piece

section

variable {c : Char} {part more more' : List Char} {t : Token} {lexeme : Lexeme}

theorem first_token_alike (h : EndsAlike more more')
    (hpiece : first c (part ++ more) = ⟨.token t, part.length⟩) :
    first c (part ++ more') = ⟨.token t, part.length⟩ := by
  rw [first] at hpiece
  split at hpiece
  case isTrue => cases congrArg Piece.lexeme hpiece
  case isFalse hbreak =>
  split at hpiece
  case isTrue hquote =>
    rw [first, if_neg hbreak, if_pos hquote]
    have hmark : c = '\'' ∨ c = '"' := by simpa using hquote
    refine quoted_alike h ?_ ?_ hpiece <;> obtain rfl | rfl := hmark
    · decide
    · decide
    · exact forall_divides (by decide)
    · exact forall_divides (by decide)
  case isFalse hquote =>
  split at hpiece
  case isTrue hnumber =>
    rw [← List.cons_append] at hpiece
    obtain ⟨hlength, hmore, htoken⟩ := of_number hpiece (List.cons_ne_nil c part)
    have hlength' := numberLength_alike h (List.cons_ne_nil c part) hmore hlength
    have hstarts := startsNumber_take hnumber
    rw [← List.cons_append, hlength, List.take_left] at hstarts
    have hstarts' := startsNumber_append hstarts more'
    rw [List.cons_append] at hstarts'
    rw [first, if_neg hbreak, if_neg hquote, if_pos hstarts', ← List.cons_append,
      number_eq hlength' (h.head isNameContinue_of_divides hmore), htoken]
    rfl
  case isFalse hnumber =>
  split at hpiece
  case isTrue hname => exact name_alike h hname hpiece
  case isFalse =>
  cases hsign : Sign.atHead? (c :: (part ++ more)) with
  | none =>
    rw [hsign] at hpiece
    cases congrArg Piece.lexeme hpiece
  | some s =>
    rw [hsign] at hpiece
    obtain ⟨rest, hrest⟩ := Sign.text_of_atHead? hsign
    obtain ⟨d, ds, htext⟩ : ∃ d ds, s.text.toList = d :: ds := by
      cases s <;> exact ⟨_, _, rfl⟩
    have hlength : ds.length = part.length := by
      have hextra : s.text.length - 1 = part.length := congrArg Piece.extra hpiece
      rwa [← String.length_toList, htext] at hextra
    rw [htext, List.cons_append, List.cons.injEq] at hrest
    obtain ⟨rfl, hrest⟩ := hrest
    obtain ⟨rfl, -⟩ := List.append_inj hrest hlength
    have hstops : (Token.sign s).Stops more := by
      refine Sign.stops_of_atHead? ?_ ?_
      · rw [htext]
        exact hsign
      · rw [htext]
        exact Bool.eq_false_iff.mpr hnumber
    have hstops' : (Token.sign s).Stops more' := by
      refine h.head (forall_divides ?_) hstops
      cases s <;> decide
    rw [first_sign s hstops' htext]
    exact congrArg (Piece.mk · ds.length) (congrArg Piece.lexeme hpiece)

theorem first_alike (h : EndsAlike more more') (hfault : ∀ f offset, lexeme ≠ .fault f offset)
    (hpiece : first c (part ++ more) = ⟨lexeme, part.length⟩) :
    first c (part ++ more') = ⟨lexeme, part.length⟩ := by
  cases lexeme with
  | token t => exact first_token_alike h hpiece
  | fault f offset => exact (hfault f offset rfl).elim
  | lineBreak =>
    have hbreak := isLineBreak_of_lineBreak (congrArg Piece.lexeme hpiece)
    rw [first, if_pos hbreak] at hpiece ⊢
    cases part with
    | cons d ds => exact hpiece
    | nil =>
      by_cases hc : c = '\r'
      case neg => simp [hc]
      case pos =>
        subst hc
        -- A line feed would have been a part of the line break.
        have hmore : ∀ d ∈ more.head?, (d == '\n') = false := by
          intro d hd
          obtain ⟨ds, rfl⟩ : ∃ ds, more = d :: ds := by
            cases more <;> simp_all
          rw [beq_eq_false_iff_ne]
          rintro rfl
          cases hpiece
        have hmore' := h.head (forall_divides (by decide)) hmore
        cases more' with
        | nil => rfl
        | cons d ds =>
          have hd : ('\n' == d) = false := BEq.comm.trans (hmore' d rfl)
          simp [List.isPrefixOf, hd]

end

end Piece

/-! ### Padding -/

theorem paddingLength_cons {c : Char} (hc : c ≠ '\\') (cs : List Char) : paddingLength false (c :: cs)
    = if c = ' ' || c = '\t' || c = '\x0c' then 1 + paddingLength false cs
      else if c = '#' then 1 + paddingLength true cs else 0 :=
  paddingLength.eq_6 _ _ (fun _ h => (hc h).elim) (fun _ h => (hc h).elim) fun _ h => (hc h).elim

-- A backslash is no padding on its own.
theorem paddingLength_ne_one (cs : List Char) : paddingLength false ('\\' :: cs) ≠ 1 := by
  rw [paddingLength.eq_def]
  split
  case h_1 heq => cases heq
  case h_2 heq _ => cases heq
  case h_6 heq =>
    injection heq with hc
    subst hc
    exact Nat.zero_ne_one
  all_goals omega

-- Padding stays what it is before what is none. A carriage return takes up a line feed behind it,
-- and a comment whatever does not break its line.
theorem paddingLength_replaced {flag : Bool} {lead rest rest' : List Char}
    (h : paddingLength flag (lead ++ rest) = lead.length) (hrest : ∀ c ∈ rest'.head?, isPadding c = false)
    (hfeed : rest'.head? = some '\n' → rest.head? = some '\n')
    (hcomment : flag = true ∨ '#' ∈ lead → ∀ c ∈ rest'.head?, isLineBreak c) :
    paddingLength flag (lead ++ rest') = lead.length := by
  induction flag, lead using paddingLength.induct
  case case1 flag =>
    cases rest' with
    | nil => simp [paddingLength]
    | cons c cs =>
      cases flag with
      | false => exact paddingLength_of_not_padding (hrest c rfl) cs
      | true => exact (paddingLength.eq_2 c cs).trans (if_pos (hcomment (.inl rfl) c rfl))
  case case2 c cs hbreak =>
    rw [List.cons_append, paddingLength, if_pos hbreak] at h
    cases h
  case case3 c cs hbreak ih =>
    rw [List.cons_append, paddingLength, if_neg hbreak, List.length_cons] at h ⊢
    rw [ih (by omega) fun _ => hcomment (.inl rfl)]
    omega
  case case4 cs ih =>
    simp only [List.cons_append, paddingLength, List.length_cons] at h ⊢
    rw [ih (by omega) fun hhash => hcomment (hhash.imp_right (by simp [·]))]
    omega
  case case5 cs hcrlf ih =>
    have hclear {more : List Char} (hmore : cs = [] → more.head? ≠ some '\n') (ds : List Char)
        (hds : cs ++ more = '\n' :: ds) : False := by
      cases cs with
      | nil => exact hmore rfl (congrArg List.head? hds)
      | cons d cs =>
        injection hds with hd
        exact hcrlf cs (hd ▸ rfl)
    have hends (hnil : cs = []) : rest.head? ≠ some '\n' := by
      subst hnil
      intro hhead
      obtain ⟨ds, rfl⟩ : ∃ ds, rest = '\n' :: ds := by
        cases rest <;> simp_all
      simp only [List.cons_append, List.nil_append, paddingLength, List.length_cons, List.length_nil] at h
      omega
    have hrest := hclear hends
    have hrest' := hclear fun hnil hhead => hends hnil (hfeed hhead)
    simp only [List.cons_append, List.length_cons] at h ⊢
    rw [paddingLength.eq_4 _ hrest] at h
    rw [paddingLength.eq_4 _ hrest', ih (by omega) fun hhash => hcomment (hhash.imp_right (by simp [·]))]
    omega
  case case6 cs ih =>
    simp only [List.cons_append, paddingLength, List.length_cons] at h ⊢
    rw [ih (by omega) fun hhash => hcomment (hhash.imp_right (by simp [·]))]
    omega
  case case7 c cs hcrlf hcr hlf hblank ih =>
    have hc : c ≠ '\\' := by
      rintro rfl
      cases hblank
    rw [List.cons_append, paddingLength_cons hc, if_pos hblank, List.length_cons] at h ⊢
    rw [ih (by omega) fun hhash => hcomment (hhash.imp_right (List.mem_cons_of_mem c))]
    omega
  case case8 cs hcrlf hcr hlf hblank ih =>
    rw [List.cons_append, paddingLength_cons (by decide), if_neg hblank, if_pos rfl,
      List.length_cons] at h ⊢
    rw [ih (by omega) fun _ => hcomment (.inr List.mem_cons_self)]
    omega
  case case9 c cs hcrlf hcr hlf hblank hhash =>
    by_cases hc : c = '\\'
    case neg =>
      rw [List.cons_append, paddingLength_cons hc, if_neg hblank, if_neg hhash] at h
      cases h
    case pos =>
      subst hc
      cases cs with
      | cons d cs =>
        have hjoin {e : Char} (he : ∀ ds, '\\' = '\\' → d :: cs = e :: ds → False) (ds : List Char)
            (_ : '\\' = '\\') (hds : d :: cs ++ rest = e :: ds) : False := by
          injection hds with hd
          exact he cs rfl (hd ▸ rfl)
        rw [List.cons_append, paddingLength.eq_6 _ _ (fun ds => hjoin hcr _) (hjoin hcr) (hjoin hlf),
          if_neg hblank, if_neg hhash] at h
        cases h
      | nil => exact (paddingLength_ne_one rest h).elim

end NoteCell
