import NoteCell.Proofs.Lexing.Lossless
import NoteCell.Proofs.Lexing.Within

/-!
Sources with more text behind them. A source that ends in a line feed of its own is scanned as it is
alone, and what comes behind it as if that stood at its offset.
-/
namespace NoteCell

namespace Piece

/-! ### Lexemes with more text behind them -/

section

variable {quote c : Char} {cs : List Char} (more : List Char)

theorem quoted_append (hquote : quote ≠ '\\')
    (hmarks : [quote, quote].isPrefixOf (cs ++ more) = [quote, quote].isPrefixOf cs) {t : Token}
    (h : (quoted quote cs).lexeme = .token t) : quoted quote (cs ++ more) = quoted quote cs := by
  rw [quoted, quoted, hmarks]
  rw [quoted] at h
  split at h
  case isTrue hprefix =>
    rw [if_pos hprefix, if_pos hprefix]
    obtain ⟨ds, rfl⟩ := List.isPrefixOf_iff_prefix.mp hprefix
    cases hbody : longBody quote ds with
    | mk body closed =>
      have hdrop : ([quote, quote] ++ ds).drop 2 = ds := rfl
      rw [hdrop, hbody] at h
      obtain rfl := closed_of_string h
      have hbody' := longBody_append more hquote hbody
      simp [hbody, hbody']
  case isFalse hprefix =>
    rw [if_neg hprefix, if_neg hprefix]
    cases hbody : shortBody quote cs with
    | mk body closed =>
      rw [hbody] at h
      obtain rfl := closed_of_string h
      rw [shortBody_append more hquote hbody]

theorem quoted_ne_lineBreak : (quoted quote cs).lexeme ≠ .lineBreak := by
  have hstring (marks : Nat) (body : List Char) (closed : Bool) :
      (string marks body closed).lexeme ≠ .lineBreak := by
    cases closed with
    | false => exact fun h => by cases h
    | true =>
      rw [string]
      cases decode marks body <;> exact fun h => by cases h
  rw [quoted]
  split
  · exact hstring 3 _ _
  · exact hstring 1 _ _

theorem isLineBreak_of_lineBreak (h : (first c cs).lexeme = .lineBreak) : isLineBreak c := by
  by_contra hbreak
  rw [first, if_neg hbreak] at h
  split at h
  case isTrue => exact quoted_ne_lineBreak h
  split at h
  case isTrue =>
    have hnumber (cs : List Char) : numberToken cs ≠ .lineBreak := by
      rw [numberToken]
      dsimp only
      split
      · exact Lexeme.noConfusion
      · split <;> exact Lexeme.noConfusion
    rw [number] at h
    split at h
    · exact hnumber _ h
    · cases h
  split at h
  case isTrue => cases h
  split at h <;> cases h

-- A line break is one character, or two of which the second is a line feed.
theorem first_of_isLineBreak (hbreak : isLineBreak c) (cs : List Char) : first c cs = ⟨.lineBreak, 0⟩
    ∨ c = '\r' ∧ ∃ ds, cs = '\n' :: ds ∧ first c cs = ⟨.lineBreak, 1⟩ := by
  rw [first, if_pos hbreak]
  split
  case isTrue hpair =>
    obtain ⟨hc, hprefix⟩ : c = '\r' ∧ ['\n'] <+: cs := by simpa using hpair
    obtain ⟨ds, rfl⟩ := hprefix
    exact .inr ⟨hc, ds, rfl, rfl⟩
  case isFalse => exact .inl rfl

-- A literal ends in the mark that it began with.
theorem quoted_closed (hquote : quote ≠ '\\') {t : Token} (h : (quoted quote cs).lexeme = .token t) :
    ∃ before rest, cs = before ++ quote :: rest ∧ (quoted quote cs).extra = before.length + 1 := by
  rw [quoted] at h ⊢
  split at h
  case isTrue hprefix =>
    rw [if_pos hprefix]
    obtain ⟨ds, rfl⟩ := List.isPrefixOf_iff_prefix.mp hprefix
    have hdrop : ([quote, quote] ++ ds).drop 2 = ds := rfl
    rw [hdrop] at h ⊢
    cases hbody : longBody quote ds with
    | mk body closed =>
      rw [hbody] at h
      obtain rfl := closed_of_string h
      obtain ⟨⟨rest, rfl⟩, -⟩ := longBody_closed hquote hbody
      refine ⟨[quote, quote] ++ body ++ [quote, quote], rest, by simp, ?_⟩
      simp only [extra_string, List.length_append, List.length_cons, List.length_nil]
      omega
  case isFalse hprefix =>
    rw [if_neg hprefix]
    cases hbody : shortBody quote cs with
    | mk body closed =>
      rw [hbody] at h
      obtain rfl := closed_of_string h
      obtain ⟨⟨rest, rfl⟩, -⟩ := shortBody_closed hquote hbody
      refine ⟨body, rest, rfl, ?_⟩
      simp only [extra_string]
      omega

-- Whatever is no string ends within the text, a fault as well.
theorem first_extra_le_of_unquoted (hquote : (c = '\'' || c = '"') = false) :
    (first c cs).extra ≤ cs.length := by
  rw [first, hquote]
  split
  case isTrue =>
    dsimp only
    split
    case isTrue hprefix =>
      rw [Bool.and_eq_true, List.isPrefixOf_iff_prefix] at hprefix
      exact hprefix.2.length_le
    case isFalse => exact Nat.zero_le _
  case isFalse =>
    rw [if_neg Bool.false_ne_true]
    split
    case isTrue =>
      have hle := numberLength_le (c :: cs) (List.cons_ne_nil c cs)
      have htrailing : (((c :: cs).drop (numberLength (c :: cs))).takeWhile isNameContinue).length
          ≤ ((c :: cs).drop (numberLength (c :: cs))).length := (List.takeWhile_prefix _).length_le
      rw [List.length_drop] at htrailing
      rw [List.length_cons] at hle htrailing
      rw [number]
      split <;> dsimp only <;> omega
    case isFalse =>
      split
      case isTrue => exact (List.takeWhile_prefix _).length_le
      case isFalse =>
        split
        case h_1 s hsign =>
          have hle := (Sign.text_of_atHead? hsign).length_le
          rw [List.length_cons, String.length_toList] at hle
          exact Nat.sub_le_of_le_add hle
        case h_2 => exact Nat.zero_le _

theorem first_extra_le (hfault : ∀ f offset, (first c cs).lexeme ≠ .fault f offset) :
    (first c cs).extra ≤ cs.length := by
  by_cases hquote : c = '\'' || c = '"'
  case neg => exact first_extra_le_of_unquoted (Bool.eq_false_iff.mpr hquote)
  case pos =>
    have hbreak : isLineBreak c = false := by
      obtain rfl | rfl : c = '\'' ∨ c = '"' := by simpa using hquote
      all_goals rfl
    rw [first, hbreak, if_neg Bool.false_ne_true, if_pos hquote] at hfault ⊢
    cases hlexeme : (quoted c cs).lexeme with
    | token t =>
      obtain ⟨before, rest, rfl, hextra⟩ := quoted_closed (by rintro rfl; cases hquote) hlexeme
      rw [hextra, List.length_append, List.length_cons]
      omega
    | fault f offset => exact (hfault f offset hlexeme).elim
    | lineBreak => exact (quoted_ne_lineBreak hlexeme).elim

-- Such a fault is one of the whole piece.
theorem offset_of_unquoted (hquote : (c = '\'' || c = '"') = false) {f : LexFault} {offset : Nat}
    (h : (first c cs).lexeme = .fault f offset) : offset = 0 := by
  have hnumber (part : List Char) (hpart : numberToken part = .fault f offset) : offset = 0 := by
    rw [numberToken] at hpart
    dsimp only at hpart
    split at hpart
    case isTrue => cases hpart
    case isFalse =>
      split at hpart <;> cases hpart
      rfl
  rw [first, hquote] at h
  split at h
  case isTrue => cases h
  case isFalse =>
    rw [if_neg Bool.false_ne_true] at h
    split at h
    case isTrue =>
      rw [number] at h
      split at h
      case isTrue => exact hnumber _ h
      case isFalse =>
        cases h
        rfl
    case isFalse =>
      split at h
      case isTrue => cases h
      case isFalse =>
        split at h <;> cases h
        rfl

-- No token ends in a line feed.
theorem getLast?_of_token {t : Token} (h : (first c cs).lexeme = .token t)
    (hextra : (first c cs).extra = cs.length) : (c :: cs).getLast? ≠ some '\n' := by
  intro hlast
  have hbreak : isLineBreak c = false := by
    rw [Bool.eq_false_iff]
    intro hbreak
    rw [first, if_pos hbreak] at h
    cases h
  by_cases hquote : c = '\'' || c = '"'
  case pos =>
    rw [first, hbreak, if_neg Bool.false_ne_true, if_pos hquote] at h hextra
    obtain ⟨before, rest, rfl, hclosed⟩ := quoted_closed (by rintro rfl; cases hquote) h
    obtain rfl : rest = [] := by
      rw [hclosed, List.length_append, List.length_cons] at hextra
      exact List.eq_nil_of_length_eq_zero (by omega)
    rw [← List.cons_append, List.getLast?_concat] at hlast
    cases hlast
    cases hquote
  case neg =>
    have hquote := Bool.eq_false_iff.mpr hquote
    cases cs with
    | nil =>
      cases hlast
      cases hbreak
    | cons d ds =>
      rw [List.getLast?_cons_cons] at hlast
      obtain ⟨before, hcs⟩ := List.getLast?_eq_some_iff.mp hlast
      rw [hcs, first_lineBreak rfl before [] hbreak hquote] at h hextra
      have hle := @first_extra_le c before (by simp [h])
      rw [hextra, List.length_append, List.length_singleton] at hle
      omega

-- The text ends in a line feed, and it is well cut.
theorem first_append (hlast : (c :: cs).getLast? = some '\n')
    (hfault : ∀ f offset, (first c cs).lexeme ≠ .fault f offset) :
    first c (cs ++ more) = first c cs := by
  by_cases hbreak : isLineBreak c
  case pos =>
    cases cs with
    | nil =>
      obtain rfl : c = '\n' := Option.some.inj hlast
      rfl
    | cons d ds => simp [first, hbreak, List.isPrefixOf]
  case neg =>
    have hends : EndsInBreak cs := by
      cases cs with
      | nil =>
        obtain rfl : c = '\n' := Option.some.inj hlast
        exact (hbreak rfl).elim
      | cons d ds => exact EndsInBreak.tail ⟨'\n', hlast, rfl⟩ (List.cons_ne_nil d ds)
    have hextra : (first c cs).extra ≠ cs.length := by
      cases hlexeme : (first c cs).lexeme with
      | token t => exact fun hextra => getLast?_of_token hlexeme hextra hlast
      | fault f offset => exact (hfault f offset hlexeme).elim
      | lineBreak => exact (hbreak (isLineBreak_of_lineBreak hlexeme)).elim
    have hwithin := @first_within c cs [] hends
    rw [List.append_nil] at hwithin
    exact hwithin (Nat.lt_of_le_of_ne (first_extra_le hfault) hextra) more

end

end Piece

/-! ### Sources with more text behind them -/

theorem paddingLength_append {flag : Bool} {text : List Char}
    (hlt : paddingLength flag text < text.length) (hlast : text.getLast? = some '\n')
    (more : List Char) : paddingLength flag (text ++ more) = paddingLength flag text := by
  have hwithin := @paddingLength_within flag text [] ⟨'\n', hlast, rfl⟩
  rw [List.append_nil] at hwithin
  exact hwithin hlt more

-- A text that ends in a line feed, and with it a lexeme.
structure EndsWith (offset : Nat) (text : List Char) (i : Scanned) : Prop where
  feed : text.getLast? = some '\n'
  last : i ∈ (scanFrom offset text).getLast?
  stop : i.span.stop = offset + utf8Length text

section

variable {offset : Nat} {text cs : List Char} {c : Char} {i : Scanned}

-- The padding of a text ends where its first lexeme starts.
theorem lead_append (hdrop : text.drop (paddingLength false text) = c :: cs) :
    text = text.take (paddingLength false text) ++ c :: cs
      ∧ paddingLength false text = (text.take (paddingLength false text)).length := by
  have hlength := congrArg List.length hdrop
  rw [List.length_drop, List.length_cons] at hlength
  refine ⟨by rw [← hdrop, List.take_append_drop], ?_⟩
  rw [List.length_take]
  omega

-- What stands before a lexeme, the lexeme and the rest make up a text.
theorem utf8Length_parts (hdrop : text.drop (paddingLength false text) = c :: cs) (n : Nat) :
    offset + utf8Length (text.take (paddingLength false text)) + utf8Length (c :: cs.take n)
      + utf8Length (cs.drop n) = offset + utf8Length text := by
  have hrest : utf8Length (c :: cs.take n) + utf8Length (cs.drop n) = utf8Length (c :: cs) := by
    rw [← utf8Length_append, List.cons_append, List.take_append_drop]
  have htext := utf8Length_append (text.take (paddingLength false text)) (c :: cs)
  rw [← hdrop, List.take_append_drop, hdrop, ← hrest] at htext
  omega

theorem EndsWith.tail (h : EndsWith offset text i)
    (hdrop : text.drop (paddingLength false text) = c :: cs) : (c :: cs).getLast? = some '\n' := by
  have hfeed := h.feed
  rwa [← List.take_append_drop (paddingLength false text) text, hdrop,
    List.getLast?_append_of_ne_nil _ (List.cons_ne_nil c cs)] at hfeed

-- The last lexeme is the first, or it is the last of the text behind that.
theorem EndsWith.rest (h : EndsWith offset text i)
    (hdrop : text.drop (paddingLength false text) = c :: cs) :
    let piece := Piece.first c cs
    let lead := text.take (paddingLength false text)
    let stop := offset + utf8Length lead + utf8Length (c :: cs.take piece.extra)
    if cs.drop piece.extra = [] then i.lexeme = piece.lexeme
    else EndsWith stop (cs.drop piece.extra) i := by
  intro piece lead stop
  have hlength : stop + utf8Length (cs.drop piece.extra) = offset + utf8Length text :=
    utf8Length_parts hdrop piece.extra
  have hlast := h.last
  rw [scanFrom_cons hdrop] at hlast
  change i ∈ (Scanned.mk lead piece.lexeme ⟨offset + utf8Length lead, stop⟩
    :: scanFrom stop (cs.drop piece.extra)).getLast? at hlast
  split
  case isTrue hend =>
    rw [hend, scanFrom_nil (by simp [paddingLength]), List.getLast?_singleton,
      Option.mem_some_iff] at hlast
    rw [← hlast]
  case isFalse hmore =>
    obtain ⟨d, ds, hrest⟩ := List.exists_cons_of_ne_nil hmore
    refine ⟨?_, ?_, hlength ▸ h.stop⟩
    · have htail := h.tail hdrop
      cases cs with
      | nil => simp at hmore
      | cons e es =>
        rw [List.getLast?_cons_cons] at htail
        rwa [List.getLast?_drop, if_neg fun hle => hmore (List.drop_eq_nil_of_le hle)]
    · cases hitems : scanFrom stop (cs.drop piece.extra) with
      | nil =>
        rw [hitems, List.getLast?_singleton, Option.mem_some_iff] at hlast
        have hpos := d.utf8Size_pos
        have hstop : stop = offset + utf8Length text := (congrArg (·.span.stop) hlast).trans h.stop
        rw [hrest, utf8Length_cons] at hlength
        omega
      | cons j items => rwa [hitems, List.getLast?_cons_cons] at hlast

-- No token goes up to a line feed, so that the lexeme is a line break.
theorem EndsWith.lineBreak (h : EndsWith offset text i)
    (hfault : ∀ i ∈ scanFrom offset text, ∀ f at_, i.lexeme ≠ .fault f at_) :
    i.lexeme = .lineBreak := by
  induction offset, text using scanFrom.induct
  case case1 offset text hend =>
    have hlast := h.last
    rw [scanFrom_nil hend] at hlast
    cases hlast
  case case2 offset text lead c cs hdrop piece start stop ih =>
    have htail := h.tail hdrop
    have hrest := h.rest hdrop
    rw [scanFrom_cons hdrop] at hfault
    obtain ⟨hpiece, hfault⟩ := List.forall_mem_cons.mp hfault
    dsimp only at hrest
    split at hrest
    case isFalse => exact ih hrest hfault
    case isTrue hend =>
      have hextra : piece.extra = cs.length :=
        Nat.le_antisymm (Piece.first_extra_le hpiece) (List.drop_eq_nil_iff.mp hend)
      rw [hrest]
      cases hlexeme : (Piece.first c cs).lexeme with
      | lineBreak => rfl
      | fault f at_ => exact (hpiece f at_ hlexeme).elim
      | token t => exact (Piece.getLast?_of_token hlexeme hextra htail).elim

-- More text behind such a text changes nothing of its lexemes.
theorem scanFrom_append (hfault : ∀ i ∈ scanFrom offset text, ∀ f at_, i.lexeme ≠ .fault f at_)
    (hends : text ≠ [] → EndsWith offset text i) (more : List Char) : scanFrom offset (text ++ more)
      = scanFrom offset text ++ scanFrom (offset + utf8Length text) more := by
  induction offset, text using scanFrom.induct
  case case1 offset text hend =>
    obtain rfl : text = [] := by
      by_contra hne
      have hlast := (hends hne).last
      rw [scanFrom_nil hend] at hlast
      cases hlast
    rw [scanFrom_nil hend]
    rfl
  case case2 offset text lead c cs h piece start stop ih =>
    obtain ⟨htext, hlength⟩ : text = lead ++ c :: cs ∧ _ = lead.length := lead_append h
    have hends := hends (by simp [htext])
    have hrest := hends.rest h
    rw [scanFrom_cons h] at hfault
    obtain ⟨hpiece, hfault⟩ := List.forall_mem_cons.mp hfault
    have hlead : paddingLength false text < text.length := by
      have htotal := congrArg List.length htext
      rw [List.length_append, List.length_cons] at htotal
      omega
    have hcut : Piece.first c (cs ++ more) = piece := Piece.first_append more (hends.tail h) hpiece
    have hextra : piece.extra ≤ cs.length := Piece.first_extra_le hpiece
    have hdrop : (text ++ more).drop (paddingLength false (text ++ more)) = c :: (cs ++ more) := by
      rw [paddingLength_append hlead hends.feed, List.drop_append_of_le_length hlead.le, h,
        List.cons_append]
    have hlength : stop + utf8Length (cs.drop piece.extra) = offset + utf8Length text :=
      utf8Length_parts h piece.extra
    have ih := ih hfault fun hmore => by
      dsimp only at hrest
      rwa [if_neg hmore] at hrest
    rw [scanFrom_cons hdrop, scanFrom_cons h, paddingLength_append hlead hends.feed,
      List.take_append_of_le_length hlead.le, hcut, List.take_append_of_le_length hextra,
      List.drop_append_of_le_length hextra, List.cons_append, ← hlength]
    exact congrArg _ ih

end

end NoteCell
