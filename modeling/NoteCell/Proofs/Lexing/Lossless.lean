import NoteCell.Proofs.Lexing.Alone
import NoteCell.Proofs.Lexing.LaidOut

/-!
Lossless scanning. The lexemes of a source and the padding between them make up the whole of it, and
each token is what its own part of the source reads as.
-/
namespace NoteCell

open Piece

/-! ### Padding -/

-- Text that stands before `rest` and belongs to no lexeme.
inductive Padding (rest : List Char) : List Char → Prop
  | nil : Padding rest []
  | blank {c : Char} {cs : List Char} :
    c = ' ' ∨ c = '\t' ∨ c = '\x0c' → Padding rest cs → Padding rest (c :: cs)
  -- A comment goes on to the end of its line.
  | comment {cs : List Char} :
    (∀ c ∈ cs, isLineBreak c = false) → (∀ c ∈ rest.head?, isLineBreak c) → Padding rest ('#' :: cs)
  | joined {lineBreak cs : List Char} :
    lineBreak = ['\n'] ∨ lineBreak = ['\r'] ∨ lineBreak = ['\r', '\n'] → Padding rest cs →
      Padding rest ('\\' :: (lineBreak ++ cs))

theorem comment_take (cs : List Char) :
    (∀ c ∈ cs.take (paddingLength true cs), isLineBreak c = false)
      ∧ ∀ c ∈ (cs.drop (paddingLength true cs)).head?, isLineBreak c := by
  induction cs with
  | nil => simp
  | cons c cs ih =>
    rw [paddingLength]
    split
    case isTrue hbreak => simpa using hbreak
    case isFalse hbreak =>
      rw [Nat.add_comm, List.take_succ_cons, List.drop_succ_cons]
      exact ⟨List.forall_mem_cons.mpr ⟨Bool.eq_false_iff.mpr hbreak, ih.1⟩, ih.2⟩

theorem padding_take (text : List Char) :
    Padding (text.drop (paddingLength false text)) (text.take (paddingLength false text)) := by
  generalize hflag : false = flag
  induction flag, text using paddingLength.induct
  case case1 => exact .nil
  case case2 => cases hflag
  case case3 => cases hflag
  case case4 cs ih =>
    rw [paddingLength, Nat.add_comm]
    have hjoined := Padding.joined (.inr (.inr rfl)) (ih rfl)
    exact hjoined
  case case5 cs hcrlf ih =>
    rw [paddingLength.eq_4 _ hcrlf, Nat.add_comm]
    have hjoined := Padding.joined (.inr (.inl rfl)) (ih rfl)
    exact hjoined
  case case6 cs ih =>
    rw [paddingLength, Nat.add_comm]
    have hjoined := Padding.joined (.inl rfl) (ih rfl)
    exact hjoined
  case case7 c cs hcrlf hcr hlf hblank ih =>
    rw [paddingLength.eq_6 _ _ hcrlf hcr hlf, if_pos hblank, Nat.add_comm]
    exact .blank (by simpa [or_assoc] using hblank) (ih rfl)
  case case8 cs hcrlf hcr hlf hblank ih =>
    rw [paddingLength.eq_6 _ _ hcrlf hcr hlf, if_neg hblank, if_pos rfl, Nat.add_comm]
    exact .comment (comment_take cs).1 (comment_take cs).2
  case case9 c cs hcrlf hcr hlf hblank hhash =>
    rw [paddingLength.eq_6 _ _ hcrlf hcr hlf, if_neg hblank, if_neg hhash]
    exact .nil

/-! ### Parts of a source -/

-- A part of a source that is read as a source of its own: one token and the end of its line.
def Token.ReadsAlone (t : Token) (part : List Char) : Prop :=
  tokenize (String.ofList part) = ⟨[⟨t, ⟨0, utf8Length part⟩⟩,
    ⟨.newline, ⟨utf8Length part, utf8Length part⟩⟩], none⟩

theorem isPadding_of_token {c : Char} {cs : List Char} {t : Token}
    (h : (first c cs).lexeme = .token t) : isPadding c = false := by
  rw [Bool.eq_false_iff]
  intro hpadding
  have hsign : Sign.atHead? (c :: cs) = none := by
    rw [Option.eq_none_iff_forall_ne_some]
    intro s hs
    have htext := Sign.text_of_atHead? hs
    simp only [isPadding, Bool.or_eq_true, decide_eq_true_eq] at hpadding
    obtain (((rfl | rfl) | rfl) | rfl) | rfl := hpadding <;> cases s <;> simp [Sign.text] at htext
  have hplain : isLineBreak c = false ∧ (c = '\'' || c = '"') = false
      ∧ startsNumber (c :: cs) = false ∧ isNameStart c = false := by
    simp only [isPadding, Bool.or_eq_true, decide_eq_true_eq] at hpadding
    obtain (((rfl | rfl) | rfl) | rfl) | rfl := hpadding <;>
      exact ⟨by decide, by decide, rfl, by decide⟩
  rw [first, hplain.1, hplain.2.1, hplain.2.2.1, hplain.2.2.2, hsign] at h
  cases h

theorem scanFrom_alone {c : Char} {cs : List Char} {t : Token}
    (h : (first c cs).lexeme = .token t) :
    scanFrom 0 (c :: cs.take (first c cs).extra)
      = [⟨[], .token t, ⟨0, utf8Length (c :: cs.take (first c cs).extra)⟩⟩] := by
  have hlead : paddingLength false (c :: cs.take (first c cs).extra) = 0 :=
    paddingLength_of_not_padding (isPadding_of_token h) _
  have hdrop : (c :: cs.take (first c cs).extra).drop
      (paddingLength false (c :: cs.take (first c cs).extra))
        = c :: cs.take (first c cs).extra := by
    rw [hlead, List.drop_zero]
  rw [scanFrom_cons hdrop, first_take h, h, hlead]
  simp only [List.take_zero, utf8Length_nil, Nat.zero_add, List.take_take, Nat.min_self,
    List.drop_take, Nat.sub_self]
  rw [scanFrom_nil rfl]

theorem readsAlone_first {c : Char} {cs : List Char} {t : Token}
    (h : (first c cs).lexeme = .token t) : t.ReadsAlone (c :: cs.take (first c cs).extra) := by
  obtain ⟨brackets, hbrackets⟩ : ∃ brackets, Layout.bracketsAfter 0 t 0 = .ok brackets := by
    cases t
    case sign s => cases s <;> exact ⟨_, rfl⟩
    all_goals exact ⟨_, rfl⟩
  have hplace (span : Span) (hspan : span.start = 0) : Layout.placeToken .initial [] t span
      = .ok ([⟨t, span⟩], ⟨[], brackets, false, true⟩) := by
    simp only [Layout.placeToken, Layout.State.initial, hspan, hbrackets]
    rfl
  rw [Token.ReadsAlone, tokenize, scan, String.toList_ofList, scanFrom_alone h, Layout.arrange,
    ← utf8Length_toList, String.toList_ofList]
  simp only [hplace]
  rfl

/-! ### The cut -/

-- How a text that stands at an offset falls into padding and lexemes, with nothing left over.
inductive Cut : Nat → List Char → List Scanned → Prop
  | done {offset : Nat} {lead : List Char} : Padding [] lead → Cut offset lead []
  | lexeme {offset : Nat} {part rest : List Char} {item : Scanned} {items : List Scanned} :
    Padding (part ++ rest) item.lead → part ≠ [] →
      item.span = ⟨offset + utf8Length item.lead,
        offset + utf8Length item.lead + utf8Length part⟩ →
      (∀ t, item.lexeme = .token t → t.ReadsAlone part) → Cut item.span.stop rest items →
      Cut offset (item.lead ++ (part ++ rest)) (item :: items)

theorem cut_scanFrom (offset : Nat) (text : List Char) :
    Cut offset text (scanFrom offset text) := by
  induction offset, text using scanFrom.induct
  case case1 offset text hend =>
    have hpadding := padding_take text
    have htext := List.take_append_drop (paddingLength false text) text
    rw [hend] at hpadding htext
    rw [List.append_nil] at htext
    rw [scanFrom_nil hend]
    exact .done (htext ▸ hpadding)
  case case2 offset text lead c cs h piece start stop ih =>
    have hpadding := padding_take text
    have hparts : c :: cs = (c :: cs.take piece.extra) ++ cs.drop piece.extra := by
      rw [List.cons_append, List.take_append_drop]
    have htext : text = lead ++ ((c :: cs.take piece.extra) ++ cs.drop piece.extra) := by
      rw [← hparts, ← h, List.take_append_drop]
    rw [h, hparts] at hpadding
    have hcut := @Cut.lexeme offset _ _ ⟨lead, piece.lexeme, ⟨start, stop⟩⟩ _ hpadding
      (List.cons_ne_nil _ _) rfl (fun t ht => readsAlone_first ht) ih
    rw [← htext] at hcut
    rw [scanFrom_cons h]
    exact hcut

namespace Cut

variable {offset : Nat} {text : List Char} {items : List Scanned}

theorem start_le (h : Cut offset text items) : ∀ i ∈ items, offset ≤ i.span.start := by
  induction h
  case done => exact nofun
  case lexeme offset part rest item items _ _ hspan _ _ ih =>
    have hstart : offset ≤ item.span.start := by
      rw [hspan]
      exact Nat.le_add_right _ _
    have hstop : item.span.start ≤ item.span.stop := by
      rw [hspan]
      exact Nat.le_add_right _ _
    exact List.forall_mem_cons.mpr
      ⟨hstart, fun i hi => Nat.le_trans (Nat.le_trans hstart hstop) (ih i hi)⟩

theorem increasing (h : Cut offset text items) :
    items.Pairwise fun i j => i.span.stop ≤ j.span.start := by
  induction h
  case done => exact .nil
  case lexeme hrest ih => exact .cons hrest.start_le ih

theorem nonempty (h : Cut offset text items) : ∀ i ∈ items, i.span.start < i.span.stop := by
  induction h
  case done => exact nofun
  case lexeme part _ item _ _ hpart hspan _ _ ih =>
    refine List.forall_mem_cons.mpr ⟨?_, ih⟩
    obtain ⟨c, cs, rfl⟩ := List.exists_cons_of_ne_nil hpart
    rw [hspan, utf8Length_cons]
    have := c.utf8Size_pos
    dsimp only
    omega

end Cut

-- The part of a source that stands at a span.
def Slice (source : String) (span : Span) (part : List Char) : Prop :=
  ∃ before after, source.toList = before ++ part ++ after
    ∧ span = ⟨utf8Length before, utf8Length before + utf8Length part⟩

theorem Cut.slice {source : String} {before text : List Char} {items : List Scanned}
    (hsource : source.toList = before ++ text) (h : Cut (utf8Length before) text items)
    {i : Scanned} (hi : i ∈ items) {t : Token} (ht : i.lexeme = .token t) :
    ∃ part, Slice source i.span part ∧ t.ReadsAlone part := by
  generalize hoffset : utf8Length before = offset at h
  induction h generalizing before
  case done => cases hi
  case lexeme offset part rest item items _ _ hspan halone _ ih =>
    obtain rfl | hi := List.mem_cons.mp hi
    · refine ⟨part, ⟨before ++ i.lead, rest, by simp [hsource], ?_⟩, halone t ht⟩
      rw [hspan, utf8Length_append, hoffset]
    · have hbefore : source.toList = (before ++ item.lead ++ part) ++ rest := by
        simp [hsource]
      refine ih hbefore hi ?_
      rw [hspan, utf8Length_append, utf8Length_append, hoffset]

/-! ### Tokens of the source -/

theorem isLayout_of_placeToken {s next : Layout.State} {lead : List Char} {t : Token} {span : Span}
    {ts : List Located} (h : Layout.placeToken s lead t span = .ok (ts, next)) :
    ∀ u ∈ ts, u = ⟨t, span⟩ ∨ u.token.isLayout := by
  obtain ⟨layout, blocks, brackets, rfl, hnext⟩ := Layout.placeToken_cases h
  have hlayout : ∀ u ∈ layout, u.token.isLayout := by
    split at hnext
    case isTrue => exact Layout.isLayout_indentTo hnext.1
    case isFalse => exact hnext.1 ▸ nofun
  intro u hu
  obtain hu | hu := List.mem_append.mp hu
  · exact .inr (hlayout u hu)
  · exact .inl (List.mem_singleton.mp hu)

-- Layout adds tokens of its own and leaves those of the source where they are.
theorem exists_of_mem_arrange {stop : Nat} {s : Layout.State} {items : List Scanned} {t : Located}
    (ht : t ∈ (Layout.arrange stop s items).tokens) (hplain : t.token.isLayout = false) :
    ∃ i ∈ items, i.lexeme = .token t.token ∧ i.span = t.span := by
  induction items generalizing s
  case nil =>
    rw [Layout.isLayout_finish t ht] at hplain
    cases hplain
  case cons item rest ih =>
    have hrest {s : Layout.State} (ht : t ∈ (Layout.arrange stop s rest).tokens) :
        ∃ i ∈ item :: rest, i.lexeme = .token t.token ∧ i.span = t.span :=
      have ⟨i, hi, hit⟩ := ih ht
      ⟨i, List.mem_cons_of_mem item hi, hit⟩
    rw [Layout.arrange] at ht
    split at ht
    case h_1 => cases ht
    case h_2 =>
      split at ht
      case isTrue =>
        dsimp only at ht
        split at ht
        case isTrue =>
          obtain rfl | ht := List.mem_cons.mp ht
          · cases hplain
          · exact hrest ht
        case isFalse => exact hrest ht
      case isFalse => exact hrest ht
    case h_3 u hlexeme =>
      split at ht
      case h_1 ts next hplace =>
        obtain ht | ht := List.mem_append.mp ht
        · obtain rfl | hlayout := isLayout_of_placeToken hplace t ht
          · exact ⟨item, List.mem_cons_self, hlexeme, rfl⟩
          · rw [hlayout] at hplain
            cases hplain
        · exact hrest ht
      case h_2 => cases ht

-- A source is scanned to its end, and nothing of it is lost.
structure Lossless (source : String) : Prop where
  cut : Cut 0 source.toList (scan source)
  nonempty : ∀ i ∈ scan source, i.span.start < i.span.stop
  increasing : (scan source).Pairwise fun i j => i.span.stop ≤ j.span.start
  -- A token, also one that is laid out, is what its part of the source reads as alone.
  scanned : ∀ i ∈ scan source, ∀ t, i.lexeme = .token t →
    ∃ part, Slice source i.span part ∧ t.ReadsAlone part
  laidOut : ∀ t ∈ (tokenize source).tokens, t.token.isLayout = false →
    ∃ part, Slice source t.span part ∧ t.token.ReadsAlone part

theorem scan_lossless (source : String) : Lossless source :=
  have hcut := cut_scanFrom 0 source.toList
  have hslice {i : Scanned} {t : Token} (hi : i ∈ scan source) (ht : i.lexeme = .token t) :
      ∃ part, Slice source i.span part ∧ t.ReadsAlone part :=
    Cut.slice (List.nil_append _).symm hcut hi ht
  { cut := hcut
    nonempty := hcut.nonempty
    increasing := hcut.increasing
    scanned := fun _ hi _ ht => hslice hi ht
    laidOut := fun t ht hplain => by
      obtain ⟨i, hi, hlexeme, hspan⟩ := exists_of_mem_arrange ht hplain
      exact hspan ▸ hslice hi hlexeme }

end NoteCell
