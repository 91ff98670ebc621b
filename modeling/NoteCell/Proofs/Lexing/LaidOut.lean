import Mathlib
import NoteCell.Proofs.Lexing.Known

/-!
Layout of any source. Blocks are closed only after they were opened and no more than a hundred are
open at once. A source that lexes closes all of them, and its layout tokens stand only where a line
starts or ends.
-/
namespace NoteCell

namespace Layout

/-! ### Laid out tokens -/

def openings (ts : List Located) : Nat := ts.countP (·.token = .indent)

def closings (ts : List Located) : Nat := ts.countP (·.token = .dedent)

section

variable {ts us : List Located} {t : Located} {offset : Nat}

@[simp] theorem openings_nil : openings [] = 0 := rfl

@[simp] theorem closings_nil : closings [] = 0 := rfl

@[simp] theorem openings_append : openings (ts ++ us) = openings ts + openings us :=
  List.countP_append

@[simp] theorem closings_append : closings (ts ++ us) = closings ts + closings us :=
  List.countP_append

theorem openings_singleton : openings [t] = if t.token = .indent then 1 else 0 := by
  simp [openings, List.countP_singleton]

theorem closings_singleton : closings [t] = if t.token = .dedent then 1 else 0 := by
  simp [closings, List.countP_singleton]

end

-- What stands at the end of a line, before any token of the next one: nothing, or a newline.
def EndsLine (ts : List Located) : Prop := ∀ t ∈ ts.getLast?, t.token = .newline

-- A token that may stand behind others in a source of the given size.
structure Follows (size : Nat) (before : List Located) (t : Located) : Prop where
  newline : t.token = .newline → ∃ u ∈ before.getLast?, u.token.isLayout = false
  indent : t.token = .indent → EndsLine before ∧ openings before < closings before + maxBlocks
  dedent : t.token = .dedent → closings before < openings before
    ∧ ∃ u ∈ before.getLast?, u.token = .newline ∨ u.token = .dedent
  indented : ∀ u ∈ before.getLast?, u.token = .indent → t.token.isLayout = false
  behind : ∀ u ∈ before.getLast?, u.span.stop ≤ t.span.start
  forward : t.span.start ≤ t.span.stop
  inside : t.span.stop ≤ size

-- Tokens each of which may stand behind the ones before it.
inductive LaidOut (size : Nat) : List Located → Prop
  | nil : LaidOut size []
  | snoc {ts : List Located} {t : Located} :
    LaidOut size ts → Follows size ts t → LaidOut size (ts ++ [t])

namespace LaidOut

variable {size : Nat} {ts us : List Located} {t : Located}

theorem of_append (h : LaidOut size (ts ++ us)) : LaidOut size ts := by
  generalize hall : ts ++ us = all at h
  induction h generalizing us
  case nil =>
    obtain ⟨rfl, -⟩ := List.append_eq_nil_iff.mp hall
    exact .nil
  case snoc before t h hfollows ih =>
    obtain ⟨vs, rfl, hvs⟩ | ⟨vs, rfl, hvs⟩ := List.append_eq_append_iff.mp hall
    · exact ih rfl
    · obtain ⟨rfl, rfl⟩ | ⟨rfl, rfl⟩ := List.append_eq_singleton_iff.mp hvs.symm
      · rw [List.append_nil]
        exact h
      · exact h.snoc hfollows

theorem follows (h : LaidOut size (ts ++ t :: us)) : Follows size ts t := by
  have h : LaidOut size (ts ++ [t]) := by
    rw [List.append_cons] at h
    exact h.of_append
  generalize hall : ts ++ [t] = all at h
  cases h
  case nil => exact absurd hall (by simp)
  case snoc before u _ hfollows =>
    obtain ⟨rfl, rfl⟩ := List.append_singleton_inj.mp hall
    exact hfollows

-- Blocks that are closed were open, and there are never too many.
theorem blocks (h : LaidOut size ts) :
    closings ts ≤ openings ts ∧ openings ts ≤ closings ts + maxBlocks := by
  induction h
  case nil => simp
  case snoc before t _ hfollows ih =>
    rw [openings_append, closings_append, openings_singleton, closings_singleton]
    by_cases hindent : t.token = .indent
    · have hroom := (hfollows.indent hindent).2
      rw [if_pos hindent, if_neg (by simp [hindent])]
      omega
    by_cases hdedent : t.token = .dedent
    · have hopen := (hfollows.dedent hdedent).1
      rw [if_neg hindent, if_pos hdedent]
      omega
    · rw [if_neg hindent, if_neg hdedent]
      exact ih

-- Dedents at the end stand behind a newline.
theorem exists_newline (h : LaidOut size ts)
    (hlast : ∃ t ∈ ts.getLast?, t.token = .newline ∨ t.token = .dedent) :
    ∃ line newline closing, ts = line ++ newline :: closing ∧ newline.token = .newline
      ∧ ∀ t ∈ closing, t.token = .dedent := by
  induction h
  case nil =>
    obtain ⟨t, ht, -⟩ := hlast
    cases ht
  case snoc before t _ hfollows ih =>
    obtain ⟨u, hu, hlayout⟩ := hlast
    rw [List.getLast?_concat, Option.mem_some_iff] at hu
    subst hu
    obtain hnewline | hdedent := hlayout
    · exact ⟨before, t, [], rfl, hnewline, by simp⟩
    · obtain ⟨line, newline, closing, rfl, hnewline, hclosing⟩ := ih (hfollows.dedent hdedent).2
      refine ⟨line, newline, closing ++ [t], by simp, hnewline, ?_⟩
      simpa [or_imp, forall_and, hdedent] using hclosing

end LaidOut

/-! ### States -/

-- A state that has been reached with the tokens `before`, up to an offset of the source.
structure State.Reached (size offset : Nat) (before : List Located) (s : State) : Prop where
  laidOut : LaidOut size before
  blocks : openings before = closings before + s.blocks.length
  room : s.blocks.length ≤ maxBlocks
  starting : s.atLineStart → s.brackets = 0 ∧ s.lineHasTokens = false
  within : s.lineHasTokens → ∃ t ∈ before.getLast?, t.token.isLayout = false
  between : s.lineHasTokens = false → EndsLine before
  empty : before = [] → s.blocks = []
  behind : ∀ t ∈ before.getLast?, t.span.stop ≤ offset

theorem State.reached_initial (size : Nat) : State.initial.Reached size 0 [] where
  laidOut := .nil
  blocks := rfl
  room := Nat.zero_le _
  starting _ := ⟨rfl, rfl⟩
  within h := by cases h
  between _ _ ht := by cases ht
  empty _ := rfl
  behind _ ht := by cases ht

section

variable {size offset offset' : Nat} {before ts : List Located} {s : State} {t : Located}

theorem State.Reached.mono (h : s.Reached size offset before) (hle : offset ≤ offset') :
    s.Reached size offset' before :=
  { h with behind := fun t ht => Nat.le_trans (h.behind t ht) hle }

theorem openings_dedents (count : Nat) : openings (dedents count offset) = 0 := by
  refine List.countP_eq_zero.mpr fun t ht => ?_
  rw [List.eq_of_mem_replicate ht]
  simp [layoutToken]

theorem closings_dedents (count : Nat) : closings (dedents count offset) = count := by
  rw [closings, dedents, List.countP_replicate, if_pos (by simp [layoutToken])]

theorem getLast?_append_dedents (count : Nat) :
    ∀ t ∈ (before ++ dedents count offset).getLast?, t ∈ before.getLast? ∨ t.span.stop = offset := by
  intro t ht
  rw [List.getLast?_append, Option.mem_def, Option.or_eq_some_iff] at ht
  obtain ht | ⟨-, ht⟩ := ht
  · rw [List.eq_of_mem_replicate (List.mem_of_getLast? ht)]
    exact .inr rfl
  · exact .inl ht

-- Blocks may be closed where a line starts.
theorem LaidOut.dedents {count : Nat} (h : LaidOut size before)
    (hopen : closings before + count ≤ openings before)
    (hlast : 0 < count → ∃ u ∈ before.getLast?, u.token = .newline ∨ u.token = .dedent)
    (hbehind : ∀ u ∈ before.getLast?, u.span.stop ≤ offset) (hinside : offset ≤ size) :
    LaidOut size (before ++ dedents count offset) := by
  induction count generalizing before
  case zero => simpa [Layout.dedents] using h
  case succ count ih =>
    have hlast := hlast (Nat.succ_pos count)
    have hfollows : Follows size before (layoutToken .dedent offset) :=
      { newline := by simp [layoutToken]
        indent := by simp [layoutToken]
        dedent := fun _ => ⟨by omega, hlast⟩
        indented := fun u hu hindent => by
          obtain ⟨v, hv, hlayout⟩ := hlast
          obtain rfl := Option.some.inj (hu.symm.trans hv)
          simp [hindent] at hlayout
        behind := hbehind
        forward := Nat.le_refl offset
        inside := hinside }
    rw [Layout.dedents, List.replicate_succ, List.append_cons]
    refine ih (h.snoc hfollows) ?_ ?_ ?_
    · simp only [openings_append, closings_append, openings_singleton, closings_singleton,
        layoutToken]
      simp
      omega
    · simp [layoutToken]
    · simp [layoutToken]

/-! ### Steps -/

-- The blocks that the first token of a line opens or closes.
theorem indentTo_laidOut {width : Nat} {layout : List Located} {blocks : List Nat}
    (h : s.Reached size offset before) (hline : s.lineHasTokens = false) (hinside : offset ≤ size)
    (hindent : indentTo s.blocks width offset = .ok (layout, blocks)) :
    LaidOut size (before ++ layout) ∧ blocks.length ≤ maxBlocks
      ∧ openings (before ++ layout) = closings (before ++ layout) + blocks.length
      ∧ ∀ t ∈ (before ++ layout).getLast?, t.span.stop ≤ offset := by
  have hroom := h.room
  have hblocks := h.blocks
  unfold indentTo at hindent
  dsimp only at hindent
  split at hindent
  case isTrue =>
    split at hindent
    case isTrue => cases hindent
    case isFalse hfew =>
      cases hindent
      have hfollows : Follows size before (layoutToken .indent offset) :=
        { newline := by simp [layoutToken]
          indent := fun _ => ⟨h.between hline, by omega⟩
          dedent := by simp [layoutToken]
          indented := fun u hu hindent => by simp [h.between hline u hu] at hindent
          behind := h.behind
          forward := Nat.le_refl offset
          inside := hinside }
      refine ⟨h.laidOut.snoc hfollows, by simp; omega, ?_, by simp [layoutToken]⟩
      simp [openings_singleton, closings_singleton, layoutToken, hblocks, Nat.add_assoc]
  case isFalse =>
    split at hindent
    case isFalse => cases hindent
    case isTrue =>
      cases hindent
      have hfewer := (List.dropWhile_sublist (width < ·) (l := s.blocks)).length_le
      refine ⟨h.laidOut.dedents (by omega) (fun hcount => ?_) h.behind hinside, by omega, ?_, ?_⟩
      · -- Where blocks are open there are tokens before, and a line of them has ended.
        have hne : before ≠ [] := by
          intro hnil
          rw [h.empty hnil] at hcount
          simp at hcount
        obtain ⟨u, hu⟩ := List.getLast?_isSome.mpr hne |> Option.isSome_iff_exists.mp
        exact ⟨u, hu, .inl (h.between hline u hu)⟩
      · simp only [openings_append, closings_append, openings_dedents, closings_dedents]
        omega
      · intro t ht
        obtain hlast | hstop := getLast?_append_dedents _ t ht
        · exact h.behind t hlast
        · omega

-- What a token of the source adds to the tokens, and the state behind it.
theorem placeToken_cases {next : State} {lead : List Char} {t : Token} {span : Span}
    (h : placeToken s lead t span = .ok (ts, next)) :
    ∃ layout blocks brackets, ts = layout ++ [⟨t, span⟩]
      ∧ (if s.atLineStart ∧ s.brackets = 0 then
          indentTo s.blocks (indentWidth 0 lead) span.start = .ok (layout, blocks)
            ∧ next = ⟨blocks, brackets, false, true⟩
        else layout = [] ∧ next = ⟨s.blocks, brackets, s.atLineStart, true⟩) := by
  unfold placeToken at h
  by_cases hstarts : s.atLineStart ∧ s.brackets = 0
  case pos =>
    have htrue : (s.atLineStart && decide (s.brackets = 0)) = true := by simp [hstarts]
    simp only [htrue, if_true] at h
    cases hindent : indentTo s.blocks (indentWidth 0 lead) span.start with
    | error e =>
      rw [hindent] at h
      cases h
    | ok laid =>
      obtain ⟨layout, blocks⟩ := laid
      rw [hindent] at h
      cases hbrackets : bracketsAfter s.brackets t span.start with
      | error e =>
        rw [hbrackets] at h
        cases h
      | ok brackets =>
        rw [hbrackets] at h
        cases h
        exact ⟨layout, blocks, brackets, rfl, by simp [hstarts]⟩
  case neg =>
    have hfalse : (s.atLineStart && decide (s.brackets = 0)) = false := by simpa using hstarts
    simp only [hfalse, Bool.false_eq_true, if_false] at h
    cases hbrackets : bracketsAfter s.brackets t span.start with
    | error e =>
      rw [hbrackets] at h
      cases h
    | ok brackets =>
      rw [hbrackets] at h
      cases h
      exact ⟨[], s.blocks, brackets, rfl, by simp [hstarts]⟩

theorem Follows.plain {t : Located} (ht : t.token.isLayout = false)
    (hbehind : ∀ u ∈ before.getLast?, u.span.stop ≤ t.span.start)
    (hforward : t.span.start ≤ t.span.stop) (hinside : t.span.stop ≤ size) :
    Follows size before t where
  newline h := by simp [h, Token.isLayout] at ht
  indent h := by simp [h, Token.isLayout] at ht
  dedent h := by simp [h, Token.isLayout] at ht
  indented _ _ _ := ht
  behind := hbehind
  forward := hforward
  inside := hinside

theorem State.Reached.placeToken {next : State} {lead : List Char} {t : Token} {span : Span}
    (h : s.Reached size offset before) (ht : t.isLayout = false) (hoffset : offset ≤ span.start)
    (hforward : span.start ≤ span.stop) (hinside : span.stop ≤ size)
    (hplace : placeToken s lead t span = .ok (ts, next)) :
    next.Reached size span.stop (before ++ ts) := by
  have h := h.mono hoffset
  obtain ⟨layout, blocks, brackets, rfl, hnext⟩ := placeToken_cases hplace
  have hlaid : ∃ blocks starts, next = ⟨blocks, brackets, starts, true⟩ ∧ starts = false
      ∧ LaidOut size (before ++ layout) ∧ blocks.length ≤ maxBlocks
      ∧ openings (before ++ layout) = closings (before ++ layout) + blocks.length
      ∧ ∀ t ∈ (before ++ layout).getLast?, t.span.stop ≤ span.start := by
    split at hnext
    case isTrue hstarts =>
      obtain ⟨hindent, rfl⟩ := hnext
      exact ⟨blocks, false, rfl, rfl, indentTo_laidOut h (h.starting hstarts.1).2
        (Nat.le_trans hforward hinside) hindent⟩
    case isFalse hstarts =>
      obtain ⟨rfl, rfl⟩ := hnext
      have hbegun : s.atLineStart = false := by
        rw [← Bool.not_eq_true]
        exact fun hstart => hstarts ⟨hstart, (h.starting hstart).1⟩
      rw [List.append_nil]
      exact ⟨s.blocks, s.atLineStart, rfl, hbegun, h.laidOut, h.room, h.blocks, h.behind⟩
  obtain ⟨blocks, starts, rfl, rfl, hlaid, hroom, hblocks, hbehind⟩ := hlaid
  have hindent : t ≠ .indent := by
    rintro rfl
    cases ht
  have hdedent : t ≠ .dedent := by
    rintro rfl
    cases ht
  rw [← List.append_assoc]
  exact
    { laidOut := hlaid.snoc (.plain ht hbehind hforward hinside)
      blocks := by
        rw [openings_append, closings_append, hblocks, openings_singleton, closings_singleton,
          if_neg hindent, if_neg hdedent]
        rfl
      room := hroom
      starting := by simp
      within := fun _ => ⟨⟨t, span⟩, List.getLast?_concat, ht⟩
      between := by simp
      empty := by simp
      behind := by simp }

theorem State.Reached.ended (h : s.Reached size offset before) (hline : s.lineHasTokens)
    {span : Span} (hoffset : offset ≤ span.start) (hforward : span.start ≤ span.stop)
    (hinside : span.stop ≤ size) : LaidOut size (before ++ [⟨.newline, span⟩]) := by
  obtain ⟨t, ht, hplain⟩ := h.within hline
  refine h.laidOut.snoc
    { newline := fun _ => ⟨t, ht, hplain⟩
      indent := by simp
      dedent := by simp
      indented := fun u hu hindent => ?_
      behind := (h.mono hoffset).behind
      forward := hforward
      inside := hinside }
  obtain rfl := Option.some.inj (hu.symm.trans ht)
  simp [hindent, Token.isLayout] at hplain

theorem State.Reached.lineBreak (h : s.Reached size offset before) (hbrackets : s.brackets = 0)
    {span : Span} (hoffset : offset ≤ span.start) (hforward : span.start ≤ span.stop)
    (hinside : span.stop ≤ size) :
    State.Reached size span.stop
      (before ++ if s.lineHasTokens then [⟨.newline, span⟩] else [])
      { s with atLineStart := true, lineHasTokens := false } := by
  split
  case isTrue hline =>
    exact
      { laidOut := h.ended hline hoffset hforward hinside
        blocks := by simp [openings_singleton, closings_singleton, h.blocks]
        room := h.room
        starting := fun _ => ⟨hbrackets, rfl⟩
        within := by simp
        between := by simp [EndsLine]
        empty := by simp
        behind := by simp }
  case isFalse hline =>
    rw [Bool.not_eq_true] at hline
    rw [List.append_nil]
    exact
      { h.mono (Nat.le_trans hoffset hforward) with
        starting := fun _ => ⟨hbrackets, rfl⟩
        within := by simp
        between := fun _ => h.between hline }

-- The end of a source leaves no block open.
theorem State.Reached.finish {stop : Nat} (h : s.Reached stop offset before) (hstop : offset ≤ stop) :
    LaidOut stop (before ++ Layout.finish s stop)
      ∧ openings (before ++ Layout.finish s stop) = closings (before ++ Layout.finish s stop)
      ∧ (before ++ Layout.finish s stop = []
        ∨ ∃ t ∈ (before ++ Layout.finish s stop).getLast?, t.token = .newline ∨ t.token = .dedent) := by
  have h := h.mono hstop
  -- The last line ends first, and what has been laid out then ends in a newline, if in anything.
  have hlast : ∃ after, before ++ Layout.finish s stop = after ++ dedents s.blocks.length stop
      ∧ LaidOut stop after ∧ openings after = closings after + s.blocks.length
      ∧ EndsLine after ∧ (after = [] → s.blocks = []) ∧ ∀ t ∈ after.getLast?, t.span.stop ≤ stop := by
    cases hline : s.lineHasTokens
    case true =>
      refine ⟨before ++ [layoutToken .newline stop], by simp [Layout.finish, hline],
        h.ended hline (Nat.le_refl stop) (Nat.le_refl stop) (Nat.le_refl stop), ?_, ?_, ?_, ?_⟩
      · simp [openings_singleton, closings_singleton, layoutToken, h.blocks]
      · simp [EndsLine, layoutToken]
      · simp
      · simp [layoutToken]
    case false =>
      exact ⟨before, by simp [Layout.finish, hline], h.laidOut, h.blocks, h.between hline, h.empty,
        h.behind⟩
  obtain ⟨after, heq, hlaid, hblocks, hends, hempty, hbehind⟩ := hlast
  rw [heq]
  have hnewline (hne : after ≠ []) : ∃ t ∈ after.getLast?, t.token = .newline := by
    obtain ⟨t, ht⟩ := Option.isSome_iff_exists.mp (List.getLast?_isSome.mpr hne)
    exact ⟨t, ht, hends t ht⟩
  refine ⟨hlaid.dedents (by omega) (fun hopen => ?_) hbehind (Nat.le_refl stop), ?_, ?_⟩
  · have hne : after ≠ [] := by
      intro hnil
      simp [hempty hnil] at hopen
    obtain ⟨t, ht, hnewline⟩ := hnewline hne
    exact ⟨t, ht, .inl hnewline⟩
  · simp only [openings_append, closings_append, openings_dedents, closings_dedents]
    omega
  · by_cases hne : after = []
    · simp [hne, hempty hne, Layout.dedents]
    · obtain ⟨t, ht, hnewline⟩ := hnewline hne
      cases hcount : s.blocks.length
      case zero => exact .inr ⟨t, by simpa [Layout.dedents] using ht, .inl hnewline⟩
      case succ count =>
        refine .inr ⟨layoutToken .dedent stop, ?_, .inr rfl⟩
        rw [Layout.dedents, List.replicate_succ', ← List.append_assoc, List.getLast?_concat]
        rfl

end

/-! ### Lexemes in their places -/

-- Lexemes one behind the other from one offset to another.
def InPlace (start stop : Nat) : List Scanned → Prop
  | [] => start ≤ stop
  | item :: rest =>
    start ≤ item.span.start ∧ item.span.start ≤ item.span.stop ∧ InPlace item.span.stop stop rest

theorem InPlace.le {start stop : Nat} {items : List Scanned} (h : InPlace start stop items) :
    start ≤ stop := by
  induction items generalizing start
  case nil => exact h
  case cons item rest ih =>
    obtain ⟨hstart, hforward, hrest⟩ := h
    exact Nat.le_trans hstart (Nat.le_trans hforward (ih hrest))

theorem InPlace.mono {start start' stop : Nat} {items : List Scanned}
    (h : InPlace start stop items) (hle : start' ≤ start) : InPlace start' stop items := by
  cases items with
  | nil => exact Nat.le_trans hle h
  | cons => exact ⟨Nat.le_trans hle h.1, h.2⟩

theorem inPlace_scanFrom (offset : Nat) (text : List Char) :
    InPlace offset (offset + utf8Length text) (scanFrom offset text) := by
  induction offset, text using scanFrom.induct
  case case1 offset text hend =>
    rw [scanFrom_nil hend]
    exact Nat.le_add_right _ _
  case case2 offset text lead c cs h piece start stop ih =>
    have hlength : stop + utf8Length (cs.drop piece.extra) = offset + utf8Length text := by
      have htext : text = lead ++ ((c :: cs.take piece.extra) ++ cs.drop piece.extra) := by
        rw [List.cons_append, List.take_append_drop, ← h, List.take_append_drop]
      conv => rhs; rw [htext, utf8Length_append, utf8Length_append]
      omega
    rw [scanFrom_cons h]
    exact ⟨Nat.le_add_right _ _, Nat.le_add_right _ _, hlength ▸ ih⟩

/-! ### Sources -/

theorem laidOut_arrange {size offset : Nat} {before : List Located} {s : State}
    {items : List Scanned} (h : s.Reached size offset before) (hitems : InPlace offset size items)
    (hknown : ∀ i ∈ items, i.lexeme.Known) :
    LaidOut size (before ++ (arrange size s items).tokens)
      ∧ ((arrange size s items).error = none →
        openings (before ++ (arrange size s items).tokens)
            = closings (before ++ (arrange size s items).tokens)
          ∧ (before ++ (arrange size s items).tokens = []
            ∨ ∃ t ∈ (before ++ (arrange size s items).tokens).getLast?,
                t.token = .newline ∨ t.token = .dedent)) := by
  induction items generalizing s offset before
  case nil =>
    have hfinish := h.finish hitems
    exact ⟨hfinish.1, fun _ => hfinish.2⟩
  case cons item rest ih =>
    obtain ⟨hstart, hforward, hrest⟩ := hitems
    have hinside := hrest.le
    have hknownRest : ∀ i ∈ rest, i.lexeme.Known := fun i hi =>
      hknown i (List.mem_cons_of_mem item hi)
    rw [arrange]
    cases hitem : item.lexeme with
    | fault f at_ => exact ⟨by simpa [TokenStream.failing] using h.laidOut, by simp [TokenStream.failing]⟩
    | lineBreak =>
      dsimp only
      by_cases hbrackets : s.brackets = 0
      case pos =>
        have hnext := ih (h.lineBreak hbrackets hstart hforward hinside) hrest hknownRest
        rw [if_pos hbrackets]
        cases hline : s.lineHasTokens
        case true => simpa [hline, TokenStream.prepend] using hnext
        case false => simpa [hline] using hnext
      case neg =>
        rw [if_neg hbrackets]
        exact ih (h.mono (Nat.le_trans hstart hforward)) hrest hknownRest
    | token t =>
      have ht : t.isLayout = false := by
        have hlexable := hknown item List.mem_cons_self t hitem
        cases t <;> first | rfl | exact hlexable.elim
      dsimp only
      cases hplace : Layout.placeToken s item.lead t item.span with
      | error e => exact ⟨by simpa using h.laidOut, by simp⟩
      | ok placed =>
        obtain ⟨ts, next⟩ := placed
        have hnext := ih (h.placeToken ht hstart hforward hinside hplace) hrest hknownRest
        simpa [TokenStream.prepend] using hnext

-- Where a stream that comes to its end has its layout tokens.
structure Complete (size : Nat) (ts : List Located) : Prop where
  -- Every block that is opened is closed.
  closed : openings ts = closings ts
  -- The tokens end in a newline and the blocks that are closed behind it.
  ends : ts = [] ∨ ∃ line newline closing, ts = line ++ newline :: closing
    ∧ newline.token = .newline ∧ ∀ t ∈ closing, t.token = .dedent
  newline {before after : List Located} {t : Located} :
    ts = before ++ t :: after → t.token = .newline →
      ∃ u ∈ before.getLast?, u.token.isLayout = false
  indent {before after : List Located} {t : Located} :
    ts = before ++ t :: after → t.token = .indent →
      (∀ u ∈ before.getLast?, u.token = .newline) ∧ ∃ u ∈ after.head?, u.token.isLayout = false
  dedent {before after : List Located} {t : Located} :
    ts = before ++ t :: after → t.token = .dedent →
      ∃ u ∈ before.getLast?, u.token = .newline ∨ u.token = .dedent
  ordered {before after : List Located} {t u : Located} :
    ts = before ++ t :: u :: after → t.span.start ≤ u.span.start ∧ t.span.stop ≤ u.span.start
  inside {t : Located} : t ∈ ts → t.span.start ≤ t.span.stop ∧ t.span.stop ≤ size

theorem LaidOut.complete {size : Nat} {ts : List Located} (h : LaidOut size ts)
    (hclosed : openings ts = closings ts)
    (hends : ts = [] ∨ ∃ t ∈ ts.getLast?, t.token = .newline ∨ t.token = .dedent) :
    Complete size ts where
  closed := hclosed
  ends := hends.imp_right h.exists_newline
  newline hts := by
    subst hts
    exact h.follows.newline
  indent {before after t} hts hindent := by
    subst hts
    refine ⟨(h.follows.indent hindent).1, ?_⟩
    cases after with
    | nil =>
      obtain hnil | ⟨u, hu, hlast⟩ := hends
      · simp at hnil
      · simp only [List.getLast?_concat, Option.mem_some_iff] at hu
        subst hu
        simp [hindent] at hlast
    | cons u after =>
      rw [List.append_cons] at h
      exact ⟨u, rfl, h.follows.indented t List.getLast?_concat hindent⟩
  dedent hts hdedent := by
    subst hts
    exact (h.follows.dedent hdedent).2
  ordered {before after t u} hts := by
    subst hts
    have hforward := h.follows.forward
    rw [List.append_cons] at h
    have hbehind := h.follows.behind t List.getLast?_concat
    exact ⟨Nat.le_trans hforward hbehind, hbehind⟩
  inside {t} ht := by
    obtain ⟨before, after, rfl⟩ := List.append_of_mem ht
    exact ⟨h.follows.forward, h.follows.inside⟩

end Layout

theorem utf8Length_toList (s : String) : utf8Length s.toList = s.utf8ByteSize := by
  have hlength (cs : List Char) : utf8Length cs = String.utf8Len cs := by
    induction cs with
    | nil => rfl
    | cons c cs ih => rw [utf8Length_cons, String.utf8Len_cons, ih, Nat.add_comm]
  rw [hlength, ← String.utf8ByteSize_ofList, String.ofList_toList]

-- Blocks of any source, as far as it lexes, and the layout tokens of one that lexes to its end.
theorem tokenize_laidOut (source : String) :
    (∀ ts, ts <+: (tokenize source).tokens → Layout.closings ts ≤ Layout.openings ts
        ∧ Layout.openings ts ≤ Layout.closings ts + 100)
      ∧ ((tokenize source).error = none →
          Layout.Complete source.utf8ByteSize (tokenize source).tokens) := by
  have hsize : source.utf8ByteSize = 0 + utf8Length source.toList := by
    rw [utf8Length_toList, Nat.zero_add]
  have hitems : Layout.InPlace 0 source.utf8ByteSize (scan source) :=
    hsize ▸ Layout.inPlace_scanFrom 0 source.toList
  have h := Layout.laidOut_arrange (Layout.State.reached_initial source.utf8ByteSize) hitems
    (known_scanFrom 0 source.toList)
  rw [List.nil_append] at h
  obtain ⟨hlaid, hend⟩ := h
  refine ⟨fun ts hprefix => ?_, fun herror => hlaid.complete (hend herror).1 (hend herror).2⟩
  obtain ⟨rest, htokens⟩ := hprefix
  have hlaid : Layout.LaidOut source.utf8ByteSize (ts ++ rest) := htokens ▸ hlaid
  exact hlaid.of_append.blocks

-- A block that is open at the end of its source, behind a blank line, and a line broken in brackets.
theorem tokenize_laidOut_block :
    (tokenize "if x:\n\n  y = (1,\n2)").error = none
      ∧ Layout.Complete 19 (tokenize "if x:\n\n  y = (1,\n2)").tokens := by
  have herror : (tokenize "if x:\n\n  y = (1,\n2)").error = none := by decide +kernel
  exact ⟨herror, (tokenize_laidOut "if x:\n\n  y = (1,\n2)").2 herror⟩

end NoteCell
