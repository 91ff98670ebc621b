import NoteCell.Proofs.Lexing.Appended
import NoteCell.Proofs.Lexing.Cuttings
import NoteCell.Proofs.Lexing.Positions

/-!
Line numbers. Scanning a source without strings, one line break is met for each carriage return, each
line feed, and each carriage return with a line feed behind it. Positions count line feeds, and so
lag behind by the carriage returns that stand alone.
-/
namespace NoteCell

open Piece

/-! ### Line breaks of a text -/

-- A carriage return and the line feed behind it are one line break.
def lineBreaks : List Char → Nat
  | [] => 0
  | '\r' :: '\n' :: cs => 1 + lineBreaks cs
  | c :: cs => (if isLineBreak c then 1 else 0) + lineBreaks cs

-- Carriage returns without a line feed behind them.
def loneReturns : List Char → Nat
  | [] => 0
  | '\r' :: '\n' :: cs => loneReturns cs
  | c :: cs => (if c = '\r' then 1 else 0) + loneReturns cs

-- One text ends, and the next starts, within a line break.
def PartsBreak (before after : List Char) : Prop :=
  before.getLast? = some '\r' ∧ after.head? = some '\n'

section

variable {c : Char} {cs ds : List Char}

theorem count_lineFeed_add (cs : List Char) : cs.count '\n' + loneReturns cs = lineBreaks cs := by
  induction cs using lineBreaks.induct
  case case1 => rfl
  case case2 cs ih =>
    have hcount : ('\r' :: '\n' :: cs).count '\n' = cs.count '\n' + 1 := by simp
    rw [loneReturns, lineBreaks, ← ih, hcount]
    omega
  case case3 c cs hpair ih =>
    have hcount : (c :: cs).count '\n' = cs.count '\n' + if c = '\n' then 1 else 0 := by
      simp [List.count_cons]
    have hbreak : (if isLineBreak c then 1 else 0)
        = (if c = '\n' then 1 else 0) + if c = '\r' then 1 else 0 := by
      by_cases hlf : c = '\n' <;> simp [hlf, isLineBreak]
    rw [loneReturns.eq_3 _ _ hpair, lineBreaks.eq_3 _ _ hpair, ← ih, hcount, hbreak]
    omega

theorem lineBreaks_eq_zero (h : ∀ c ∈ cs, isLineBreak c = false) : lineBreaks cs = 0 := by
  induction cs using lineBreaks.induct
  case case1 => rfl
  case case2 cs ih => cases h '\r' List.mem_cons_self
  case case3 c cs hpair ih =>
    obtain ⟨hc, hcs⟩ := List.forall_mem_cons.mp h
    rw [lineBreaks.eq_3 _ _ hpair, hc, ih hcs]
    rfl

theorem not_partsBreak_nil (ds : List Char) : ¬ PartsBreak [] ds := fun h => nomatch h.1

theorem partsBreak_cons : PartsBreak (c :: cs) ds
    ↔ (c = '\r' ∧ cs = [] ∧ ds.head? = some '\n') ∨ PartsBreak cs ds := by
  cases cs with
  | nil => simp [PartsBreak]
  | cons d cs => simp [PartsBreak]

theorem partsBreak_cons_of_ne (hc : c ≠ '\r') : PartsBreak (c :: cs) ds ↔ PartsBreak cs ds := by
  rw [partsBreak_cons, or_iff_right fun h => hc h.1]

theorem lineBreaks_append (h : ¬ PartsBreak cs ds) :
    lineBreaks (cs ++ ds) = lineBreaks cs + lineBreaks ds := by
  induction cs using lineBreaks.induct
  case case1 => simp [lineBreaks]
  case case2 cs ih =>
    rw [List.cons_append, List.cons_append, lineBreaks, lineBreaks,
      ih fun hcs => h (partsBreak_cons.mpr (.inr (partsBreak_cons.mpr (.inr hcs)))), Nat.add_assoc]
  case case3 c cs hpair ih =>
    have hpair' (es : List Char) (hc : c = '\r') (hes : cs ++ ds = '\n' :: es) : False := by
      cases cs with
      | nil => exact h ⟨by simp [hc], by simp [show ds = '\n' :: es from hes]⟩
      | cons d cs =>
        obtain ⟨rfl, -⟩ := List.cons.inj hes
        exact hpair cs hc rfl
    rw [List.cons_append, lineBreaks.eq_3 _ _ hpair', lineBreaks.eq_3 _ _ hpair,
      ih fun hcs => h (partsBreak_cons.mpr (.inr hcs)), Nat.add_assoc]

theorem lineBreaks_extend {before part rest : List Char} (hbefore : ¬ PartsBreak before (part ++ rest))
    (hpart : ¬ PartsBreak part rest) : lineBreaks (before ++ part) = lineBreaks before + lineBreaks part
      ∧ ¬ PartsBreak (before ++ part) rest := by
  cases part with
  | nil => simpa [lineBreaks] using hbefore
  | cons c part =>
    refine ⟨lineBreaks_append hbefore, ?_⟩
    rwa [PartsBreak, List.getLast?_append_of_ne_nil _ (List.cons_ne_nil c part)]

end

/-! ### Padding -/

-- A backslash joins two lines, unless it stands in a comment.
def joins (lead : List Char) : Nat := (lead.takeWhile (· ≠ '#')).count '\\'

theorem lineBreaks_padding {rest lead : List Char} (h : Padding rest lead) :
    lineBreaks lead = joins lead := by
  induction h
  case nil => rfl
  case blank c cs hc _ ih =>
    have hblank : lineBreaks (c :: cs) = lineBreaks cs ∧ joins (c :: cs) = joins cs := by
      obtain rfl | rfl | rfl := hc <;> simp [lineBreaks, joins, isLineBreak]
    rw [hblank.1, hblank.2, ih]
  case comment cs hcs _ =>
    exact lineBreaks_eq_zero (List.forall_mem_cons.mpr ⟨rfl, hcs⟩)
  case joined lineBreak cs hbreak hcs ih =>
    have hwhole : ¬ PartsBreak lineBreak cs := fun hparts => by
      have := hcs.isPadding_head _ hparts.2
      cases this
    have hbreaks : lineBreaks lineBreak = 1 := by obtain rfl | rfl | rfl := hbreak <;> rfl
    have hjoins : joins ('\\' :: (lineBreak ++ cs)) = 1 + joins cs := by
      obtain rfl | rfl | rfl := hbreak <;> simp [joins, Nat.add_comm]
    have hslash : lineBreaks ('\\' :: (lineBreak ++ cs)) = lineBreaks (lineBreak ++ cs) := by
      simp [lineBreaks, isLineBreak]
    rw [hslash, lineBreaks_append hwhole, hbreaks, ih, hjoins]

-- Padding ends where none is left, and not within a line break.
theorem padding_ends {flag : Bool} {text : List Char} :
    ¬ PartsBreak (text.take (paddingLength flag text)) (text.drop (paddingLength flag text))
      ∧ paddingLength false (text.drop (paddingLength flag text)) = 0 := by
  induction flag, text using paddingLength.induct
  case case1 flag =>
    rw [List.take_nil]
    exact ⟨not_partsBreak_nil _, rfl⟩
  case case2 c cs hbreak =>
    rw [paddingLength, if_pos hbreak]
    exact ⟨not_partsBreak_nil _,
      of_isLineBreak (P := fun d => paddingLength false (d :: cs) = 0) hbreak rfl rfl⟩
  case case3 c cs hbreak ih =>
    have hc : c ≠ '\r' := by
      rintro rfl
      exact hbreak rfl
    rw [paddingLength, if_neg hbreak, Nat.add_comm, List.take_succ_cons, List.drop_succ_cons,
      partsBreak_cons_of_ne hc]
    exact ih
  case case4 cs ih =>
    rw [paddingLength, Nat.add_comm]
    change ¬ PartsBreak ('\\' :: '\r' :: '\n' :: cs.take _) (cs.drop _) ∧ _
    rw [partsBreak_cons_of_ne (by decide), partsBreak_cons, partsBreak_cons_of_ne (by decide)]
    exact ⟨not_or.mpr ⟨fun h => List.cons_ne_nil _ _ h.2.1, ih.1⟩, ih.2⟩
  case case5 cs hcrlf ih =>
    rw [paddingLength.eq_4 _ hcrlf, Nat.add_comm]
    change ¬ PartsBreak ('\\' :: '\r' :: cs.take _) (cs.drop _) ∧ _
    rw [partsBreak_cons_of_ne (by decide), partsBreak_cons]
    refine ⟨?_, ih.2⟩
    -- A line feed right behind the carriage return would have been taken up with it.
    rintro (⟨-, hnil, hhead⟩ | hparts)
    · obtain ⟨ds, hds⟩ := List.head?_eq_some_iff.mp hhead
      have htext := List.take_append_drop (paddingLength false cs) cs
      rw [hnil, List.nil_append, hds] at htext
      exact hcrlf ds htext.symm
    · exact ih.1 hparts
  case case6 cs ih =>
    rw [paddingLength, Nat.add_comm]
    change ¬ PartsBreak ('\\' :: '\n' :: cs.take _) (cs.drop _) ∧ _
    rw [partsBreak_cons_of_ne (by decide), partsBreak_cons_of_ne (by decide)]
    exact ih
  case case7 c cs hcrlf hcr hlf hblank ih =>
    have hc : c ≠ '\r' := by
      rintro rfl
      cases hblank
    rw [paddingLength.eq_6 _ _ hcrlf hcr hlf, if_pos hblank, Nat.add_comm, List.take_succ_cons,
      List.drop_succ_cons, partsBreak_cons_of_ne hc]
    exact ih
  case case8 cs hcrlf hcr hlf hblank ih =>
    rw [paddingLength.eq_6 _ _ hcrlf hcr hlf, if_neg hblank, if_pos rfl, Nat.add_comm,
      List.take_succ_cons, List.drop_succ_cons, partsBreak_cons_of_ne (by decide)]
    exact ih
  case case9 c cs hcrlf hcr hlf hblank hhash =>
    have hlength := paddingLength.eq_6 _ _ hcrlf hcr hlf
    rw [if_neg hblank, if_neg hhash] at hlength
    rw [hlength, List.drop_zero, hlength]
    exact ⟨not_partsBreak_nil _, rfl⟩

/-! ### Lexemes -/

section

variable {c : Char} {part rest : List Char} {lexeme : Lexeme}

-- What is neither a line break nor a string ends within its line.
theorem forall_part_isLineBreak (hbreak : isLineBreak c = false)
    (hquote : (c = '\'' || c = '"') = false)
    (hfirst : first c (part ++ rest) = ⟨lexeme, part.length⟩) :
    ∀ d ∈ part, isLineBreak d = false := by
  cases hfind : (part ++ rest).find? isLineBreak with
  | none =>
    intro d hd
    simpa using List.find?_eq_none.mp hfind d (List.mem_append_left rest hd)
  | some d =>
    obtain ⟨hd, line, more, hsplit, hline⟩ := List.find?_eq_some_iff_append.mp hfind
    have hle := @first_extra_le_of_unquoted c line hquote
    rw [← first_lineBreak hd line more hbreak hquote, ← hsplit, hfirst] at hle
    have hpart : part <+: line := List.prefix_of_prefix_length_le (List.prefix_append part rest)
      (hsplit ▸ List.prefix_append line (d :: more)) hle
    intro e he
    simpa using hline e (hpart.subset he)

theorem lineBreaks_part (hquote : (c = '\'' || c = '"') = false)
    (hfirst : first c (part ++ rest) = ⟨lexeme, part.length⟩) :
    lineBreaks (c :: part) = (if lexeme = .lineBreak then 1 else 0)
      ∧ ¬ PartsBreak (c :: part) rest := by
  cases hbreak : isLineBreak c with
  | true =>
    obtain hone | ⟨rfl, ds, hds, htwo⟩ := first_of_isLineBreak hbreak (part ++ rest)
    · obtain ⟨rfl, hlength⟩ := Piece.mk.inj (hone.symm.trans hfirst)
      obtain rfl := List.length_eq_zero_iff.mp hlength.symm
      refine ⟨of_isLineBreak (P := fun d => lineBreaks [d] = 1) hbreak rfl rfl, ?_⟩
      rintro ⟨hc, hhead⟩
      obtain ⟨ds, rfl⟩ := List.head?_eq_some_iff.mp hhead
      obtain rfl := Option.some.inj hc
      cases hone
    · obtain ⟨rfl, hlength⟩ := Piece.mk.inj (htwo.symm.trans hfirst)
      obtain ⟨d, rfl⟩ := List.length_eq_one_iff.mp hlength.symm
      obtain ⟨rfl, -⟩ := List.cons.inj hds
      exact ⟨rfl, fun h => nomatch h.1⟩
  | false =>
    have hplain : ∀ d ∈ c :: part, isLineBreak d = false :=
      List.forall_mem_cons.mpr ⟨hbreak, forall_part_isLineBreak hbreak hquote hfirst⟩
    have hlexeme : lexeme ≠ .lineBreak := by
      rintro rfl
      have := isLineBreak_of_lineBreak (congrArg Piece.lexeme hfirst)
      rw [hbreak] at this
      cases this
    refine ⟨by rw [lineBreaks_eq_zero hplain, if_neg hlexeme], fun hparts => ?_⟩
    cases hplain '\r' (List.mem_of_getLast? hparts.1)

end

/-! ### Scanning -/

-- How far a text has been scanned, and how many line breaks were met on the way: those that are
-- lexemes, and those that padding joins.
inductive Progress (text : List Char) : List Char → List Char → Nat → Prop
  | start : Progress text [] text 0
  | padding {before rest : List Char} {breaks : Nat} : Progress text before rest breaks →
      Progress text (before ++ rest.take (paddingLength false rest))
        (rest.drop (paddingLength false rest))
        (breaks + joins (rest.take (paddingLength false rest)))
  | lexeme {before cs : List Char} {c : Char} {breaks : Nat} :
    Progress text before (c :: cs) breaks → paddingLength false (c :: cs) = 0 →
      Progress text (before ++ c :: cs.take (first c cs).extra) (cs.drop (first c cs).extra)
        (breaks + if (first c cs).lexeme = .lineBreak then 1 else 0)

-- A text without strings.
def Stringless (text : List Char) : Prop := ∀ c ∈ text, c ≠ '\'' ∧ c ≠ '"'

namespace Progress

variable {text before rest : List Char} {breaks : Nat}

theorem text_eq (h : Progress text before rest breaks) : text = before ++ rest := by
  induction h
  case start => rfl
  case padding ih => rw [ih, List.append_assoc, List.take_append_drop]
  case lexeme ih => rw [ih, List.append_assoc, List.cons_append, List.take_append_drop]

-- The line breaks met are those of the text that was scanned, and none was scanned in part.
theorem breaks_eq (htext : Stringless text) (h : Progress text before rest breaks) :
    breaks = lineBreaks before ∧ ¬ PartsBreak before rest := by
  induction h
  case start => exact ⟨rfl, not_partsBreak_nil text⟩
  case padding before rest breaks hbefore ih =>
    obtain ⟨rfl, hwhole⟩ := ih
    rw [← List.take_append_drop (paddingLength false rest) rest] at hwhole
    obtain ⟨hbreaks, hparts⟩ := lineBreaks_extend hwhole padding_ends.1
    exact ⟨by rw [hbreaks, lineBreaks_padding (padding_take rest)], hparts⟩
  case lexeme before cs c breaks hbefore hpadding ih =>
    obtain ⟨rfl, hwhole⟩ := ih
    have hc := htext c (by rw [hbefore.text_eq]; simp)
    have hquote : (c = '\'' || c = '"') = false := by simp [hc]
    have hlength := List.length_take_of_le (@first_extra_le_of_unquoted c cs hquote)
    have hcs := List.take_append_drop (first c cs).extra cs
    have hfirst : first c (cs.take (first c cs).extra ++ cs.drop (first c cs).extra)
        = ⟨(first c cs).lexeme, (cs.take (first c cs).extra).length⟩ := by rw [hcs, hlength]
    obtain ⟨hpart, hend⟩ := lineBreaks_part hquote hfirst
    rw [← hcs, ← List.cons_append] at hwhole
    obtain ⟨hbreaks, hparts⟩ := lineBreaks_extend hwhole hend
    exact ⟨by rw [hbreaks, hpart], hparts⟩

-- An offset that scanning comes by.
def Reached (text : List Char) (k : Nat) : Prop :=
  ∃ before rest breaks, Progress text before rest breaks ∧ k = utf8Length before

theorem reached_scanFrom {offset : Nat} (h : Progress text before rest breaks)
    (hoffset : offset = utf8Length before) : Reached text (utf8Length text)
      ∧ ∀ i ∈ scanFrom offset rest, Reached text i.span.start ∧ Reached text i.span.stop := by
  induction offset, rest using scanFrom.induct generalizing before breaks
  case case1 offset rest hend =>
    have hlast := h.padding
    have hall := hlast.text_eq
    rw [hend, List.append_nil] at hall
    rw [scanFrom_nil hend]
    exact ⟨⟨_, _, _, hlast, by rw [← hall]⟩, List.forall_mem_nil _⟩
  case case2 offset rest lead c cs hdrop piece start stop ih =>
    have hstart := h.padding
    have hlead := (@padding_ends false rest).2
    rw [hdrop] at hstart hlead
    have hstop := hstart.lexeme hlead
    have hstartAt : start = utf8Length (before ++ lead) := by
      rw [utf8Length_append, ← hoffset]
    have hstopAt : stop = utf8Length (before ++ lead ++ c :: cs.take piece.extra) := by
      rw [utf8Length_append, ← hstartAt]
    obtain ⟨hlast, hitems⟩ := ih hstop hstopAt
    rw [scanFrom_cons hdrop]
    exact ⟨hlast, List.forall_mem_cons.mpr
      ⟨⟨⟨_, _, _, hstart, hstartAt⟩, _, _, _, hstop, hstopAt⟩, hitems⟩⟩

end Progress

/-! ### Tokens -/

-- The line of a token lags behind the line breaks that scanning has met before the token by the
-- carriage returns that stand alone there.
theorem line_add_loneReturns {source : String} (hsource : Stringless source.toList) :
    ∀ t ∈ (tokenize source).tokens, ∃ before after breaks,
      Progress source.toList before after breaks ∧ t.span.start = utf8Length before
      ∧ breaks = lineBreaks before ∧ ¬ PartsBreak before after
      ∧ (Position.of source.toList t.span.start).line + loneReturns before = breaks + 1 := by
  have hinitial : Progress source.toList [] source.toList 0 := .start
  have hreached := hinitial.reached_scanFrom rfl
  rw [utf8Length_toList] at hreached
  intro t ht
  obtain ⟨before, after, breaks, hprogress, hstart⟩ :=
    (Layout.forall_edges_arrange hreached.1 hreached.2 t ht).1
  obtain ⟨rfl, hwhole⟩ := hprogress.breaks_eq hsource
  refine ⟨before, after, _, hprogress, hstart, rfl, hwhole, ?_⟩
  rw [hstart, hprogress.text_eq, Position.of_append, Position.foldl_next, ← count_lineFeed_add]
  dsimp only
  omega

-- A carriage return ends a line, and another one a line that is joined to the next.
theorem line_add_loneReturns_joined :
    let source := "a\rb \\\r\n\tc"
    Stringless source.toList ∧ ⟨.name "c", ⟨8, 9⟩⟩ ∈ (tokenize source).tokens
      ∧ (∃ before after, Progress source.toList before after 2 ∧ 8 = utf8Length before)
      ∧ (Position.of source.toList 8).line = 2 := by
  intro source
  have hsource : Stringless source.toList := by simp [source, Stringless]
  have htoken : ⟨.name "c", ⟨8, 9⟩⟩ ∈ (tokenize source).tokens := by decide +kernel
  obtain ⟨before, after, breaks, hprogress, hstart, hbreaks, -, hline⟩ :=
    line_add_loneReturns hsource _ htoken
  have hbefore : before = "a\rb \\\r\n\t".toList := by
    have hcut := Position.charsBefore_append before after
    rw [← hprogress.text_eq, ← hstart] at hcut
    exact hcut.symm.trans (by decide +kernel)
  subst hbefore
  obtain rfl : breaks = 2 := hbreaks.trans (by decide +kernel)
  have hlone : loneReturns "a\rb \\\r\n\t".toList = 1 := by decide +kernel
  rw [hlone] at hline
  exact ⟨hsource, htoken, ⟨_, after, hprogress, hstart⟩, Nat.succ.inj hline⟩

end NoteCell
