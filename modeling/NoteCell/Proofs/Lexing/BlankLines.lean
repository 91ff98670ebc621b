import NoteCell.Proofs.Lexing.Cuttings
import NoteCell.Proofs.Lexing.Seam

/-!
Blank lines. A line of blanks and a comment may be put in wherever a line starts, at the start of a
source or behind a line break, and the source reads the same.
-/
namespace NoteCell

/-! ### What a source reads as -/

-- The tokens and the kind of the fault, wherever they stand.
def TokenStream.reads (s : TokenStream) : List Token × Option LexFault :=
  (s.tokens.map (·.token), s.error.map (·.fault))

theorem TokenStream.reads_relocate (g : Nat → Nat) (s : TokenStream) :
    (s.relocate g).reads = s.reads := by
  rw [reads, reads, relocate, List.map_map, Option.map_map]
  rfl

def Lexeme.forget : Lexeme → Lexeme
  | .fault f _ => .fault f 0
  | lexeme => lexeme

-- A lexeme without its place.
def Scanned.forget (i : Scanned) : Scanned := ⟨i.lead, i.lexeme.forget, ⟨0, 0⟩⟩

namespace Layout

theorem relocates_forget (i : Scanned) : i.Relocates (fun _ => 0) i.forget := by
  refine ⟨rfl, rfl, ?_⟩
  rw [Scanned.forget]
  cases i.lexeme with
  | token t => exact .token t
  | lineBreak => exact .lineBreak
  | fault f offset => exact .fault f rfl

theorem reads_arrange (stop : Nat) (s : State) (items : List Scanned) :
    (arrange stop s items).reads = (arrange 0 s (items.map Scanned.forget)).reads := by
  have h := @arrange_relocate (fun _ => 0) items (items.map Scanned.forget)
    (List.forall₂_map_right_iff.mpr (List.forall₂_same.mpr fun i _ => relocates_forget i)) stop s
  exact (congrArg TokenStream.reads h).symm ▸ (TokenStream.reads_relocate _ _).symm

theorem forget_scanFrom (offset offset' : Nat) (text : List Char) :
    (scanFrom offset text).map Scanned.forget = (scanFrom offset' text).map Scanned.forget := by
  have h (n : Nat) : (scanFrom n text).map Scanned.forget = (scanFrom 0 text).map Scanned.forget := by
    have hshift := scanFrom_shift n 0 text
    rw [Nat.add_zero] at hshift
    rw [hshift, List.map_map]
    rfl
  rw [h offset, h offset']

variable {stop : Nat} {s : State} {b i : Scanned} {bs items items' : List Scanned}

-- More line breaks behind a line break leave no trace.
theorem arrange_lineBreaks (hb : b.lexeme = .lineBreak) (hbs : ∀ b ∈ bs, b.lexeme = .lineBreak)
    (items : List Scanned) : arrange stop s (b :: (bs ++ items)) = arrange stop s (b :: items) := by
  induction bs generalizing b s
  case nil => rfl
  case cons b' bs ih =>
    obtain ⟨hb', hbs⟩ := List.forall_mem_cons.mp hbs
    rw [arrange_lineBreak hb, arrange_lineBreak hb, List.cons_append, ih hb' hbs, ih hb' hbs,
      arrange_lineBreak hb', arrange_lineBreak hb']
    split
    case isTrue => rfl
    case isFalse => rfl

theorem arrange_cons_congr (i : Scanned) (h : ∀ s, arrange stop s items = arrange stop s items')
    (s : State) : arrange stop s (i :: items) = arrange stop s (i :: items') := by
  rw [arrange, arrange]
  simp only [h]

end Layout

-- Rows of lexemes, the second of which has more line breaks behind some line break.
inductive BreaksIn : List Scanned → List Scanned → Prop
  | here {b b' : Scanned} {bs items items' : List Scanned} : b.lexeme = .lineBreak →
    b'.forget = b.forget → (∀ b ∈ bs, b.lexeme = .lineBreak) →
      items'.map Scanned.forget = items.map Scanned.forget →
        BreaksIn (b :: items) (b' :: (bs ++ items'))
  | behind (i : Scanned) {items items' : List Scanned} :
    BreaksIn items items' → BreaksIn (i :: items) (i :: items')

theorem BreaksIn.reads {items items' : List Scanned} (h : BreaksIn items items') (stop stop' : Nat)
    (s : Layout.State) :
    (Layout.arrange stop' s items').reads = (Layout.arrange stop s items).reads := by
  have hforgotten (s : Layout.State) : Layout.arrange 0 s (items'.map Scanned.forget)
      = Layout.arrange 0 s (items.map Scanned.forget) := by
    induction h generalizing s
    case here b b' bs items items' hb hb' hbs hitems =>
      rw [List.map_cons, List.map_append, hb', hitems, List.map_cons]
      have hforget {b : Scanned} (hb : b.lexeme = .lineBreak) : b.forget.lexeme = .lineBreak :=
        congrArg Lexeme.forget hb
      refine Layout.arrange_lineBreaks (hforget hb) (List.forall_mem_map.mpr fun b hb => ?_) _
      exact hforget (hbs b hb)
    case behind i items items' _ ih => exact Layout.arrange_cons_congr i.forget ih s
  rw [Layout.reads_arrange stop', hforgotten, ← Layout.reads_arrange]

/-! ### Blank lines -/

-- Blanks, a comment or none, and the line feed.
inductive BlankLine : List Char → Prop
  | lineFeed : BlankLine ['\n']
  | comment {cs : List Char} : (∀ c ∈ cs, isLineBreak c = false) → BlankLine ('#' :: (cs ++ ['\n']))
  | blank {c : Char} {cs : List Char} :
    c = ' ' ∨ c = '\t' ∨ c = '\x0c' → BlankLine cs → BlankLine (c :: cs)

namespace BlankLine

variable {line : List Char}

theorem eq_of_head (h : BlankLine line) (hhead : line.head? = some '\n') : line = ['\n'] := by
  cases h with
  | lineFeed => rfl
  | comment => cases hhead
  | blank hc => obtain rfl | rfl | rfl := hc <;> cases hhead

theorem exists_padding (h : BlankLine line) : ∃ pad, line = pad ++ ['\n']
    ∧ ∀ more, paddingLength false (pad ++ '\n' :: more) = pad.length := by
  induction h
  case lineFeed => exact ⟨[], rfl, fun more => paddingLength_of_not_padding (by decide) more⟩
  case comment cs hcs =>
    refine ⟨'#' :: cs, rfl, fun more => ?_⟩
    rw [List.cons_append, paddingLength_cons (by decide), if_neg (by decide), if_pos rfl,
      paddingLength_comment hcs, paddingLength.eq_2, if_pos (by decide), List.length_cons, Nat.add_zero,
      Nat.add_comm]
  case blank c cs hc _ ih =>
    obtain ⟨pad, rfl, hpad⟩ := ih
    refine ⟨c :: pad, rfl, fun more => ?_⟩
    have hslash : c ≠ '\\' := by obtain rfl | rfl | rfl := hc <;> decide
    rw [List.cons_append, paddingLength_cons hslash, if_pos (by simpa [or_assoc] using hc), hpad,
      List.length_cons, Nat.add_comm]

-- Such a line is one lexeme, its line break.
theorem scanFrom_append (h : BlankLine line) (offset : Nat) (more : List Char) :
    ∃ i, i.lexeme = .lineBreak
      ∧ scanFrom offset (line ++ more) = i :: scanFrom (offset + utf8Length line) more := by
  obtain ⟨pad, rfl, hpad⟩ := h.exists_padding
  have htext : pad ++ ['\n'] ++ more = pad ++ '\n' :: more := by simp
  have hdrop : (pad ++ '\n' :: more).drop (paddingLength false (pad ++ '\n' :: more))
      = '\n' :: more := by
    rw [hpad, List.drop_left]
  have hfirst : Piece.first '\n' more = ⟨.lineBreak, 0⟩ := rfl
  rw [htext, scanFrom_cons hdrop, hpad, List.take_left, hfirst, utf8Length_append, ← Nat.add_assoc]
  exact ⟨_, rfl, rfl⟩

end BlankLine

/-! ### Lines put in -/

section

variable {offset : Nat} {text front back line : List Char} {i : Scanned}

theorem eq_nil_of_utf8Length (h : utf8Length text = 0) : text = [] := by
  cases text with
  | nil => rfl
  | cons c cs =>
    have := c.utf8Size_pos
    rw [utf8Length_cons] at h
    omega

-- Of two parts that a text starts with, the shorter is a part of the longer.
theorem exists_of_utf8Length_le {cs ds : List Char} (h : front ++ back = cs ++ ds)
    (hle : utf8Length cs ≤ utf8Length front) : ∃ rest, front = cs ++ rest ∧ ds = rest ++ back := by
  obtain ⟨rest, rfl, rfl⟩ | ⟨rest, rfl, rfl⟩ := List.append_eq_append_iff.mp h
  · rw [utf8Length_append] at hle
    obtain rfl := @eq_nil_of_utf8Length rest (by omega)
    exact ⟨[], by simp, by simp⟩
  · exact ⟨rest, rfl, rfl⟩

theorem eq_of_utf8Length_eq {cs ds : List Char} (h : front ++ back = cs ++ ds)
    (hlength : utf8Length front = utf8Length cs) : front = cs ∧ ds = back := by
  obtain ⟨rest, rfl, rfl⟩ := exists_of_utf8Length_le h hlength.ge
  rw [utf8Length_append] at hlength
  obtain rfl := @eq_nil_of_utf8Length rest (by omega)
  exact ⟨List.append_nil cs, rfl⟩

-- A lexeme of a text that ends in a line break, whatever stands behind the text.
theorem scanFrom_within {lead part : List Char} {c : Char} {lexeme : Lexeme}
    (hlead : paddingLength false (lead ++ c :: part ++ (text ++ back)) = lead.length)
    (hfirst : Piece.first c (part ++ (text ++ back)) = ⟨lexeme, part.length⟩) (hlast : EndsInBreak text)
    (offset : Nat) (more : List Char) : scanFrom offset (lead ++ c :: part ++ (text ++ more))
      = ⟨lead, lexeme, ⟨offset + utf8Length lead, offset + utf8Length lead + utf8Length (c :: part)⟩⟩
        :: scanFrom (offset + utf8Length lead + utf8Length (c :: part)) (text ++ more) := by
  have hpos : 0 < text.length := by
    obtain ⟨d, hd, -⟩ := hlast
    exact List.length_pos_of_mem (List.mem_of_getLast? hd)
  have hlead' : paddingLength false (lead ++ c :: part ++ (text ++ more)) = lead.length := by
    rw [← List.append_assoc] at hlead ⊢
    rw [paddingLength_within (hlast.append _) _ more, hlead]
    rw [hlead, List.length_append, List.length_append]
    omega
  have hfirst' : Piece.first c (part ++ (text ++ more)) = ⟨lexeme, part.length⟩ := by
    rw [← List.append_assoc] at hfirst ⊢
    rw [Piece.first_within (hlast.append _) _ more, hfirst]
    rw [hfirst, List.length_append]
    exact Nat.lt_add_of_pos_right hpos
  have htext : lead ++ c :: part ++ (text ++ more) = lead ++ c :: (part ++ (text ++ more)) := by simp
  rw [htext] at hlead' ⊢
  exact scanFrom_piece hlead' hfirst' offset

-- A line break with a blank line behind it. A carriage return takes up a line feed.
theorem breaksIn_lineBreak {lead part : List Char} {c : Char} (hbreak : isLineBreak c)
    (hlead : paddingLength false (lead ++ c :: (part ++ back)) = lead.length)
    (hfirst : Piece.first c (part ++ back) = ⟨.lineBreak, part.length⟩) (hline : BlankLine line)
    (offset : Nat) : EndsInBreak (lead ++ c :: part)
      ∧ BreaksIn (scanFrom offset (lead ++ c :: (part ++ back)))
        (scanFrom offset (lead ++ c :: (part ++ (line ++ back)))) := by
  have hparts : part = [] ∨ c = '\r' ∧ part = ['\n'] := by
    obtain h | ⟨hc, ds, hds, h⟩ := Piece.first_of_isLineBreak hbreak (part ++ back)
    case inl => exact .inl (List.eq_nil_of_length_eq_zero (congrArg Piece.extra (hfirst.symm.trans h)))
    case inr =>
      have hlength : part.length = 1 := congrArg Piece.extra (hfirst.symm.trans h)
      obtain ⟨d, rfl⟩ := List.length_eq_one_iff.mp hlength
      injection hds with hd
      exact .inr ⟨hc, hd ▸ rfl⟩
  have hlast : EndsInBreak (lead ++ c :: part) := by
    refine EndsInBreak.append ?_ lead
    obtain rfl | ⟨rfl, rfl⟩ := hparts
    · exact ⟨c, rfl, hbreak⟩
    · exact ⟨'\n', rfl, rfl⟩
  have hlead' : paddingLength false (lead ++ c :: (part ++ (line ++ back))) = lead.length := by
    rw [← List.cons_append, ← List.append_assoc] at hlead ⊢
    rw [paddingLength_within hlast _ (line ++ back), hlead]
    rw [hlead, List.length_append, List.length_cons]
    omega
  refine ⟨hlast, ?_⟩
  rw [scanFrom_piece hlead hfirst]
  by_cases hjoined : part = [] ∧ c = '\r' ∧ line = ['\n']
  case pos =>
    obtain ⟨rfl, rfl, rfl⟩ := hjoined
    rw [List.nil_append] at hlead' ⊢
    rw [@scanFrom_piece lead ['\n'] back '\r' .lineBreak hlead' rfl]
    exact @BreaksIn.here _ _ [] _ _ rfl rfl (List.forall_mem_nil _) (Layout.forget_scanFrom _ _ back)
  case neg =>
    have hfirst' : Piece.first c (part ++ (line ++ back)) = ⟨.lineBreak, part.length⟩ := by
      obtain rfl | ⟨rfl, rfl⟩ := hparts
      case inr => rfl
      case inl =>
        obtain h | ⟨hc, ds, hds, -⟩ := Piece.first_of_isLineBreak hbreak ([] ++ (line ++ back))
        case inl => exact h
        case inr =>
          refine (hjoined ⟨rfl, hc, hline.eq_of_head ?_⟩).elim
          obtain ⟨pad, rfl, -⟩ := hline.exists_padding
          cases pad <;> exact congrArg List.head? hds
    obtain ⟨b, hb, hscan⟩ := hline.scanFrom_append
      (offset + utf8Length lead + utf8Length (c :: part)) back
    rw [scanFrom_piece hlead' hfirst', hscan]
    exact @BreaksIn.here _ _ [b] _ _ rfl rfl (by simpa using hb) (Layout.forget_scanFrom _ _ back)

theorem breaksIn_scanFrom (hline : BlankLine line) (hi : i ∈ scanFrom offset text)
    (hbreak : i.lexeme = .lineBreak) (htext : text = front ++ back)
    (hstop : i.span.stop = offset + utf8Length front) :
    EndsInBreak front ∧ BreaksIn (scanFrom offset text) (scanFrom offset (front ++ (line ++ back))) := by
  induction offset, text using scanFrom.induct generalizing front
  case case1 offset text hend =>
    rw [scanFrom_nil hend] at hi
    cases hi
  case case2 offset text lead c cs hdrop piece start stop ih =>
    obtain ⟨hcs, hlead⟩ : text = lead ++ c :: cs ∧ paddingLength false text = lead.length :=
      lead_append hdrop
    have hparts : front ++ back = (lead ++ c :: cs.take piece.extra) ++ cs.drop piece.extra := by
      rw [← htext, hcs, List.append_assoc, List.cons_append, List.take_append_drop]
    have hlength : stop = offset + utf8Length (lead ++ c :: cs.take piece.extra) := by
      rw [utf8Length_append, ← Nat.add_assoc]
    -- The piece is as long as it says.
    have hfirst (hle : piece.extra ≤ cs.length) :
        Piece.first c (cs.take piece.extra ++ cs.drop piece.extra)
          = ⟨piece.lexeme, (cs.take piece.extra).length⟩ := by
      rw [List.take_append_drop, List.length_take, Nat.min_eq_left hle]
    rw [scanFrom_cons hdrop] at hi
    obtain rfl | hi := List.mem_cons.mp hi
    case inl =>
      have hsame : utf8Length front = utf8Length (lead ++ c :: cs.take piece.extra) :=
        Nat.add_left_cancel (hstop.symm.trans hlength)
      obtain ⟨rfl, hback⟩ := eq_of_utf8Length_eq hparts hsame
      have hlexeme : piece.lexeme = .lineBreak := hbreak
      have hle : piece.extra ≤ cs.length := Piece.first_extra_le fun f at_ => by simp [piece, hlexeme]
      have hfirst := hfirst hle
      rw [hback, hlexeme] at hfirst
      have hassoc (more : List Char) :
          lead ++ c :: cs.take piece.extra ++ more = lead ++ c :: (cs.take piece.extra ++ more) :=
        List.append_assoc ..
      rw [htext, hassoc] at hlead
      rw [htext, hassoc, hassoc]
      exact breaksIn_lineBreak (Piece.isLineBreak_of_lineBreak hbreak) hlead hfirst hline offset
    case inr =>
      have hinside : stop ≤ i.span.start ∧ i.span.start < i.span.stop :=
        ⟨(cut_scanFrom _ _).start_le i hi, (cut_scanFrom _ _).nonempty i hi⟩
      obtain ⟨rest, rfl, hback⟩ := exists_of_utf8Length_le hparts (by omega)
      have hrest : i.span.stop = stop + utf8Length rest := by
        rw [hstop, hlength, utf8Length_append _ rest, Nat.add_assoc]
      obtain ⟨hlast, hin⟩ := ih hi hback hrest
      have hle : piece.extra ≤ cs.length := by
        by_contra hlt
        rw [List.drop_eq_nil_of_le (by omega)] at hback
        obtain ⟨rfl, -⟩ := List.append_eq_nil_iff.mp hback.symm
        obtain ⟨d, hd, -⟩ := hlast
        cases hd
      have hfirst := hfirst hle
      rw [hback] at hfirst hin
      rw [htext, List.append_assoc] at hlead
      refine ⟨hlast.append _, ?_⟩
      have hwithin := scanFrom_within hlead hfirst hlast offset
      rw [htext, List.append_assoc _ rest, List.append_assoc _ rest, hwithin, hwithin]
      exact .behind _ hin

end

-- Where a line starts in a source: at its start, and behind its line breaks.
def StartsLine (before after : String) : Prop :=
  before = "" ∨ ∃ i ∈ scan (before ++ after), i.lexeme = .lineBreak ∧ i.span.stop = before.utf8ByteSize

instance (before after : String) : Decidable (StartsLine before after) :=
  inferInstanceAs (Decidable (_ ∨ _))

-- A blank line leaves no trace in what a source reads as, also within brackets and blocks.
theorem tokenize_blankLine {before line after : String} (hline : BlankLine line.toList)
    (hstart : StartsLine before after) :
    (tokenize (before ++ line ++ after)).reads = (tokenize (before ++ after)).reads := by
  have htext : (before ++ line ++ after).toList
      = before.toList ++ (line.toList ++ after.toList) := by
    rw [String.toList_append, String.toList_append, List.append_assoc]
  rw [tokenize, tokenize, scan, htext]
  obtain rfl | ⟨i, hi, hbreak, hstop⟩ := hstart
  case inl =>
    obtain ⟨b, hb, hscan⟩ := hline.scanFrom_append 0 after.toList
    have hinitial (stop : Nat) (items : List Scanned) :
        Layout.arrange stop .initial (b :: items) = Layout.arrange stop .initial items :=
      Layout.arrange_lineBreak hb items
    rw [String.toList_empty, List.nil_append, hscan, hinitial, String.empty_append, Layout.reads_arrange,
      Layout.forget_scanFrom _ 0, ← Layout.reads_arrange]
    rfl
  case inr =>
    rw [← utf8Length_toList, ← Nat.zero_add (utf8Length _)] at hstop
    exact (breaksIn_scanFrom hline hi hbreak (String.toList_append ..) hstop).2.reads _ _ _

theorem tokenize_blankLine_brackets :
    BlankLine " \t# c\n".toList ∧ StartsLine "if a:\n  b = [1,\r" "2]\n"
      ∧ (tokenize ("if a:\n  b = [1,\r" ++ " \t# c\n" ++ "2]\n")).reads
        = (tokenize ("if a:\n  b = [1,\r" ++ "2]\n")).reads := by
  have hcomment : BlankLine ['#', ' ', 'c', '\n'] :=
    @BlankLine.comment [' ', 'c'] (by simp [isLineBreak])
  have hline : BlankLine " \t# c\n".toList := .blank (.inl rfl) (.blank (.inr (.inl rfl)) hcomment)
  have hstart : StartsLine "if a:\n  b = [1,\r" "2]\n" := by decide +kernel
  exact ⟨hline, hstart, tokenize_blankLine hline hstart⟩

end NoteCell
