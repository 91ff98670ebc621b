import NoteCell.Proofs.Lexing.LaidOut
import NoteCell.Proofs.Lexing.Relocated
import NoteCell.Proofs.Lexing.Replaced

/-!
Line endings. A source without strings reads alike when its lines end in a carriage return, alone or
before the line feed: its tokens are the same, and stand behind the characters that were put in.
-/
namespace NoteCell

inductive LineEnding where
  | crLf
  | cr
deriving DecidableEq

namespace LineEnding

-- What stands behind the carriage return.
def feed : LineEnding → List Char
  | crLf => ['\n']
  | cr => []

-- A text of lines that end in line feeds, with the other line ending.
def write (e : LineEnding) (text : List Char) : List Char :=
  text.flatMap fun c => if c = '\n' then '\r' :: e.feed else [c]

-- An offset, behind the characters that are put in before it.
def offset (e : LineEnding) (text : List Char) (k : Nat) : Nat :=
  k + e.feed.length * (Position.charsBefore text k).count '\n'

section

variable (e : LineEnding) {c : Char} {cs ds : List Char}

theorem write_lineFeed (cs : List Char) : e.write ('\n' :: cs) = '\r' :: (e.feed ++ e.write cs) := rfl

theorem write_cons (hc : c ≠ '\n') (cs : List Char) : e.write (c :: cs) = c :: e.write cs := by
  rw [write, List.flatMap_cons, if_neg hc]
  rfl

theorem write_append (cs ds : List Char) : e.write (cs ++ ds) = e.write cs ++ e.write ds :=
  List.flatMap_append

theorem write_of_not_mem (h : '\n' ∉ cs) : e.write cs = cs := by
  induction cs
  case nil => rfl
  case cons c cs ih =>
    obtain ⟨hc, hcs⟩ := not_or.mp (List.mem_cons.not.mp h)
    rw [write_cons e (Ne.symm hc), ih hcs]

theorem utf8Length_write (cs : List Char) :
    utf8Length (e.write cs) = utf8Length cs + e.feed.length * cs.count '\n' := by
  induction cs
  case nil => rfl
  case cons c cs ih =>
    by_cases hc : c = '\n'
    case pos =>
      subst hc
      have hsize : utf8Length ('\r' :: e.feed) = '\n'.utf8Size + e.feed.length := by
        cases e <;> rfl
      rw [write_lineFeed, ← List.cons_append, utf8Length_append, hsize, ih, List.count_cons_self,
        Nat.mul_succ, utf8Length_cons]
      omega
    case neg =>
      rw [write_cons e hc, utf8Length_cons, utf8Length_cons, ih, List.count_cons_of_ne hc,
        Nat.add_assoc]

-- Where a part of a text ends, it ends in what is written.
theorem offset_append (cs ds : List Char) :
    e.offset (cs ++ ds) (utf8Length cs) = utf8Length (e.write cs) := by
  rw [offset, Position.charsBefore_append, utf8Length_write]

theorem ne_of_write {d : Char} (h : e.write cs = d :: ds) : d ≠ '\n' := by
  cases cs with
  | nil => cases h
  | cons c cs =>
    by_cases hc : c = '\n'
    case pos =>
      subst hc
      rw [write_lineFeed] at h
      injection h with hhead
      exact hhead ▸ by decide
    case neg =>
      rw [write_cons e hc] at h
      injection h with hhead
      exact hhead ▸ hc

theorem exists_lineFeed (hcr : '\r' ∉ cs) (h : e.write cs = '\r' :: ds) :
    ∃ rest, cs = '\n' :: rest := by
  cases cs with
  | nil => cases h
  | cons c cs =>
    by_cases hc : c = '\n'
    case pos => exact ⟨cs, hc ▸ rfl⟩
    case neg =>
      rw [write_cons e hc] at h
      injection h with hhead
      exact (hcr (hhead ▸ List.mem_cons_self)).elim

/-! ### Padding -/

theorem indentWidth_write (width : Nat) (cs : List Char) :
    Layout.indentWidth width (e.write cs) = Layout.indentWidth width cs := by
  induction cs generalizing width
  case nil => rfl
  case cons c cs ih =>
    by_cases hc : c = '\n'
    case pos =>
      subst hc
      rfl
    case neg =>
      rw [write_cons e hc, Layout.indentWidth, Layout.indentWidth]
      simp only [ih]

theorem length_write_take (hc : c ≠ '\n') (cs : List Char) (n : Nat) :
    (e.write ((c :: cs).take (1 + n))).length = 1 + (e.write (cs.take n)).length := by
  rw [Nat.add_comm 1, List.take_succ_cons, write_cons e hc, List.length_cons, Nat.add_comm 1]

-- A backslash joins lines that are written so where it joined them before.
theorem paddingLength_write_cons (hcr : '\r' ∉ cs)
    (hjoins : ∀ ds, c = '\\' → cs = '\n' :: ds → False) : paddingLength false (c :: e.write cs)
      = if c = ' ' || c = '\t' || c = '\x0c' then 1 + paddingLength false (e.write cs)
        else if c = '#' then 1 + paddingLength true (e.write cs) else 0 := by
  have hreturn (ds : List Char) (hslash : c = '\\') (h : e.write cs = '\r' :: ds) : False := by
    obtain ⟨rest, hrest⟩ := exists_lineFeed e hcr h
    exact hjoins rest hslash hrest
  exact paddingLength.eq_6 _ _ (fun ds hslash h => hreturn _ hslash h) hreturn
    fun ds _ h => ne_of_write e h rfl

theorem paddingLength_write {flag : Bool} {text : List Char} (hcr : '\r' ∉ text) :
    paddingLength flag (e.write text) = (e.write (text.take (paddingLength flag text))).length := by
  induction flag, text using paddingLength.induct
  case case1 flag => cases flag <;> rfl
  case case2 c cs hbreak =>
    obtain rfl : c = '\n' :=
      Piece.of_isLineBreak (P := fun d => '\r' ∉ d :: cs → d = '\n') hbreak (by simp) (by simp) hcr
    rfl
  case case3 c cs hbreak ih =>
    have hc : c ≠ '\n' := by
      rintro rfl
      exact hbreak rfl
    have ih := ih (List.not_mem_of_not_mem_cons hcr)
    rw [write_cons e hc, paddingLength, paddingLength, if_neg hbreak, if_neg hbreak, ih,
      length_write_take e hc]
  case case4 cs ih => simp at hcr
  case case5 cs hcrlf ih => simp at hcr
  case case6 cs ih =>
    have hcs : '\r' ∉ cs := by simpa using hcr
    have hlength : paddingLength false ('\\' :: '\r' :: (e.feed ++ e.write cs))
        = 2 + e.feed.length + paddingLength false (e.write cs) := by
      cases e with
      | crLf => rfl
      | cr => exact paddingLength.eq_4 _ fun ds h => ne_of_write _ h rfl
    have htake : ('\\' :: '\n' :: cs).take (2 + paddingLength false cs)
        = '\\' :: '\n' :: cs.take (paddingLength false cs) := by
      rw [Nat.add_comm]
      rfl
    rw [write_cons e (by decide), write_lineFeed, hlength, ih hcs, paddingLength, htake,
      write_cons e (by decide), write_lineFeed, List.length_cons, List.length_cons, List.length_append]
    omega
  case case7 c cs hcrlf hreturn hjoins hblank ih =>
    have hc : c ≠ '\n' := by
      rintro rfl
      cases hblank
    have hcs := List.not_mem_of_not_mem_cons hcr
    rw [write_cons e hc, paddingLength_write_cons e hcs hjoins, if_pos hblank,
      paddingLength.eq_6 _ _ hcrlf hreturn hjoins, if_pos hblank, ih hcs,
      length_write_take e hc]
  case case8 cs hcrlf hreturn hjoins hblank ih =>
    have hc : '#' ≠ '\n' := by decide
    have hcs := List.not_mem_of_not_mem_cons hcr
    rw [write_cons e hc, paddingLength_write_cons e hcs hjoins, if_neg hblank, if_pos rfl,
      paddingLength.eq_6 _ _ hcrlf hreturn hjoins, if_neg hblank, if_pos rfl, ih hcs,
      length_write_take e hc]
  case case9 c cs hcrlf hreturn hjoins hblank hhash =>
    rw [paddingLength.eq_6 _ _ hcrlf hreturn hjoins, if_neg hblank, if_neg hhash]
    by_cases hc : c = '\n'
    case pos =>
      subst hc
      rw [write_lineFeed, paddingLength_cons (by decide)]
      rfl
    case neg =>
      rw [write_cons e hc,
        paddingLength_write_cons e (List.not_mem_of_not_mem_cons hcr) hjoins, if_neg hblank,
        if_neg hhash]
      rfl

theorem padding_write {text : List Char} (hcr : '\r' ∉ text) :
    (e.write text).take (paddingLength false (e.write text))
        = e.write (text.take (paddingLength false text))
      ∧ (e.write text).drop (paddingLength false (e.write text))
        = e.write (text.drop (paddingLength false text)) := by
  have hwrite := write_append e (text.take (paddingLength false text))
    (text.drop (paddingLength false text))
  rw [List.take_append_drop] at hwrite
  rw [paddingLength_write e hcr, hwrite, List.take_left, List.drop_left]
  exact ⟨rfl, rfl⟩

/-! ### Lexemes -/

-- A text without quotation marks, the lines of which end in line feeds.
def Unquoted (text : List Char) : Prop := ∀ c ∈ text, c ≠ '\'' ∧ c ≠ '"' ∧ c ≠ '\r'

theorem Unquoted.not_mem (h : Unquoted cs) : '\r' ∉ cs := fun hcr => (h _ hcr).2.2 rfl

-- A lexeme and what it is written as, at the head of a text and of what that is written as.
structure CutsAlike (c c' : Char) (cs cs' : List Char) : Prop where
  lexeme : (Piece.first c' cs').lexeme = (Piece.first c cs).lexeme
  part : c' :: cs'.take (Piece.first c' cs').extra = e.write (c :: cs.take (Piece.first c cs).extra)
  rest : cs'.drop (Piece.first c' cs').extra = e.write (cs.drop (Piece.first c cs).extra)

theorem cutsAlike_lineFeed (cs : List Char) :
    e.CutsAlike '\n' '\r' cs (e.feed ++ e.write cs) := by
  have hfirst : Piece.first '\n' cs = ⟨.lineBreak, 0⟩ := rfl
  have hwritten : Piece.first '\r' (e.feed ++ e.write cs) = ⟨.lineBreak, e.feed.length⟩ := by
    cases e with
    | crLf => rfl
    | cr =>
      have hstop : ['\n'].isPrefixOf (write cr cs) = false := by
        rw [Bool.eq_false_iff]
        intro hprefix
        obtain ⟨ds, hds⟩ := List.isPrefixOf_iff_prefix.mp hprefix
        exact ne_of_write _ hds.symm rfl
      simp [Piece.first, isLineBreak, feed, hstop]
  refine ⟨by rw [hwritten, hfirst], ?_, ?_⟩
  · rw [hwritten, hfirst, List.take_left]
    exact (List.append_nil _).symm
  · rw [hwritten, hfirst, List.drop_left]
    rfl

theorem cutsAlike_of_unquoted (hbreak : isLineBreak c = false)
    (hquote : (c = '\'' || c = '"') = false) (cs : List Char) : e.CutsAlike c c cs (e.write cs) := by
  have hc : c ≠ '\n' := by
    rintro rfl
    cases hbreak
  -- The lexeme ends within its line, which is written as it is.
  obtain ⟨line, rest, rfl, hline, hfirst, hwritten⟩ : ∃ line rest, cs = line ++ rest ∧ '\n' ∉ line
      ∧ Piece.first c (line ++ rest) = Piece.first c line
      ∧ Piece.first c (line ++ e.write rest) = Piece.first c line := by
    by_cases hmem : '\n' ∈ cs
    case neg => exact ⟨cs, [], (List.append_nil cs).symm, hmem, by simp, by simp [write]⟩
    case pos =>
      obtain ⟨line, rest, rfl, hline⟩ := List.eq_append_cons_of_mem hmem
      exact ⟨line, '\n' :: rest, rfl, hline, Piece.first_lineBreak rfl line rest hbreak hquote,
        Piece.first_lineBreak rfl line _ hbreak hquote⟩
  have hle := @Piece.first_extra_le_of_unquoted c line hquote
  have htake : '\n' ∉ line.take (Piece.first c line).extra := fun h => hline (List.mem_of_mem_take h)
  have hdrop : '\n' ∉ line.drop (Piece.first c line).extra := fun h => hline (List.mem_of_mem_drop h)
  rw [write_append, write_of_not_mem e hline]
  constructor
  · rw [hwritten, hfirst]
  · rw [hwritten, hfirst, List.take_append_of_le_length hle, List.take_append_of_le_length hle,
      write_cons e hc, write_of_not_mem e htake]
  · rw [hwritten, hfirst, List.drop_append_of_le_length hle, List.drop_append_of_le_length hle,
      write_append, write_of_not_mem e hdrop]

theorem exists_cutsAlike (h : Unquoted (c :: cs)) :
    ∃ c' cs', e.write (c :: cs) = c' :: cs' ∧ e.CutsAlike c c' cs cs' := by
  by_cases hc : c = '\n'
  case pos =>
    subst hc
    exact ⟨'\r', _, write_lineFeed e cs, cutsAlike_lineFeed e cs⟩
  case neg =>
    obtain ⟨hsingle, hdouble, hreturn⟩ := h c List.mem_cons_self
    exact ⟨c, _, write_cons e hc cs, cutsAlike_of_unquoted e (by simp [isLineBreak, hc, hreturn])
      (by simp [hsingle, hdouble]) cs⟩

/-! ### Sources -/

-- Where each part of the text ends is known of `g`.
theorem scanFrom_write {g : Nat → Nat} {offset : Nat} {text : List Char} (h : Unquoted text)
    (offset' : Nat) (hg : ∀ before after, text = before ++ after →
      g (offset + utf8Length before) = offset' + utf8Length (e.write before)) :
    List.Forall₂ (Scanned.Relocates g) (scanFrom offset text) (scanFrom offset' (e.write text)) := by
  induction offset, text using scanFrom.induct generalizing offset'
  case case1 offset text hend =>
    have hend' := (padding_write e h.not_mem).2
    rw [hend] at hend'
    rw [scanFrom_nil hend, scanFrom_nil hend']
    exact .nil
  case case2 offset text lead c cs hdrop piece start stop ih =>
    have htext : text = lead ++ c :: cs := by rw [← hdrop, List.take_append_drop]
    have hrest : Unquoted (c :: cs) := fun d hd => h d (htext ▸ List.mem_append_right lead hd)
    obtain ⟨c', cs', hwrite, hcuts⟩ := exists_cutsAlike e hrest
    obtain ⟨htake, hdrop'⟩ := padding_write e h.not_mem
    rw [hdrop, hwrite] at hdrop'
    have hsplit : c :: cs = c :: cs.take piece.extra ++ cs.drop piece.extra := by
      rw [List.cons_append, List.take_append_drop]
    have hstart : g start = offset' + utf8Length (e.write lead) := hg lead _ htext
    have hstop : g stop = offset' + utf8Length (e.write lead)
        + utf8Length (e.write (c :: cs.take piece.extra)) := by
      have hlength := hg (lead ++ c :: cs.take piece.extra) (cs.drop piece.extra)
        (by rw [htext, List.append_assoc, ← hsplit])
      rw [write_append] at hlength
      simp only [utf8Length_append, ← Nat.add_assoc] at hlength
      exact hlength
    rw [scanFrom_cons hdrop, scanFrom_cons hdrop']
    dsimp only
    rw [htake, hcuts.part, hcuts.rest]
    refine .cons ⟨indentWidth_write e 0 _, ?_, ?_⟩ (ih ?_ _ ?_)
    · exact congrArg₂ Span.mk hstart.symm hstop.symm
    · rw [hcuts.lexeme]
      refine .of_fault_at_start g fun f at_ hfault => Piece.offset_of_unquoted ?_ hfault
      obtain ⟨hsingle, hdouble, -⟩ := hrest c List.mem_cons_self
      simp [hsingle, hdouble]
    · exact fun d hd => hrest d (List.mem_cons_of_mem c (List.mem_of_mem_drop hd))
    · intro before after hsplit'
      have hlength := hg (lead ++ c :: cs.take piece.extra ++ before) after
        (by rw [htext, hsplit, hsplit', List.append_assoc, List.append_assoc])
      rw [write_append, write_append] at hlength
      simp only [utf8Length_append, ← Nat.add_assoc] at hlength
      exact hlength

end

end LineEnding

-- The line ending changes where the tokens are and nothing else.
theorem tokenize_write (e : LineEnding) {source : String} (h : LineEnding.Unquoted source.toList) :
    tokenize (String.ofList (e.write source.toList))
      = (tokenize source).relocate (e.offset source.toList) := by
  have hg (before after : List Char) (hsource : source.toList = before ++ after) :
      e.offset source.toList (0 + utf8Length before) = 0 + utf8Length (e.write before) := by
    rw [hsource, Nat.zero_add, e.offset_append, Nat.zero_add]
  have hstop : e.offset source.toList source.utf8ByteSize
      = (String.ofList (e.write source.toList)).utf8ByteSize := by
    have hall := hg source.toList [] (List.append_nil _).symm
    rwa [Nat.zero_add, Nat.zero_add, utf8Length_toList, ← String.toList_ofList (l := e.write _),
      utf8Length_toList] at hall
  rw [tokenize, tokenize, ← hstop, scan, String.toList_ofList]
  exact Layout.arrange_relocate (LineEnding.scanFrom_write e h 0 hg) _ _

theorem tokenize_write_crLf :
    LineEnding.Unquoted "if a:\n\tb = [1,\n2] \\\n# c\n".toList
      ∧ tokenize "if a:\r\n\tb = [1,\r\n2] \\\r\n# c\r\n"
        = (tokenize "if a:\n\tb = [1,\n2] \\\n# c\n").relocate
            (LineEnding.crLf.offset "if a:\n\tb = [1,\n2] \\\n# c\n".toList) := by
  have hunquoted : LineEnding.Unquoted "if a:\n\tb = [1,\n2] \\\n# c\n".toList := by
    simp [LineEnding.Unquoted]
  have hwrite : String.ofList (LineEnding.crLf.write "if a:\n\tb = [1,\n2] \\\n# c\n".toList)
      = "if a:\r\n\tb = [1,\r\n2] \\\r\n# c\r\n" := by
    decide +kernel
  exact ⟨hunquoted, hwrite ▸ tokenize_write .crLf hunquoted⟩

end NoteCell
