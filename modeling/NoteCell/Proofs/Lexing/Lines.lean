import NoteCell.Proofs.Lexing.Strings

/-!
Scanning printed lines. The words of a line are scanned one by one, when each two neighbours are kept
apart by a blank or by what they are.
-/
namespace NoteCell

open Piece

-- What matters of a lexeme but its place.
def Scanned.bare (i : Scanned) : List Char × Lexeme := (i.lead, i.lexeme)

theorem scanFrom_piece {lead cs rest : List Char} {c : Char} {lexeme : Lexeme}
    (hlead : paddingLength false (lead ++ c :: (cs ++ rest)) = lead.length)
    (hfirst : first c (cs ++ rest) = ⟨lexeme, cs.length⟩) (offset : Nat) :
    scanFrom offset (lead ++ c :: (cs ++ rest))
      = ⟨lead, lexeme, ⟨offset + utf8Length lead, offset + utf8Length lead + utf8Length (c :: cs)⟩⟩
        :: scanFrom (offset + utf8Length lead + utf8Length (c :: cs)) rest := by
  have hdrop : (lead ++ c :: (cs ++ rest)).drop (paddingLength false (lead ++ c :: (cs ++ rest)))
      = c :: (cs ++ rest) := by
    rw [hlead, List.drop_left]
  rw [scanFrom_cons hdrop, hfirst, hlead]
  simp only [List.take_left, List.drop_left]

theorem scanFrom_lexeme {lead cs rest : List Char} {c : Char} {lexeme : Lexeme}
    (hlead : paddingLength false (lead ++ c :: (cs ++ rest)) = lead.length)
    (hfirst : first c (cs ++ rest) = ⟨lexeme, cs.length⟩) (offset : Nat) :
    ∃ span stop, scanFrom offset (lead ++ c :: (cs ++ rest))
      = ⟨lead, lexeme, span⟩ :: scanFrom stop rest :=
  ⟨_, _, scanFrom_piece hlead hfirst offset⟩

-- A text that is scanned as the given lexemes, whatever stands before it.
def Scans (text rest : List Char) (lexemes : List (List Char × Lexeme)) : Prop :=
  ∀ offset, ∃ items stop, scanFrom offset (text ++ rest) = items ++ scanFrom stop rest
    ∧ items.map Scanned.bare = lexemes

theorem Scans.nil (rest : List Char) : Scans [] rest [] := fun offset => ⟨[], offset, rfl, rfl⟩

theorem Scans.append {text text' rest : List Char} {ls ls' : List (List Char × Lexeme)}
    (h : Scans text (text' ++ rest) ls) (h' : Scans text' rest ls') :
    Scans (text ++ text') rest (ls ++ ls') := by
  intro offset
  have ⟨items, stop, hscan, hitems⟩ := h offset
  have ⟨items', stop', hscan', hitems'⟩ := h' stop
  refine ⟨items ++ items', stop', ?_, by rw [List.map_append, hitems, hitems']⟩
  rw [List.append_assoc, hscan, hscan', List.append_assoc]

theorem Scans.lexeme {lead cs rest : List Char} {c : Char} {lexeme : Lexeme}
    (hlead : paddingLength false (lead ++ c :: (cs ++ rest)) = lead.length)
    (hfirst : first c (cs ++ rest) = ⟨lexeme, cs.length⟩) :
    Scans (lead ++ c :: cs) rest [(lead, lexeme)] := by
  intro offset
  have ⟨span, stop, h⟩ := scanFrom_lexeme hlead hfirst offset
  exact ⟨[⟨lead, lexeme, span⟩], stop, by simpa using h, rfl⟩

theorem paddingLength_blanks (n : Nat) (cs : List Char) :
    paddingLength false (List.replicate n ' ' ++ cs) = n + paddingLength false cs := by
  induction n with
  | zero => simp
  | succ n ih =>
    rw [List.replicate_succ, List.cons_append, paddingLength.eq_6 _ _ (by simp) (by simp) (by simp),
      if_pos (by simp), ih]
    omega

-- A token behind some blanks.
theorem Token.Reads.scans {t : Token} {rest : List Char} (h : t.Reads rest) (blanks : Nat) :
    Scans (List.replicate blanks ' ' ++ t.spelling.toList) rest
      [(List.replicate blanks ' ', .token t)] := by
  have ⟨c, cs, htext, hc, hfirst⟩ := h
  rw [htext]
  refine .lexeme ?_ hfirst
  rw [paddingLength_blanks, paddingLength_of_not_padding hc, List.length_replicate, Nat.add_zero]

theorem Scans.lineBreak (rest : List Char) : Scans ['\n'] rest [([], .lineBreak)] := by
  rw [← List.nil_append ['\n']]
  exact .lexeme rfl rfl

theorem Token.Lexable.exists_spelling {t : Token} (h : t.Lexable) :
    ∃ c cs, t.spelling.toList = c :: cs :=
  have ⟨c, cs, hc, _⟩ := @Token.reads [] t h nofun
  ⟨c, cs, hc⟩

/-! ### Words -/

-- Two tokens that may stand side by side.
def Token.Parts (t u : Token) : Prop := ∀ c ∈ u.spelling.toList.head?, t.runsOn c = false

-- What keeps a word apart from the one before it.
def Word.Follows (v w : Word) : Prop := w.spaced = true ∨ v.token.Parts w.token

theorem Token.not_runsOn_blank (t : Token) : t.runsOn ' ' = false := by
  cases t
  case sign s => cases s <;> rfl
  all_goals rfl

theorem Token.not_runsOn_lineBreak (t : Token) : t.runsOn '\n' = false := by
  cases t
  case sign s => cases s <;> rfl
  all_goals rfl

def Word.blanks (w : Word) : Nat := if w.spaced then 1 else 0

def Word.lexeme (w : Word) : List Char × Lexeme := (List.replicate w.blanks ' ', .token w.token)

theorem Word.chars_eq (w : Word) : w.chars = List.replicate w.blanks ' ' ++ w.token.spelling.toList := by
  rw [chars, blanks]
  split <;> rfl

-- The words of a line: tokens that a text can hold, and those side by side apart.
structure Readable (ws : List Word) : Prop where
  lexable : ∀ w ∈ ws, w.token.Lexable
  apart : ws.IsChain Word.Follows

section

variable {w : Word} {ws : List Word} {rest : List Char}

theorem Readable.tail (h : Readable (w :: ws)) : Readable ws :=
  ⟨fun v hv => h.lexable v (List.mem_cons_of_mem w hv), h.apart.tail⟩

theorem Readable.left {vs : List Word} (h : Readable (ws ++ vs)) : Readable ws :=
  ⟨fun v hv => h.lexable v (List.mem_append_left vs hv), h.apart.left_of_append⟩

theorem Readable.right {vs : List Word} (h : Readable (ws ++ vs)) : Readable vs :=
  ⟨fun v hv => h.lexable v (List.mem_append_right ws hv), h.apart.right_of_append⟩

-- Words each of which is read from the text of all that stands behind it.
def ReadOneByOne : List Word → List Char → Prop
  | [], _ => True
  | w :: ws, rest => w.token.Reads (ws.flatMap Word.chars ++ rest) ∧ ReadOneByOne ws rest

theorem ReadOneByOne.append {vs : List Word} (h : ReadOneByOne ws (vs.flatMap Word.chars ++ rest))
    (h' : ReadOneByOne vs rest) : ReadOneByOne (ws ++ vs) rest := by
  induction ws with
  | nil => exact h'
  | cons w ws ih =>
    have hw := h.1
    rw [← List.append_assoc, ← List.flatMap_append] at hw
    exact ⟨hw, ih h.2⟩

theorem ReadOneByOne.shift (h : ReadOneByOne ws rest) : ReadOneByOne (Word.shift ws) rest := by
  cases ws <;> exact h

theorem ReadOneByOne.scans (h : ReadOneByOne ws rest) :
    Scans (ws.flatMap Word.chars) rest (ws.map Word.lexeme) := by
  induction ws with
  | nil => exact .nil rest
  | cons w ws ih =>
    rw [List.flatMap_cons, List.map_cons, w.chars_eq]
    exact (h.1.scans w.blanks).append (ih h.2)

-- A line whose first word keeps no distance from the indentation.
theorem ReadOneByOne.scans_line {depth : Nat} (h : ReadOneByOne (w :: ws) rest)
    (hw : w.spaced = false) : Scans (Line.chars ⟨depth, w :: ws⟩) rest
      ((List.replicate (4 * depth) ' ', .token w.token) :: ws.map Word.lexeme) := by
  have hchars : w.chars = w.token.spelling.toList := by
    rw [Word.chars, hw]
    rfl
  rw [Line.chars, List.flatMap_cons, hchars, ← List.append_assoc]
  exact (h.1.scans (4 * depth)).append (ReadOneByOne.scans h.2)

-- What is kept apart from the word behind it does not run on with the text.
theorem Token.stops_word {t : Token} (hw : w.token.Lexable) (h : w.spaced = true ∨ t.Parts w.token)
    (ws : List Word) (rest : List Char) : t.Stops ((w :: ws).flatMap Word.chars ++ rest) := by
  intro c hc
  rw [List.flatMap_cons, Word.chars] at hc
  split at hc
  case isTrue =>
    cases hc
    exact t.not_runsOn_blank
  case isFalse hspaced =>
    have ⟨d, ds, hd⟩ := hw.exists_spelling
    rw [hd] at hc
    exact h.resolve_left hspaced c (by rw [hd]; exact hc)

-- The last word of a row is all that depends on what stands behind the row.
theorem Readable.readOneByOne (h : Readable ws) (hlast : ∀ w ∈ ws.getLast?, w.token.Reads rest) :
    ReadOneByOne ws rest := by
  induction ws with
  | nil => trivial
  | cons w ws ih =>
    cases ws with
    | nil => exact ⟨hlast w rfl, trivial⟩
    | cons v ws =>
      have hstops := Token.stops_word (h.lexable v (by simp)) h.apart.rel ws rest
      exact ⟨Token.reads (h.lexable w List.mem_cons_self) hstops, ih h.tail hlast⟩

-- Only a line break may stand right behind a line.
def EndsLine (rest : List Char) : Prop := ∀ c ∈ rest.head?, c = '\n'

theorem EndsLine.stops (h : EndsLine rest) (t : Token) : t.Stops rest := fun c hc =>
  h c hc ▸ t.not_runsOn_lineBreak

theorem Readable.readLine (h : Readable ws) (hrest : EndsLine rest) : ReadOneByOne ws rest :=
  h.readOneByOne fun w hw => Token.reads (h.lexable w (List.mem_of_getLast? hw)) (hrest.stops w.token)

end

end NoteCell
