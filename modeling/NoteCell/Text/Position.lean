/-!
Positions in a text. An offset counts the bytes of the UTF-8 form; a position is a line and a
column, both counted from one, where only a line feed ends a line and columns count characters.
-/
namespace NoteCell

-- Bytes of the UTF-8 form.
def utf8Length (cs : List Char) : Nat :=
  cs.foldr (fun c n => c.utf8Size + n) 0

structure Position where
  line : Nat
  column : Nat
deriving DecidableEq, Repr

namespace Position

def start : Position := ⟨1, 1⟩

def next (p : Position) (c : Char) : Position :=
  if c = '\n' then ⟨p.line + 1, 1⟩ else ⟨p.line, p.column + 1⟩

-- The characters that end at or before an offset.
def charsBefore : List Char → Nat → List Char
  | [], _ => []
  | c :: cs, offset =>
    if c.utf8Size ≤ offset then c :: charsBefore cs (offset - c.utf8Size) else []

-- The position of an offset: that of the greatest character boundary not above it.
def of (text : List Char) (offset : Nat) : Position :=
  (charsBefore text offset).foldl next start

def render (p : Position) : String :=
  s!"line {p.line}, column {p.column}"

end Position

theorem utf8Length_nil : utf8Length [] = 0 := rfl

theorem utf8Length_cons (c : Char) (cs : List Char) :
    utf8Length (c :: cs) = c.utf8Size + utf8Length cs := rfl

theorem utf8Length_append (cs ds : List Char) :
    utf8Length (cs ++ ds) = utf8Length cs + utf8Length ds := by
  induction cs with
  | nil => simp [utf8Length_nil]
  | cons c cs ih => rw [List.cons_append, utf8Length_cons, utf8Length_cons, ih, Nat.add_assoc]

theorem Position.charsBefore_append (cs ds : List Char) :
    charsBefore (cs ++ ds) (utf8Length cs) = cs := by
  induction cs with
  | nil =>
    cases ds with
    | nil => rfl
    | cons d ds =>
      have := d.utf8Size_pos
      simp only [List.nil_append, charsBefore, utf8Length_nil, Nat.le_zero_eq]
      rw [if_neg (by omega)]
  | cons c cs ih => simp [charsBefore, utf8Length_cons, ih]

end NoteCell
