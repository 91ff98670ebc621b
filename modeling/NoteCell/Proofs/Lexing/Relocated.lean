import Mathlib.Data.List.Forall2
import NoteCell.Token.Layout

/-!
Tokens at other places. Layout takes from the place of a lexeme only where its tokens and faults are,
and from the padding before it only how much that indents. So lexemes that stand elsewhere are laid
out alike.
-/
namespace NoteCell

-- A token at another place.
def Located.move (f : Span → Span) (t : Located) : Located := ⟨t.token, f t.span⟩

section

variable (g : Nat → Nat)

def Span.relocate (s : Span) : Span := ⟨g s.start, g s.stop⟩

def LexError.relocate (e : LexError) : LexError := { e with offset := g e.offset }

def TokenStream.relocate (s : TokenStream) : TokenStream :=
  ⟨s.tokens.map (.move (.relocate g)), s.error.map (.relocate g)⟩

theorem TokenStream.relocate_prepend (ts : List Located) (s : TokenStream) :
    (s.prepend ts).relocate g = (s.relocate g).prepend (ts.map (.move (.relocate g))) := by
  rw [relocate, prepend, List.map_append]
  rfl

-- A lexeme that started at an offset, elsewhere. A fault stays at the same character.
inductive Lexeme.Relocates (start : Nat) : Lexeme → Lexeme → Prop
  | token (t : Token) : Relocates start (.token t) (.token t)
  | lineBreak : Relocates start .lineBreak .lineBreak
  | fault (f : LexFault) {offset offset' : Nat} (h : g start + offset' = g (start + offset)) :
    Relocates start (.fault f offset) (.fault f offset')

-- Where no fault stands behind the start of the lexeme, all of it stands where that does.
theorem Lexeme.Relocates.of_fault_at_start {start : Nat} {lexeme : Lexeme}
    (h : ∀ f offset, lexeme = .fault f offset → offset = 0) : lexeme.Relocates g start lexeme := by
  cases lexeme with
  | token t => exact .token t
  | lineBreak => exact .lineBreak
  | fault f offset =>
    obtain rfl := h f offset rfl
    exact .fault f rfl

structure Scanned.Relocates (i j : Scanned) : Prop where
  indent : Layout.indentWidth 0 j.lead = Layout.indentWidth 0 i.lead
  span : j.span = i.span.relocate g
  lexeme : i.lexeme.Relocates g i.span.start j.lexeme

end

namespace Layout

variable (g : Nat → Nat)

theorem dedents_relocate (count offset : Nat) :
    dedents count (g offset) = (dedents count offset).map (.move (.relocate g)) :=
  (List.map_replicate (f := Located.move (.relocate g)) (a := layoutToken .dedent offset)).symm

theorem indentTo_relocate (blocks : List Nat) (width offset : Nat) :
    indentTo blocks width (g offset)
      = ((indentTo blocks width offset).map (Prod.map (List.map (.move (.relocate g))) id)).mapError
          (.relocate g) := by
  rw [indentTo, indentTo]
  dsimp only
  split
  case isTrue => split <;> rfl
  case isFalse =>
    split
    case isTrue => rw [dedents_relocate]; rfl
    case isFalse => rfl

theorem bracketsAfter_relocate (brackets : Nat) (t : Token) (offset : Nat) :
    bracketsAfter brackets t (g offset)
      = (bracketsAfter brackets t offset).mapError (.relocate g) := by
  cases t
  case sign s =>
    rw [bracketsAfter, bracketsAfter]
    split
    case isTrue => split <;> rfl
    case isFalse => split <;> rfl
  all_goals rfl

theorem placeToken_relocate (s : State) {lead lead' : List Char}
    (hlead : indentWidth 0 lead' = indentWidth 0 lead) (t : Token) (span : Span) :
    placeToken s lead' t (span.relocate g)
      = ((placeToken s lead t span).map (Prod.map (List.map (.move (.relocate g))) id)).mapError
          (.relocate g) := by
  have hstart : (span.relocate g).start = g span.start := rfl
  simp only [placeToken, hstart, hlead, indentTo_relocate, bracketsAfter_relocate]
  cases hstarts : s.atLineStart && decide (s.brackets = 0) with
  | true =>
    cases indentTo s.blocks (indentWidth 0 lead) span.start with
    | error e => rfl
    | ok laid =>
      cases bracketsAfter s.brackets t span.start with
      | error e => rfl
      | ok brackets =>
        simp [Except.map, Except.mapError, Prod.map, Located.move, bind, Except.bind]
  | false =>
    cases bracketsAfter s.brackets t span.start with
    | error e => rfl
    | ok brackets => rfl

theorem finish_relocate (s : State) (stop : Nat) :
    finish s (g stop) = (finish s stop).map (.move (.relocate g)) := by
  rw [finish, finish, dedents_relocate, List.map_append]
  cases s.lineHasTokens <;> rfl

theorem arrange_relocate {g : Nat → Nat} {items items' : List Scanned}
    (h : List.Forall₂ (Scanned.Relocates g) items items') (stop : Nat) (s : State) :
    arrange (g stop) s items' = (arrange stop s items).relocate g := by
  induction h generalizing s
  case nil =>
    rw [arrange, arrange, finish_relocate]
    rfl
  case cons item item' rest rest' hitem _ ih =>
    obtain ⟨lead, lexeme, span⟩ := item
    obtain ⟨lead', lexeme', span'⟩ := item'
    obtain ⟨hindent, rfl, hlexeme⟩ := hitem
    rw [arrange, arrange]
    cases hlexeme with
    | fault f hoffset =>
      simp only [TokenStream.failing, TokenStream.relocate, LexError.relocate, List.map_nil,
        Option.map_some, ← hoffset, Span.relocate]
    | lineBreak =>
      dsimp only
      rw [ih, ih]
      split
      case isTrue => split <;> rfl
      case isFalse => rfl
    | token t =>
      dsimp only
      rw [placeToken_relocate g s hindent]
      cases placeToken s lead t span with
      | error e => rfl
      | ok placed =>
        exact (congrArg (TokenStream.prepend _) (ih placed.2)).trans
          (TokenStream.relocate_prepend g placed.1 _).symm

end Layout
end NoteCell
