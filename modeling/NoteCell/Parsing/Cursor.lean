import NoteCell.Token.Layout

/-!
Reading tokens. A cursor stands before the first token not yet read. A rule of the grammar that
refuses what it has read does so only once the next token has been seen: a fault of the characters
there comes first, and so does a token that cannot follow the rule at all.
-/
namespace NoteCell

inductive SyntaxFault where
  | lexical (f : LexFault)
  | unexpectedEnd
  | unexpected (t : Token)
  | expectedBlock
  | exprTooDeep
  | stmtTooDeep
  | assignTo (what : String)
  | augAssignTo (what : String)
  | keywordTarget
  | positionalAfterKeyword
  | repeatedKeyword (name : String)
deriving DecidableEq

namespace SyntaxFault

def message : SyntaxFault → String
  | lexical f => f.message
  | unexpectedEnd => "unexpected end of input"
  | unexpected .indent => "unexpected indent"
  | unexpected .newline => "invalid syntax: unexpected end of line"
  | unexpected t => "invalid syntax: unexpected " ++ t.describe
  | expectedBlock => "expected an indented block"
  | exprTooDeep => "expression is too deeply nested"
  | stmtTooDeep => "too many statically nested blocks"
  | assignTo what => "cannot assign to " ++ what
  | augAssignTo what => "'" ++ what ++ "' is an illegal expression for augmented assignment"
  | keywordTarget => "expression cannot contain assignment, perhaps you meant \"==\"?"
  | positionalAfterKeyword => "positional argument follows keyword argument"
  | repeatedKeyword name => "keyword argument repeated: " ++ name

end SyntaxFault

-- A fault at a byte offset.
structure SyntaxError where
  fault : SyntaxFault
  offset : Nat
deriving DecidableEq

namespace SyntaxError

def message (e : SyntaxError) : String := e.fault.message

def position (e : SyntaxError) (source : String) : Position := .of source.toList e.offset

def render (e : SyntaxError) (source : String) : String :=
  e.message ++ " (" ++ (e.position source).render ++ ")"

end SyntaxError

structure Cursor where
  rest : List Located
  -- What ends the tokens, if it is not the end of the source.
  error : Option LexError
  -- Where the text read so far ends.
  stop : Nat
deriving DecidableEq

abbrev Parser := StateT Cursor (Except SyntaxError)

namespace Cursor

def ofStream (s : TokenStream) : Cursor := ⟨s.tokens, s.error, 0⟩

def head? (c : Cursor) : Option Token := c.rest.head?.map (·.token)

def start (c : Cursor) : Nat :=
  match c.rest with
  | t :: _ => t.span.start
  | [] => c.stop

-- The error of a next token that fits nowhere.
def misplaced (c : Cursor) : SyntaxError :=
  match c.rest, c.error with
  | t :: _, _ => ⟨.unexpected t.token, t.span.start⟩
  | [], some e => ⟨.lexical e.fault, e.offset⟩
  | [], none => ⟨.unexpectedEnd, c.stop⟩

-- The error of a rule that refuses what it has read, where `follows` tells what may come next.
def refusal (c : Cursor) (follows : Option Token → Bool) (e : SyntaxError) : SyntaxError :=
  match c.rest, c.error with
  | [], some _ => c.misplaced
  | _, _ => if follows c.head? then e else c.misplaced

end Cursor

namespace Parser

def misplaced {α : Type} : Parser α := fun c => .error c.misplaced

def refuse {α : Type} (follows : Option Token → Bool) (fault : SyntaxFault) (offset : Nat) :
    Parser α :=
  fun c => .error (c.refusal follows ⟨fault, offset⟩)

def peek? : Parser (Option Token) := fun c => .ok (c.head?, c)

-- Where the next token starts.
def start : Parser Nat := fun c => .ok (c.start, c)

-- Where the text read so far ends.
def stop : Parser Nat := fun c => .ok (c.stop, c)

-- Counts what lies before the next token as read.
def reachNext : Parser Unit := fun c => .ok ((), { c with stop := c.start })

def advance : Parser Unit := fun c =>
  match c.rest with
  | t :: rest => .ok ((), { c with rest := rest, stop := t.span.stop })
  | [] => .error c.misplaced

-- Reads the given token if it comes next.
def accept (t : Token) : Parser Bool := do
  if (← peek?) = some t then
    advance
    return true
  else return false

def expect (t : Token) : Parser Unit := do
  unless ← accept t do misplaced

def word (k : Keyword) : Parser Unit := expect (.word k)

def sign (s : Sign) : Parser Unit := expect (.sign s)

def identifier : Parser String := do
  match ← peek? with
  | some (.name s) =>
    advance
    return s
  | _ => misplaced

end Parser
end NoteCell
