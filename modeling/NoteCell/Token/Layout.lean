import NoteCell.Token.Lexeme

/-!
Layout: the line structure of a source as tokens. A logical line ends in a newline token; deeper
indentation opens a block and shallower indentation closes blocks. Inside brackets line breaks mean
nothing, and lines without tokens leave no trace.
-/
namespace NoteCell

-- What a source reads as: its tokens up to the first fault, if there is one.
structure TokenStream where
  tokens : List Located
  error : Option LexError
deriving DecidableEq

namespace TokenStream

def empty : TokenStream := ⟨[], none⟩

def failing (f : LexFault) (offset : Nat) : TokenStream := ⟨[], some ⟨f, offset⟩⟩

def prepend (tokens : List Located) (s : TokenStream) : TokenStream :=
  ⟨tokens ++ s.tokens, s.error⟩

end TokenStream

namespace Layout

-- The deepest nesting of brackets, and the most blocks open at once.
def maxBrackets : Nat := 200
def maxBlocks : Nat := 100

-- Tabs advance to the next multiple of eight and a form feed starts again.
def indentWidth (width : Nat) : List Char → Nat
  | [] => width
  | c :: cs =>
    if c = ' ' then indentWidth (width + 1) cs
    else if c = '\t' then indentWidth ((width / 8 + 1) * 8) cs
    else if c = '\x0c' then indentWidth 0 cs
    else width

structure State where
  -- Widths of the open blocks, the innermost first.
  blocks : List Nat
  brackets : Nat
  atLineStart : Bool
  lineHasTokens : Bool
deriving DecidableEq, Repr

def State.initial : State := ⟨[], 0, true, false⟩

def State.width (s : State) : Nat := s.blocks.headD 0

def layoutToken (t : Token) (offset : Nat) : Located := ⟨t, ⟨offset, offset⟩⟩

def dedents (count offset : Nat) : List Located :=
  List.replicate count (layoutToken .dedent offset)

-- The layout tokens before the first token of a line, and the blocks open after them.
def indentTo (blocks : List Nat) (width offset : Nat) :
    Except LexError (List Located × List Nat) :=
  let current := blocks.headD 0
  if current < width then
    if maxBlocks ≤ blocks.length then .error ⟨.tooDeeplyIndented, offset⟩
    else .ok ([layoutToken .indent offset], width :: blocks)
  else
    let rest := blocks.dropWhile (width < ·)
    if rest.headD 0 = width then .ok (dedents (blocks.length - rest.length) offset, rest)
    else .error ⟨.inconsistentDedent, offset⟩

def bracketsAfter (brackets : Nat) (t : Token) (offset : Nat) : Except LexError Nat :=
  match t with
  | .sign s =>
    if s.opens then
      if maxBrackets ≤ brackets then .error ⟨.tooManyNestedBrackets, offset⟩
      else .ok (brackets + 1)
    else if s.closes then .ok (brackets - 1)
    else .ok brackets
  | _ => .ok brackets

-- One token of the source: the tokens it adds and the state after it.
def placeToken (s : State) (lead : List Char) (t : Token) (span : Span) :
    Except LexError (List Located × State) := do
  let starts := s.atLineStart && s.brackets = 0
  let (layout, blocks) ←
    if starts then indentTo s.blocks (indentWidth 0 lead) span.start else .ok ([], s.blocks)
  let brackets ← bracketsAfter s.brackets t span.start
  .ok (layout ++ [⟨t, span⟩], ⟨blocks, brackets, s.atLineStart && !starts, true⟩)

-- The end of a source ends its line and closes its blocks.
def finish (s : State) (stop : Nat) : List Located :=
  (if s.lineHasTokens then [layoutToken .newline stop] else []) ++ dedents s.blocks.length stop

def arrange (stop : Nat) (s : State) : List Scanned → TokenStream
  | [] => ⟨finish s stop, none⟩
  | item :: rest =>
    match item.lexeme with
    | .fault f offset => .failing f (item.span.start + offset)
    | .lineBreak =>
      if s.brackets = 0 then
        let after := arrange stop { s with atLineStart := true, lineHasTokens := false } rest
        if s.lineHasTokens then after.prepend [⟨.newline, item.span⟩] else after
      else arrange stop s rest
    | .token t =>
      match placeToken s item.lead t item.span with
      | .ok (tokens, next) => (arrange stop next rest).prepend tokens
      | .error e => ⟨[], some e⟩

end Layout

def tokenize (source : String) : TokenStream :=
  Layout.arrange source.utf8ByteSize .initial (scan source)

end NoteCell
