import NoteCell.Decimal.FloatText

/-!
Tokens: names, literals, reserved words, signs and the three layout tokens, with the words in which
messages speak of them.
-/
namespace NoteCell

inductive Keyword where
  | and_ | as_ | async_ | await_ | break_ | continue_ | def_ | elif_ | else_ | false_ | for_
  | from_ | if_ | import_ | in_ | is_ | none_ | not_ | or_ | pass_ | raise_ | return_ | true_
  | while_
deriving DecidableEq, Repr

namespace Keyword

def text : Keyword → String
  | and_ => "and"
  | as_ => "as"
  | async_ => "async"
  | await_ => "await"
  | break_ => "break"
  | continue_ => "continue"
  | def_ => "def"
  | elif_ => "elif"
  | else_ => "else"
  | false_ => "False"
  | for_ => "for"
  | from_ => "from"
  | if_ => "if"
  | import_ => "import"
  | in_ => "in"
  | is_ => "is"
  | none_ => "None"
  | not_ => "not"
  | or_ => "or"
  | pass_ => "pass"
  | raise_ => "raise"
  | return_ => "return"
  | true_ => "True"
  | while_ => "while"

def all : List Keyword :=
  [and_, as_, async_, await_, break_, continue_, def_, elif_, else_, false_, for_, from_, if_,
    import_, in_, is_, none_, not_, or_, pass_, raise_, return_, true_, while_]

theorem mem_all (k : Keyword) : k ∈ all := by
  cases k <;> decide

def ofText? (s : String) : Option Keyword :=
  all.find? fun k => k.text == s

theorem ofText?_text (k : Keyword) : ofText? k.text = some k := by
  cases k <;> decide

theorem text_of_ofText? {s : String} {k : Keyword} (h : ofText? s = some k) : k.text = s := by
  simpa using List.find?_some h

end Keyword

-- Operators and delimiters.
inductive Sign where
  | plus | minus | star | slash | doubleSlash | percent | doubleStar
  | eqEq | notEq | less | lessEq | greater | greaterEq
  | assign | plusAssign | minusAssign | starAssign | slashAssign | doubleSlashAssign
  | percentAssign | doubleStarAssign
  | lparen | rparen | lbracket | rbracket | lbrace | rbrace
  | comma | colon | dot | semicolon
deriving DecidableEq, Repr

namespace Sign

def text : Sign → String
  | plus => "+"
  | minus => "-"
  | star => "*"
  | slash => "/"
  | doubleSlash => "//"
  | percent => "%"
  | doubleStar => "**"
  | eqEq => "=="
  | notEq => "!="
  | less => "<"
  | lessEq => "<="
  | greater => ">"
  | greaterEq => ">="
  | assign => "="
  | plusAssign => "+="
  | minusAssign => "-="
  | starAssign => "*="
  | slashAssign => "/="
  | doubleSlashAssign => "//="
  | percentAssign => "%="
  | doubleStarAssign => "**="
  | lparen => "("
  | rparen => ")"
  | lbracket => "["
  | rbracket => "]"
  | lbrace => "\x7b"
  | rbrace => "\x7d"
  | comma => ","
  | colon => ":"
  | dot => "."
  | semicolon => ";"

-- Every sign comes before its own initial parts.
def longestFirst : List Sign :=
  [doubleStarAssign, doubleSlashAssign, doubleStar, doubleSlash, plusAssign, minusAssign,
    starAssign, slashAssign, percentAssign, eqEq, notEq, lessEq, greaterEq, lparen, rparen,
    lbracket, rbracket, lbrace, rbrace, plus, minus, star, slash, percent, assign, less, greater,
    comma, colon, dot, semicolon]

theorem mem_longestFirst (s : Sign) : s ∈ longestFirst := by
  cases s <;> decide

-- The longest sign at the head of a text.
def atHead? (cs : List Char) : Option Sign :=
  longestFirst.find? fun s => s.text.toList.isPrefixOf cs

theorem text_of_atHead? {cs : List Char} {s : Sign} (h : atHead? cs = some s) :
    s.text.toList <+: cs := by
  simpa using List.find?_some h

def opens : Sign → Bool
  | lparen | lbracket | lbrace => true
  | _ => false

def closes : Sign → Bool
  | rparen | rbracket | rbrace => true
  | _ => false

end Sign

inductive Token where
  | name (s : String)
  | int (n : Int64)
  | float (x : Float)
  | str (s : String)
  -- The end of a logical line, and the start and end of an indented block.
  | newline
  | indent
  | dedent
  | word (k : Keyword)
  | sign (s : Sign)
deriving DecidableEq

namespace Token

-- How a message names a token.
def describe : Token → String
  | name s => "'" ++ s ++ "'"
  | int n => toString n.toInt
  | float x => Decimal.tokenStyle.text x
  | str _ => "string literal"
  | newline => "newline"
  | indent => "indent"
  | dedent => "dedent"
  | word k => k.text
  | sign s => s.text

def isLayout : Token → Bool
  | newline | indent | dedent => true
  | _ => false

end Token

structure Span where
  start : Nat
  stop : Nat
deriving DecidableEq, Repr

-- A token at its place in the source.
structure Located where
  token : Token
  span : Span
deriving DecidableEq

end NoteCell
