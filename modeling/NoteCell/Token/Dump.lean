import NoteCell.Text.Quoted
import NoteCell.Token.Layout
import NoteCell.Token.Lexeme

/-!
Token streams for the eye: one token a line with the bytes it spans, blocks set off by indentation.
-/
namespace NoteCell

def capitalized (s : String) : String :=
  match s.toList with
  | [] => s
  | c :: cs => String.ofList (c.toUpper :: cs)

def Keyword.kind : Keyword → String
  | none_ => "NoneLit"
  | k => capitalized k.text

def Sign.kind : Sign → String
  | plus => "Plus"
  | minus => "Minus"
  | star => "Star"
  | slash => "Slash"
  | doubleSlash => "DoubleSlash"
  | percent => "Percent"
  | doubleStar => "DoubleStar"
  | eqEq => "EqEq"
  | notEq => "NotEq"
  | less => "Less"
  | lessEq => "LessEq"
  | greater => "Greater"
  | greaterEq => "GreaterEq"
  | assign => "Assign"
  | plusAssign => "PlusAssign"
  | minusAssign => "MinusAssign"
  | starAssign => "StarAssign"
  | slashAssign => "SlashAssign"
  | doubleSlashAssign => "DoubleSlashAssign"
  | percentAssign => "PercentAssign"
  | doubleStarAssign => "DoubleStarAssign"
  | lparen => "LParen"
  | rparen => "RParen"
  | lbracket => "LBracket"
  | rbracket => "RBracket"
  | lbrace => "LBrace"
  | rbrace => "RBrace"
  | comma => "Comma"
  | colon => "Colon"
  | dot => "Dot"
  | semicolon => "Semicolon"

namespace Token

def kind : Token → String
  | name _ => "Name"
  | int _ => "Int"
  | float _ => "Float"
  | str _ => "Str"
  | newline => "Newline"
  | indent => "Indent"
  | dedent => "Dedent"
  | word k => k.kind
  | sign s => s.kind

def dump (t : Token) : String :=
  match t with
  | name s | str s => t.kind ++ "(" ++ Escaped.text s ++ ")"
  | int n => t.kind ++ "(" ++ toString n.toInt ++ ")"
  | float x => t.kind ++ "(" ++ Decimal.dumpStyle.text x ++ ")"
  | _ => t.kind

end Token

def Located.dump (t : Located) (depth : Nat) : String :=
  let blank (n : Nat) : String := String.ofList (List.replicate n ' ')
  let start := toString t.span.start
  let stop := toString t.span.stop
  blank (4 - start.length) ++ start ++ ".." ++ stop ++ blank (4 - stop.length) ++ " "
    ++ blank (2 * depth) ++ t.token.dump ++ "\n"

-- The lines of a row of tokens inside `depth` blocks.
def dumpTokens (depth : Nat) : List Located → List String
  | [] => []
  | t :: rest =>
    match t.token with
    | .indent => t.dump depth :: dumpTokens (depth + 1) rest
    | .dedent => t.dump (depth - 1) :: dumpTokens (depth - 1) rest
    | _ => t.dump depth :: dumpTokens depth rest

end NoteCell
