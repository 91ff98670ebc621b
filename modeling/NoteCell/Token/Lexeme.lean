import NoteCell.Decimal.Reading
import NoteCell.Text.CharClass
import NoteCell.Text.Position
import NoteCell.Token.Basic

/-!
Lexemes: the pieces that a source falls into once blanks, comments and joined lines are set aside.
Cutting never fails. A malformed literal or a stray character is a lexeme of its own, and every
lexeme has at least one character, so the cut always comes to the end of the source.
-/
namespace NoteCell

/-! ### What can be wrong with characters -/

inductive LexFault where
  | unterminatedString
  | invalidCharacter (c : Char)
  | invalidNumber
  | integerOverflow
  | invalidEscape
  | inconsistentDedent
  | tooDeeplyIndented
  | tooManyNestedBrackets
deriving DecidableEq, Repr

def LexFault.message : LexFault → String
  | unterminatedString => "unterminated string literal"
  | invalidCharacter c => "invalid character '" ++ c.toString ++ "'"
  | invalidNumber => "invalid number literal"
  | integerOverflow => "integer literal is too large"
  | invalidEscape => "invalid escape sequence"
  | inconsistentDedent => "unindent does not match any outer indentation level"
  | tooDeeplyIndented => "too many levels of indentation"
  | tooManyNestedBrackets => "too many nested parentheses"

-- A fault at a byte offset.
structure LexError where
  fault : LexFault
  offset : Nat
deriving DecidableEq, Repr

/-! ### Pieces -/

inductive Lexeme where
  | token (t : Token)
  | lineBreak
  -- A fault, `offset` bytes after the start of the lexeme.
  | fault (f : LexFault) (offset : Nat)
deriving DecidableEq

-- A lexeme at the head of a text, with the number of its characters after the first.
structure Piece where
  lexeme : Lexeme
  extra : Nat
deriving DecidableEq

def isNameStart (c : Char) : Bool := c = '_' || CharClass.isAlphabetic c

def isNameContinue (c : Char) : Bool :=
  c = '_' || CharClass.isAlphabetic c || CharClass.isNumeric c

def isLineBreak (c : Char) : Bool := c = '\r' || c = '\n'

namespace Piece

/-! ### Strings -/

-- The body of a literal in single quotation marks, and whether the literal is closed.
def shortBody (quote : Char) : List Char → List Char × Bool
  | [] => ([], false)
  | '\\' :: c :: cs =>
    let (body, closed) := shortBody quote cs
    ('\\' :: c :: body, closed)
  | c :: cs =>
    if c = quote then ([], true)
    else if c = '\\' || isLineBreak c then ([], false)
    else
      let (body, closed) := shortBody quote cs
      (c :: body, closed)

-- The body of a literal in tripled quotation marks, and whether the literal is closed.
def longBody (quote : Char) : List Char → List Char × Bool
  | [] => ([], false)
  | '\\' :: c :: cs =>
    let (body, closed) := longBody quote cs
    ('\\' :: c :: body, closed)
  | c :: cs =>
    if c = quote && [quote, quote].isPrefixOf cs then ([], true)
    else
      let (body, closed) := longBody quote cs
      (c :: body, closed)

def hexValue? (c : Char) : Option Nat :=
  if c.isDigit then some (c.toNat - '0'.toNat)
  else if 'a' ≤ c && c ≤ 'f' then some (c.toNat - 'a'.toNat + 10)
  else if 'A' ≤ c && c ≤ 'F' then some (c.toNat - 'A'.toNat + 10)
  else none

-- The character with a hexadecimal code, unless that is a surrogate.
def hexChar? (digits : List Char) : Option Char := do
  let values ← digits.mapM hexValue?
  let code := values.foldl (fun n d => 16 * n + d) 0
  if code.isValidChar then some (Char.ofNat code) else none

-- What an escape that is one character long stands for. A joined line leaves nothing.
def simpleEscape? : Char → Option (List Char)
  | 'n' => some ['\n']
  | 't' => some ['\t']
  | 'r' => some ['\r']
  | '0' => some ['\x00']
  | '\\' => some ['\\']
  | '\'' => some ['\'']
  | '"' => some ['"']
  | '\n' => some []
  | _ => none

-- The text that a body denotes. Escapes of no meaning keep their backslash; the error is the
-- offset of an escape whose code is no character.
def decode (offset : Nat) : List Char → Except Nat (List Char)
  | [] => .ok []
  | '\\' :: 'x' :: a :: b :: cs =>
    match hexChar? [a, b] with
    | some c => (decode (offset + 4) cs).map (c :: ·)
    | none => .error offset
  | '\\' :: 'u' :: a :: b :: c :: d :: cs =>
    match hexChar? [a, b, c, d] with
    | some c => (decode (offset + 6) cs).map (c :: ·)
    | none => .error offset
  | '\\' :: e :: cs =>
    if e = 'x' || e = 'u' then .error offset
    else
      (decode (offset + 1 + e.utf8Size) cs).map ((simpleEscape? e).getD ['\\', e] ++ ·)
  | c :: cs => (decode (offset + c.utf8Size) cs).map (c :: ·)

-- `marks` quotation marks stand on each side of the body.
def string (marks : Nat) (body : List Char) (closed : Bool) : Piece :=
  if closed then
    let lexeme := match decode marks body with
      | .ok value => .token (.str (String.ofList value))
      | .error offset => .fault .invalidEscape offset
    ⟨lexeme, 2 * marks + body.length - 1⟩
  else ⟨.fault .unterminatedString 0, marks + body.length - 1⟩

def quoted (quote : Char) (cs : List Char) : Piece :=
  if [quote, quote].isPrefixOf cs then
    let (body, closed) := longBody quote (cs.drop 2)
    string 3 body closed
  else
    let (body, closed) := shortBody quote cs
    string 1 body closed

/-! ### Numbers -/

def isDigitOrUnderscore (c : Char) : Bool := c.isDigit || c = '_'

def digitCount (cs : List Char) : Nat := (cs.takeWhile isDigitOrUnderscore).length

-- A point before a name or another point is not part of a number: `1.real`, `1..`.
def fractionLength : List Char → Nat
  | '.' :: cs =>
    match cs with
    | c :: _ => if isNameStart c || c = '.' then 0 else 1 + digitCount cs
    | [] => 1
  | _ => 0

def signLength : List Char → Nat
  | '+' :: _ | '-' :: _ => 1
  | _ => 0

-- An exponent has at least one digit, right after its sign.
def exponentLength : List Char → Nat
  | [] => 0
  | mark :: cs =>
    match cs.drop (signLength cs) with
    | d :: rest =>
      if Decimal.isExponentMark mark && d.isDigit then 2 + signLength cs + digitCount rest else 0
    | [] => 0

-- The length of the number at the head of a text that starts with a digit or with a point.
def numberLength (cs : List Char) : Nat :=
  let whole := digitCount cs
  let mantissa :=
    if whole = 0 then 1 + digitCount (cs.drop 1) else whole + fractionLength (cs.drop whole)
  mantissa + exponentLength (cs.drop mantissa)

def numberToken (text : List Char) : Lexeme :=
  let digits := text.filter (· ≠ '_')
  if text.any fun c => c = '.' || Decimal.isExponentMark c then
    .token (.float (Decimal.Parts.of digits).toFloat)
  else
    let n := Decimal.natOfDigits digits
    if n < Nat.pow 2 63 then .token (.int (Int64.ofNat n)) else .fault .integerOverflow 0

def number (cs : List Char) : Piece :=
  let length := numberLength cs
  let trailing := ((cs.drop length).takeWhile isNameContinue).length
  if trailing = 0 then ⟨numberToken (cs.take length), length - 1⟩
  else ⟨.fault .invalidNumber 0, length + trailing - 1⟩

def startsNumber : List Char → Bool
  | '.' :: d :: _ => d.isDigit
  | d :: _ => d.isDigit
  | [] => false

/-! ### Names, signs and line breaks -/

def nameToken (s : String) : Token :=
  match Keyword.ofText? s with
  | some k => .word k
  | none => .name s

def name (c : Char) (cs : List Char) : Piece :=
  let rest := cs.takeWhile isNameContinue
  ⟨.token (nameToken (String.ofList (c :: rest))), rest.length⟩

-- The lexeme at the head of `c :: cs`, which is no blank.
def first (c : Char) (cs : List Char) : Piece :=
  if isLineBreak c then ⟨.lineBreak, if c = '\r' && ['\n'].isPrefixOf cs then 1 else 0⟩
  else if c = '\'' || c = '"' then quoted c cs
  else if startsNumber (c :: cs) then number (c :: cs)
  else if isNameStart c then name c cs
  else match Sign.atHead? (c :: cs) with
    | some s => ⟨.token (.sign s), s.text.length - 1⟩
    | none => ⟨.fault (.invalidCharacter c) 0, 0⟩

end Piece

-- How many characters at the head of a text belong to no lexeme: blanks, comments, and line
-- breaks after a backslash. The flag says whether the text starts inside a comment.
def paddingLength : Bool → List Char → Nat
  | _, [] => 0
  | true, c :: cs => if isLineBreak c then 0 else 1 + paddingLength true cs
  | false, '\\' :: '\r' :: '\n' :: cs => 3 + paddingLength false cs
  | false, '\\' :: '\r' :: cs => 2 + paddingLength false cs
  | false, '\\' :: '\n' :: cs => 2 + paddingLength false cs
  | false, c :: cs =>
    if c = ' ' || c = '\t' || c = '\x0c' then 1 + paddingLength false cs
    else if c = '#' then 1 + paddingLength true cs
    else 0

-- A lexeme at its place, with the padding before it.
structure Scanned where
  lead : List Char
  lexeme : Lexeme
  span : Span
deriving DecidableEq

-- The lexemes of a text that stands at a byte offset.
def scanFrom (offset : Nat) (text : List Char) : List Scanned :=
  let lead := text.take (paddingLength false text)
  match _h : text.drop (paddingLength false text) with
  | [] => []
  | c :: cs =>
    let piece := Piece.first c cs
    let start := offset + utf8Length lead
    let stop := start + utf8Length (c :: cs.take piece.extra)
    ⟨lead, piece.lexeme, ⟨start, stop⟩⟩ :: scanFrom stop (cs.drop piece.extra)
termination_by text.length
decreasing_by
  have := congrArg List.length _h
  simp only [List.length_drop, List.length_cons] at this ⊢
  omega

theorem scanFrom_nil {offset : Nat} {text : List Char}
    (h : text.drop (paddingLength false text) = []) : scanFrom offset text = [] := by
  rw [scanFrom]
  split
  case h_1 => rfl
  case h_2 hdrop =>
    rw [h] at hdrop
    cases hdrop

theorem scanFrom_cons {offset : Nat} {text cs : List Char} {c : Char}
    (h : text.drop (paddingLength false text) = c :: cs) :
    scanFrom offset text =
      let lead := text.take (paddingLength false text)
      let start := offset + utf8Length lead
      let stop := start + utf8Length (c :: cs.take (Piece.first c cs).extra)
      ⟨lead, (Piece.first c cs).lexeme, ⟨start, stop⟩⟩
        :: scanFrom stop (cs.drop (Piece.first c cs).extra) := by
  rw [scanFrom]
  split
  case h_1 hdrop =>
    rw [h] at hdrop
    cases hdrop
  case h_2 hdrop =>
    rw [h] at hdrop
    cases hdrop
    rfl

def scan (source : String) : List Scanned := scanFrom 0 source.toList

end NoteCell
