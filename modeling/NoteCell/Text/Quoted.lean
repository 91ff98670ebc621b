import NoteCell.Text.CharClass

/-!
Text in quotes, as literals of the language write it and as diagnostics show it.
-/

/-!
### Literals

A literal stands in single quotes unless the text holds a single quote and no double one; the quote
in use, backslashes and control characters are escaped.
-/
namespace NoteCell.Quoted

def hexDigit (n : Nat) : Char :=
  Nat.digitChar (n % 16)

-- `width` hexadecimal digits, the low ones of `n`.
def hexDigits (n : Nat) : Nat → List Char
  | 0 => []
  | width + 1 => hexDigits (n / 16) width ++ [hexDigit n]

def quoteFor (s : List Char) : Char :=
  if s.contains '\'' && !s.contains '"' then '"' else '\''

def isControl (c : Char) : Bool := c.toNat < 0x20 || c.toNat == 0x7f

def escape (quote c : Char) : List Char :=
  if c = '\\' then ['\\', '\\']
  else if c = '\n' then ['\\', 'n']
  else if c = '\r' then ['\\', 'r']
  else if c = '\t' then ['\\', 't']
  else if c = quote then ['\\', c]
  else if isControl c then '\\' :: 'x' :: hexDigits c.toNat 2
  else [c]

def literal (s : List Char) : List Char :=
  let quote := quoteFor s
  quote :: s.flatMap (escape quote) ++ [quote]

def text (s : String) : String :=
  String.ofList (literal s.toList)

end NoteCell.Quoted

/-!
### Diagnostics

Diagnostics show text in double quotes, with every character that cannot be seen by itself written
as an escape.
-/
namespace NoteCell.Escaped

def escape (c : Char) : List Char :=
  if c = '\x00' then ['\\', '0']
  else if c = '\t' then ['\\', 't']
  else if c = '\r' then ['\\', 'r']
  else if c = '\n' then ['\\', 'n']
  else if c = '\\' then ['\\', '\\']
  else if c = '"' then ['\\', '"']
  else if CharClass.isGraphemeExtend c || !CharClass.isPrintable c then
    '\\' :: 'u' :: '\x7b' :: Nat.toDigits 16 c.toNat ++ ['\x7d']
  else [c]

def text (s : String) : String :=
  String.ofList ('"' :: s.toList.flatMap escape ++ ['"'])

end NoteCell.Escaped
