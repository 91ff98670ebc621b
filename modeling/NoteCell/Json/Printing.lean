import NoteCell.Decimal.FloatText
import NoteCell.Json.Value
import NoteCell.Text.Quoted

/-!
Writing JSON on one line. Control characters inside strings are escaped, so no line break is ever
part of what is written.
-/
namespace NoteCell

namespace JsonText

def escape (c : Char) : List Char :=
  if c = '"' then ['\\', '"']
  else if c = '\\' then ['\\', '\\']
  else if c = '\x08' then ['\\', 'b']
  else if c = '\x0c' then ['\\', 'f']
  else if c = '\n' then ['\\', 'n']
  else if c = '\r' then ['\\', 'r']
  else if c = '\t' then ['\\', 't']
  else if c.toNat < 0x20 then '\\' :: 'u' :: Quoted.hexDigits c.toNat 4
  else [c]

def quoted (s : String) : String :=
  String.ofList ('"' :: s.toList.flatMap escape ++ ['"'])

end JsonText

def JsonNumber.text : JsonNumber → String
  | whole n => toString n
  | double x => Decimal.valueText x

namespace JsonValue

mutual

def text : JsonValue → String
  | null => "null"
  | bool b => if b then "true" else "false"
  | number n => n.text
  | string s => JsonText.quoted s
  | array items => "[" ++ ",".intercalate (itemTexts items) ++ "]"
  | object fields => "\x7b" ++ ",".intercalate (fieldTexts fields) ++ "\x7d"

def itemTexts : List JsonValue → List String
  | [] => []
  | v :: rest => text v :: itemTexts rest

def fieldTexts : List (String × JsonValue) → List String
  | [] => []
  | (key, v) :: rest => (JsonText.quoted key ++ ":" ++ text v) :: fieldTexts rest

end

end JsonValue
end NoteCell
