import NoteCell.Decimal.FloatText
import NoteCell.Text.Quoted
import NoteCell.Value.Heap

/-!
Texts of values. A list or dict inside itself is shown as dots, and so is whatever is nested too
deeply; `text` differs from `repr` for texts and exceptions only.
-/
namespace NoteCell

-- How deeply containers may be nested for their texts and comparisons.
def nestingLimit : Nat := 500

namespace Heap

variable (h : Heap)

def boolText (b : Bool) : String := if b then "True" else "False"

def exceptionText (e : Exn) : String :=
  e.kind.name ++ "(" ++ (if e.message.isEmpty then "" else Quoted.text e.message) ++ ")"

def rangeText (r : Range) : String :=
  let ends := "range(" ++ toString r.start.toInt ++ ", " ++ toString r.stop.toInt
  if r.step = 1 then ends ++ ")" else ends ++ ", " ++ toString r.step.toInt ++ ")"

def methodText (m : BoundMethod) : String :=
  "<built-in method " ++ m.name ++ " of " ++ h.typeName m.receiver ++ " object>"

-- The text of a value that holds no others.
def plainText : Value → String
  | .nothing => "None"
  | .bool b => boolText b
  | .int n => toString n.toInt
  | .float x => Decimal.valueText x
  | .str s => Quoted.text s
  | .list _ | .tuple _ | .dict _ => "..."
  | .range r => rangeText r
  | .closure id =>
    let c := h.closure id
    "<" ++ (if c.isAsync then "coroutine function " else "function ") ++ c.name ++ ">"
  | .builtin b =>
    if b.isType then "<class '" ++ b.name ++ "'>" else "<built-in function " ++ b.name ++ ">"
  | .method id => h.methodText (h.method id)
  | .library id => "<module '" ++ (h.library id).name ++ "'>"
  | .stream s => "<" ++ s.name ++ ">"
  | .coroutine id => "<coroutine object " ++ (h.coroutine id).name ++ ">"
  | .exception id => exceptionText (h.exception id)

def commaSeparated (texts : List String) : String := ", ".intercalate texts

def tupleText (items : List String) : String :=
  match items with
  | [item] => "(" ++ item ++ ",)"
  | items => "(" ++ commaSeparated items ++ ")"

-- `room` is how many levels of containers may still be opened, `around` which lists and dicts are
-- open already.
def reprAt : Nat → List Value → Value → String
  | room + 1, around, .list id =>
    if around.contains (.list id) then "[...]"
    else "[" ++ commaSeparated ((h.list id).toList.map (reprAt room (.list id :: around))) ++ "]"
  | room + 1, around, .tuple id => tupleText ((h.tuple id).toList.map (reprAt room around))
  | room + 1, around, .dict id =>
    if around.contains (.dict id) then "\x7b...\x7d"
    else
      let entry (e : Value × Value) : String :=
        reprAt room (.dict id :: around) e.1 ++ ": " ++ reprAt room (.dict id :: around) e.2
      "\x7b" ++ commaSeparated ((h.dict id).map entry) ++ "\x7d"
  | _, _, v => h.plainText v

def repr (v : Value) : String := h.reprAt (nestingLimit + 1) [] v

def text : Value → String
  | .str s => s
  | .exception id => (h.exception id).message
  | v => h.repr v

end Heap
end NoteCell
