import NoteCell.Output.Target
import NoteCell.Tree.Basic
import NoteCell.Value.Exception
import NoteCell.Value.Sequence

/-!
Values of running programs. Numbers, texts, ranges and the built-in functions are values by
themselves; everything else is an object, known by its place in the heap, so two values are the same
object just when they are equal.
-/
namespace NoteCell

inductive Builtin where
  | print | input | len | str | repr | int | float | bool | list | range | abs | min | max | sum
  | round | sorted
  | exception (kind : ExnKind)
  | sqrt | floor | ceil
  | hostText | hostImage
deriving DecidableEq, Repr

namespace Builtin

def name : Builtin → String
  | print => "print"
  | input => "input"
  | len => "len"
  | str => "str"
  | repr => "repr"
  | int => "int"
  | float => "float"
  | bool => "bool"
  | list => "list"
  | range => "range"
  | abs => "abs"
  | min => "min"
  | max => "max"
  | sum => "sum"
  | round => "round"
  | sorted => "sorted"
  | exception kind => kind.name
  | sqrt => "sqrt"
  | floor => "floor"
  | ceil => "ceil"
  | hostText => "text"
  | hostImage => "image"

-- Those that stand for a type of values.
def isType : Builtin → Bool
  | str | int | float | bool | list | range | exception _ => true
  | _ => false

-- Those that programs know by name without an import.
def global : List Builtin :=
  [print, input, len, str, repr, int, float, bool, list, range, abs, min, max, sum, round, sorted]
    ++ ExnKind.named.map exception

def ofName? (name : String) : Option Builtin := global.find? (·.name = name)

end Builtin

inductive Value where
  | nothing
  | bool (b : Bool)
  | int (n : Int64)
  | float (x : Float)
  | str (s : String)
  | list (id : Nat)
  | tuple (id : Nat)
  | dict (id : Nat)
  | range (r : Range)
  | closure (id : Nat)
  | builtin (b : Builtin)
  | method (id : Nat)
  | library (id : Nat)
  | stream (s : OutputStream)
  | coroutine (id : Nat)
  | exception (id : Nat)
deriving DecidableEq

namespace Value

def isNothing (v : Value) : Bool := v = nothing

def number? : Value → Option Number
  | bool b => some (.int (if b then 1 else 0))
  | int n => some (.int n)
  | float x => some (.float x)
  | _ => Option.none

-- The whole number that an index or a count denotes.
def index? : Value → Option Int64
  | bool b => some (if b then 1 else 0)
  | int n => some n
  | _ => Option.none

def ofNumber : Number → Value
  | .int n => int n
  | .float x => float x

end Value
end NoteCell
