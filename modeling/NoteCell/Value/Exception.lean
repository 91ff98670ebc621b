import NoteCell.Number.Arithmetic

/-!
What goes wrong in a running program. An exception has a kind and a message and ends the program
that raises it. A fault that the language has no exception for breaks the run.
-/
namespace NoteCell

inductive ExnKind where
  | exception | valueError | typeError | runtimeError | keyError | indexError | zeroDivision
  | nameError | attributeError | overflow | recursion | memory | endOfInput | importError
  | moduleNotFound | syntaxError
deriving DecidableEq, Repr

namespace ExnKind

def name : ExnKind → String
  | exception => "Exception"
  | valueError => "ValueError"
  | typeError => "TypeError"
  | runtimeError => "RuntimeError"
  | keyError => "KeyError"
  | indexError => "IndexError"
  | zeroDivision => "ZeroDivisionError"
  | nameError => "NameError"
  | attributeError => "AttributeError"
  | overflow => "OverflowError"
  | recursion => "RecursionError"
  | memory => "MemoryError"
  | endOfInput => "EOFError"
  | importError => "ImportError"
  | moduleNotFound => "ModuleNotFoundError"
  | syntaxError => "SyntaxError"

-- The kinds that programs can name.
def named : List ExnKind :=
  [exception, valueError, typeError, runtimeError, keyError, indexError, zeroDivision, nameError,
    attributeError, overflow, recursion, memory, endOfInput, importError]

end ExnKind

structure Exn where
  kind : ExnKind
  message : String
deriving DecidableEq, Repr

-- An empty message leaves the kind alone.
def Exn.text (e : Exn) : String :=
  if e.message.isEmpty then e.kind.name else e.kind.name ++ ": " ++ e.message

inductive Failure where
  | raised (e : Exn)
  | broken
deriving DecidableEq, Repr

-- The result of an operation that may fail.
abbrev Attempt := Except Failure

namespace Attempt

variable {α : Type}

def raise (kind : ExnKind) (message : String) : Attempt α := .error (.raised ⟨kind, message⟩)

def typeError (message : String) : Attempt α := raise .typeError message

def valueError (message : String) : Attempt α := raise .valueError message

def indexError (message : String) : Attempt α := raise .indexError message

end Attempt

def ArithmeticFault.kind : ArithmeticFault → ExnKind
  | tooLarge => .overflow
  | _ => .zeroDivision

def Arithmetic.Result.attempt (r : Arithmetic.Result) : Attempt Number :=
  r.mapError fun fault => .raised ⟨fault.kind, fault.message⟩

end NoteCell
