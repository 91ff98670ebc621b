import NoteCell.Machine.Action

/-!
Arguments of calls. Built-in functions check them by number; functions of programs bind them to
parameters, in order and by name.
-/
namespace NoteCell

structure Arguments where
  positional : List Value
  keywords : List (String × Value)
deriving DecidableEq

namespace Arguments

variable (args : Arguments)

-- Takes the first keyword of a name out.
def takeKeyword (name : String) : Option Value × Arguments :=
  (lookup? args.keywords name, { args with keywords := args.keywords.eraseP (·.1 = name) })

def noKeywords (function : String) : Attempt Unit :=
  if args.keywords.isEmpty then return ()
  else .typeError (function ++ "() takes no keyword arguments")

def unexpectedKeyword {α : Type} (function name : String) : Attempt α :=
  .typeError (function ++ "() got an unexpected keyword argument '" ++ name ++ "'")

-- Fails for the first keyword that is left.
def rejectKeywords (function : String) : Attempt Unit :=
  match args.keywords with
  | [] => return ()
  | (name, _) :: _ => unexpectedKeyword function name

def given : String := s!" ({args.positional.length} given)"

def none (function : String) : Attempt Unit :=
  match args.positional with
  | [] => return ()
  | _ => .typeError (function ++ "() takes no arguments" ++ args.given)

def one (function : String) : Attempt Value :=
  match args.positional with
  | [v] => return v
  | _ => .typeError (function ++ "() takes exactly one argument" ++ args.given)

def two (function : String) : Attempt (Value × Value) :=
  match args.positional with
  | [v, w] => return (v, w)
  | _ => .typeError (function ++ "() takes exactly 2 arguments" ++ args.given)

def plural (word : String) (count : Nat) : String := if count = 1 then word else word ++ "s"

def between (function : String) (least most : Nat) : Attempt (List Value) :=
  let count := args.positional.length
  let expected (bound : String) (n : Nat) : String :=
    function ++ " expected " ++ bound ++ s!" {n} " ++ plural "argument" n ++ s!", got {count}"
  if count < least then .typeError (expected "at least" least)
  else if most < count then .typeError (expected "at most" most)
  else return args.positional

-- A single argument that may be missing.
def optional (function : String) : Attempt (Option Value) :=
  return (← args.between function 0 1).head?

end Arguments

/-! ### Binding to parameters -/

-- `'a'`, `'a' and 'b'`, `'a', 'b', and 'c'`
def joinNames : List String → String
  | [] => ""
  | [a] => a
  | [a, b] => a ++ " and " ++ b
  | a :: b :: c :: rest =>
    ", ".intercalate (a :: b :: (c :: rest).dropLast) ++ ", and " ++ (c :: rest).getLast (by simp)

namespace Closure

variable (c : Closure)

def takesText : String :=
  let count := c.params.length
  let required := (c.params.filter (·.2.isNone)).length
  if required = count then s!"{count} " ++ Arguments.plural "positional argument" count
  else s!"from {required} to {count} positional arguments"

def tooManyText (given : Nat) : String :=
  c.name ++ "() takes " ++ c.takesText ++ s!" but {given} "
    ++ (if given = 1 then "was" else "were") ++ " given"

-- The slots of the parameters, those of the positional arguments filled.
def positionalSlots (positional : List Value) : List (Option Value) :=
  positional.map some ++ List.replicate (c.params.length - positional.length) none

-- Fills the slot of a parameter by name.
def fillKeyword (slots : List (Option Value)) (keyword : String × Value) :
    Attempt (List (Option Value)) :=
  match c.params.findIdx? (·.1 = keyword.1) with
  | none => Arguments.unexpectedKeyword c.name keyword.1
  | some i =>
    match slots[i]? with
    | some (some _) =>
      .typeError (c.name ++ "() got multiple values for argument '" ++ keyword.1 ++ "'")
    | _ => return slots.set i (some keyword.2)

-- Empty slots take the defaults.
def filled (slots : List (Option Value)) : List (String × Option Value) :=
  (c.params.zip slots).map fun (param, slot) => (param.1, slot.or param.2)

def missingText (missing : List String) : String :=
  c.name ++ s!"() missing {missing.length} required positional "
    ++ Arguments.plural "argument" missing.length ++ ": "
    ++ joinNames (missing.map fun name => "'" ++ name ++ "'")

-- The names that a call binds in the new scope.
def bindArguments (args : Arguments) : Attempt (List (String × Value)) := do
  if c.params.length < args.positional.length then
    .typeError (c.tooManyText args.positional.length)
  else
    let slots ← args.keywords.foldlM c.fillKeyword (c.positionalSlots args.positional)
    let filled := c.filled slots
    match (filled.filter (·.2.isNone)).map (·.1) with
    | [] => return filled.filterMap fun (name, v) => v.map fun v => (name, v)
    | missing => .typeError (c.missingText missing)

end Closure
end NoteCell
