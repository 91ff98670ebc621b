/-!
Arguments of a command: switches, options with a value, and at most one file. An option's value may
be joined to it by an equals sign; otherwise it is the next argument, unless that looks like an
option. After a bare double dash everything is a file.
-/
namespace NoteCell

structure ArgumentRules where
  switches : List String
  options : List String
  takesFile : Bool
deriving DecidableEq, Repr

structure CommandArguments where
  switches : List String
  options : List (String × String)
  file : Option String
deriving DecidableEq, Repr

inductive ArgumentFault where
  | version
  | help
  | usage (message : String)
deriving DecidableEq, Repr

namespace CommandArguments

def none : CommandArguments := ⟨[], [], .none⟩

variable (a : CommandArguments)

def has (switch : String) : Bool := switch ∈ a.switches

def option? (name : String) : Option String := a.options.lookup name

def unexpected (arg : String) : ArgumentFault :=
  .usage ("unexpected argument '" ++ arg ++ "' found")

def repeated (arg : String) : ArgumentFault :=
  .usage ("the argument '" ++ arg ++ "' cannot be used multiple times")

def withoutValue (arg : String) : ArgumentFault :=
  .usage ("a value is required for '" ++ arg ++ "' but none was supplied")

def addFile (rules : ArgumentRules) (arg : String) : Except ArgumentFault CommandArguments :=
  if arg.isEmpty then .error (withoutValue "[FILE]")
  else if rules.takesFile && a.file.isNone then .ok { a with file := some arg }
  else .error (unexpected arg)

def addOption (name value : String) : Except ArgumentFault CommandArguments :=
  if (a.option? name).isSome then .error (repeated name)
  else .ok { a with options := (name, value) :: a.options }

def addSwitch (name : String) : Except ArgumentFault CommandArguments :=
  if a.has name then .error (repeated name) else .ok { a with switches := name :: a.switches }

-- Whether an argument is not taken for a value.
def looksLikeOption (arg : String) : Bool := arg.startsWith "-" && arg ≠ "-"

-- The name of an option and the value joined to it.
def split (arg : String) : String × Option String :=
  let name := arg.toList.takeWhile (· ≠ '=')
  match arg.toList.dropWhile (· ≠ '=') with
  | [] => (arg, .none)
  | _ :: value => (String.ofList name, some (String.ofList value))

def helpNames : List String := ["--help", "-h"]

def versionNames : List String := ["--version", "-V"]

-- Reads an option, and says whether the argument after it was its value.
def readOption (rules : ArgumentRules) (arg : String) (next : Option String) :
    Except ArgumentFault (CommandArguments × Bool) := do
  let (name, joined) := split arg
  match joined with
  | some value =>
    if name ∈ rules.options then return (← a.addOption name value, false)
    else throw (unexpected arg)
  | .none =>
    if name ∈ rules.switches then return (← a.addSwitch name, false)
    else if name ∈ rules.options then
      match next with
      | some value =>
        if looksLikeOption value then throw (withoutValue name)
        else return (← a.addOption name value, true)
      | .none => throw (withoutValue name)
    else throw (unexpected arg)

def readOne (rules : ArgumentRules) (arg : String) (next : Option String) :
    Except ArgumentFault (CommandArguments × Bool) := do
  if !looksLikeOption arg then return (← a.addFile rules arg, false)
  else if arg ∈ versionNames then throw .version
  else if arg ∈ helpNames then throw .help
  else a.readOption rules arg next

-- Reads options and files up to a bare double dash, and files from there on.
def readFrom (rules : ArgumentRules) (a : CommandArguments) :
    List String → Except ArgumentFault CommandArguments
  | [] => .ok a
  | "--" :: files => files.foldlM (fun a file => a.addFile rules file) a
  | arg :: rest => do
    let (a, tookNext) ← a.readOne rules arg rest.head?
    readFrom rules a (if tookNext then rest.tail else rest)
termination_by args => args.length
decreasing_by
  split <;> simp only [List.length_cons, List.length_tail] <;> omega

def read (rules : ArgumentRules) (args : List String) : Except ArgumentFault CommandArguments :=
  readFrom rules none args

end CommandArguments
end NoteCell
