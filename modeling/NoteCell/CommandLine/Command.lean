/-!
Commands. A command looks at its arguments first; then it is done, or it reads one text, from a file
or the standard input, and turns it into output.
-/
namespace NoteCell

structure CommandResult where
  code : Nat
  stdout : String
  stderr : String
deriving DecidableEq, Repr

inductive TextCommand where
  | done (r : CommandResult)
  -- Reads a file, or the standard input if there is none; goes on with the text, or with the reason
  -- why it could not be read.
  | reading (path : Option String) (next : Except String String → CommandResult)

namespace CommandResult

def success (stdout : String) : CommandResult := ⟨0, stdout, ""⟩

def failure (code : Nat) (stderr : String) : CommandResult := ⟨code, "", stderr ++ "\n"⟩

end CommandResult

-- Why the system could not read a text.
inductive ReadFault where
  | system (code : Nat)
  | notText
deriving DecidableEq, Repr

def ReadFault.missingFile : ReadFault := .system 2

def ReadFault.message : ReadFault → String
  | system code =>
    let reason := match code with
      | 1 => "Operation not permitted"
      | 2 => "No such file or directory"
      | 5 => "Input/output error"
      | 13 => "Permission denied"
      | 20 => "Not a directory"
      | 21 => "Is a directory"
      | 36 => "File name too long"
      | 40 => "Too many levels of symbolic links"
      | _ => "Unknown error"
    reason ++ s!" (os error {code})"
  | notText => "stream did not contain valid UTF-8"

-- What happens when the command finds a text, or none.
def TextCommand.run (c : TextCommand) (read : Option String → Except ReadFault String) :
    CommandResult :=
  match c with
  | done r => r
  | reading path next => next ((read path).mapError ReadFault.message)

end NoteCell
