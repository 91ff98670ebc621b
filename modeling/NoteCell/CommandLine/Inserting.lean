import NoteCell.CommandLine.Arguments
import NoteCell.CommandLine.Command
import NoteCell.Suspension.Insertion
import NoteCell.Tree.Dump

/-!
The command that puts suspension points into a source. It can also just look whether some are
missing, or show the tree it ends up with.
-/
namespace NoteCell.Inserting

def rules : ArgumentRules := ⟨["--check", "--dump-ast"], ["--primitive"], true⟩

def version : String := "inkpot-rewrite 0.1.0"

def usage : String := "Usage: inkpot-rewrite [OPTIONS] [FILE]"

-- What is wrong, and what is wrong with it in turn.
def errorChain (source : String) : InsertionError → String
  | .unreadable e => (InsertionError.unreadable e).message source ++ ": " ++ e.render source
  | e => e.message source

def refuse (message : String) : CommandResult := .failure 2 ("Error: " ++ message)

def check (primitive source : String) : CommandResult :=
  match pendingPoints primitive source with
  | .error e => refuse (errorChain source (.unreadable e))
  | .ok 0 => .success ""
  | .ok n => .failure 1 (s!"{n} call(s) to '" ++ primitive ++ "' need a suspension point")

def run (a : CommandArguments) (source : String) : CommandResult :=
  let primitive := (a.option? "--primitive").getD defaultPrimitive
  let shown (r : Except InsertionError String) : CommandResult :=
    match r with
    | .ok text => .success (text ++ "\n")
    | .error e => refuse (errorChain source e)
  if a.has "--dump-ast" then shown ((transform primitive source).map fun c => c.dump.text 0)
  else if a.has "--check" then check primitive source
  else shown (insertSuspensions primitive source)

def unread (path : Option String) (reason : String) : CommandResult :=
  match path with
  | some path => refuse ("failed to read '" ++ path ++ "': " ++ reason)
  | none => refuse ("failed to read stdin: " ++ reason)

def command (args : List String) : TextCommand :=
  match CommandArguments.read rules args with
  | .ok a =>
    .reading a.file fun
      | .ok source => run a source
      | .error reason => unread a.file reason
  | .error .version => .done (.success (version ++ "\n"))
  | .error .help => .done (.success (usage ++ "\n"))
  | .error (.usage message) => .done (.failure 2 ("error: " ++ message ++ "\n\n" ++ usage))

end NoteCell.Inserting
