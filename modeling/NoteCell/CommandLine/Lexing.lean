import NoteCell.CommandLine.Command
import NoteCell.Token.Dump

/-!
The command that shows the tokens of a source, up to its first lexical error.
-/
namespace NoteCell.Lexing

def run (source : String) : CommandResult :=
  let stream := tokenize source
  let shown := String.join (dumpTokens 0 stream.tokens)
  match stream.error with
  | none => .success shown
  | some e =>
    let place := (Position.of source.toList e.offset).render
    ⟨1, shown, place ++ ": " ++ e.fault.message ++ "\n"⟩

-- The first argument, if there is one, is the file to read.
def command (args : List String) : TextCommand :=
  .reading args.head? fun
    | .ok source => run source
    | .error reason => .failure 1 (args.head?.getD "<stdin>" ++ ": " ++ reason)

end NoteCell.Lexing
