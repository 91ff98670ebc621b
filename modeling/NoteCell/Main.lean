import NoteCell.CommandLine.Inserting
import NoteCell.CommandLine.Lexing
import NoteCell.Text.Utf8
import NoteCell.Worker.Framing

/-!
The program: `lex` shows the tokens of a source, `insert` puts suspension points in, `worker` runs
cells for a host on the standard streams.
-/
namespace NoteCell.Program

-- No cell gets to take so many steps.
def stepLimit : Nat := 1000000000000000

def readFault : IO.Error → ReadFault
  | .noFileOrDirectory _ code _ => .system code.toNat
  | .permissionDenied _ code _ => .system code.toNat
  | .inappropriateType _ code _ => .system code.toNat
  | .invalidArgument _ code _ => .system code.toNat
  | .otherError code _ => .system code.toNat
  | _ => .system 5

partial def readAll (input : IO.FS.Stream) (done : ByteArray) : IO ByteArray := do
  let chunk ← input.read 65536
  if chunk.isEmpty then return done else readAll input (done ++ chunk)

def readText (path : Option String) : IO (Except ReadFault String) := do
  try
    let bytes ← match path with
      | some path => IO.FS.readBinFile path
      | none => readAll (← IO.getStdin) .empty
    match Utf8.decode bytes.toList with
    | .ok chars => return .ok (String.ofList chars)
    | .error _ => return .error .notText
  catch e => return .error (readFault e)

def report (r : CommandResult) : IO UInt32 := do
  IO.print r.stdout
  IO.eprint r.stderr
  return UInt32.ofNat r.code

def runCommand (c : TextCommand) : IO UInt32 := do
  match c with
  | .done r => report r
  | .reading path _ =>
    let text ← readText path
    report (c.run fun _ => text)

-- The bytes up to the next line feed, or to the end of the input.
partial def readLine (input : IO.FS.Stream) (done : ByteArray) : IO ByteArray := do
  let byte ← input.read 1
  if byte.isEmpty then return done
  else
    let done := done ++ byte
    if byte.toList = [lineFeed] then return done else readLine input done

def send (s : Service) : IO Service := do
  let (messages, s) := s.collect
  let output ← IO.getStdout
  for m in messages do
    output.putStr m.line
    output.flush
  return s

partial def serve (input : IO.FS.Stream) (s : Service) : IO UInt32 := do
  match s.failure with
  | some message =>
    IO.eprintln ("Error: " ++ message)
    return 1
  | none =>
    let bytes ← readLine input .empty
    if bytes.isEmpty then
      let _ ← send (s.close stepLimit)
      return 0
    else serve input (← send (s.serve stepLimit bytes.toList))

def workerRules : ArgumentRules := ⟨["--no-rewrite"], ["--primitive"], false⟩

def workerOptions (a : CommandArguments) : WorkerOptions :=
  ⟨!a.has "--no-rewrite", (a.option? "--primitive").getD defaultPrimitive⟩

def usage : String :=
  "Usage: notecell lex [FILE]\n"
    ++ "       notecell insert [--check] [--dump-ast] [--primitive NAME] [FILE]\n"
    ++ "       notecell worker [--no-rewrite] [--primitive NAME]"

def runWorker (args : List String) : IO UInt32 := do
  match CommandArguments.read workerRules args with
  | .ok a => serve (← IO.getStdin) (.new (workerOptions a))
  | .error (.usage message) => report (.failure 2 ("error: " ++ message ++ "\n\n" ++ usage))
  | .error _ => report (.success (usage ++ "\n"))

end NoteCell.Program

open NoteCell.Program in
def main (args : List String) : IO UInt32 := do
  match args with
  | "lex" :: rest => runCommand (NoteCell.Lexing.command rest)
  | "insert" :: rest => runCommand (NoteCell.Inserting.command rest)
  | "worker" :: rest => runWorker rest
  | _ => report (.failure 2 usage)
