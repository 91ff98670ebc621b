import NoteCell.Text.Utf8
import NoteCell.Worker.Service

/-!
A worker behind a stream of bytes. A line ends with a line feed, before which one carriage return is
dropped; the last line may lack its end. Bytes that are no text end the service.
-/
namespace NoteCell

def lineFeed : UInt8 := 10

-- The bytes of a line with its line feed, and what comes after it.
def firstLine? (bytes : List UInt8) : Option (List UInt8 × List UInt8) :=
  match bytes.dropWhile (· ≠ lineFeed) with
  | [] => none
  | feed :: rest => some (bytes.takeWhile (· ≠ lineFeed) ++ [feed], rest)

theorem length_of_firstLine? {bytes line rest : List UInt8}
    (h : firstLine? bytes = some (line, rest)) : rest.length < bytes.length := by
  simp only [firstLine?] at h
  split at h
  · simp at h
  · next _ tail eq =>
    have le := (List.dropWhile_suffix (l := bytes) (· ≠ lineFeed)).length_le
    simp only [Option.some.injEq, Prod.mk.injEq] at h
    rw [eq, List.length_cons] at le
    rw [← h.2]
    omega

-- The lines of some bytes that have ended, and the bytes of the one that has not.
def splitLines (bytes : List UInt8) : List (List UInt8) × List UInt8 :=
  match _eq : firstLine? bytes with
  | none => ([], bytes)
  | some (line, rest) =>
    let (lines, unread) := splitLines rest
    (line :: lines, unread)
termination_by bytes.length
decreasing_by exact length_of_firstLine? _eq

-- The text of a line without its end.
def withoutEnd (line : List Char) : List Char :=
  match line.reverse with
  | '\n' :: '\r' :: rest | '\n' :: rest => rest.reverse
  | _ => line

structure Service where
  worker : Worker
  -- The bytes of a line that has not ended.
  unread : List UInt8
  -- Why no more is served.
  failure : Option String

namespace Service

def new (options : WorkerOptions) : Service := ⟨.new options, [], none⟩

variable (s : Service)

def brokenText (e : Utf8Fault) : String := "failed to read request: " ++ e.message

-- Serves a line, and all that comes of it.
def serveLine (fuel : Nat) (line : List UInt8) : Service :=
  if s.failure.isSome then s
  else
    match Utf8.decode line with
    | .error e => { s with failure := some (brokenText e) }
    | .ok chars =>
      { s with worker := (s.worker.receive (String.ofList (withoutEnd chars))).settle fuel }

def serve (fuel : Nat) (bytes : List UInt8) : Service :=
  let (lines, unread) := splitLines (s.unread ++ bytes)
  lines.foldl (fun s line => s.serveLine fuel line) { s with unread }

-- Serves the line that lacks its end, if there is one.
def close (fuel : Nat) : Service :=
  let s := if s.unread.isEmpty then s else { s with unread := [] }.serveLine fuel s.unread
  if s.failure.isSome then s else { s with worker := s.worker.shutDown }

-- Takes out the messages that were written.
def collect : List Message × Service :=
  (s.worker.written, { s with worker := { s.worker with written := [] } })

end Service
end NoteCell
