/-!
Where written text goes. A target has one sink installed at a time. Capturing installs a fresh sink
and remembers the one it replaced; closing the capture installs that one again, whichever sink is
installed by then. Sinks keep their writes one by one, in order.
-/
namespace NoteCell

inductive OutputStream where
  | stdout | stderr
deriving DecidableEq, Repr

def OutputStream.name : OutputStream → String
  | stdout => "stdout"
  | stderr => "stderr"

structure Write where
  stream : OutputStream
  text : String
deriving DecidableEq, Repr

-- The text of one stream in a row of writes.
def textOf (stream : OutputStream) (writes : List Write) : String :=
  String.join ((writes.filter (·.stream = stream)).map Write.text)

structure OutputTarget where
  -- The root sink is the first.
  sinks : Array (Array Write)
  installed : Nat
deriving DecidableEq, Repr

-- A capture: its own sink and the one it replaced.
structure Capture where
  sink : Nat
  replaced : Nat
deriving DecidableEq, Repr

namespace OutputTarget

def root : Nat := 0

def new : OutputTarget := ⟨#[#[]], root⟩

def writes (t : OutputTarget) (sink : Nat) : List Write := (t.sinks.getD sink #[]).toList

-- Empty text reaches no sink.
def write (t : OutputTarget) (w : Write) : OutputTarget :=
  if w.text.isEmpty then t
  else { t with sinks := t.sinks.modify t.installed (·.push w) }

def writeAll (t : OutputTarget) (ws : List Write) : OutputTarget := ws.foldl write t

def capture (t : OutputTarget) : OutputTarget × Capture :=
  (⟨t.sinks.push #[], t.sinks.size⟩, ⟨t.sinks.size, t.installed⟩)

def close (t : OutputTarget) (c : Capture) : OutputTarget := { t with installed := c.replaced }

-- Empties a sink.
def clear (t : OutputTarget) (sink : Nat) : OutputTarget :=
  { t with sinks := t.sinks.modify sink fun _ => #[] }

def stdout (t : OutputTarget) (sink : Nat) : String := textOf .stdout (t.writes sink)

def stderr (t : OutputTarget) (sink : Nat) : String := textOf .stderr (t.writes sink)

end OutputTarget
end NoteCell
