import NoteCell.Json.Value
import NoteCell.Output.Target

/-!
Running one cell with its output captured. However the evaluation ends, the cell has a result, which
holds everything that was written meanwhile, and the sink installed before is installed again.
-/
namespace NoteCell

-- What comes of evaluating a cell.
inductive Evaluation (α : Type) where
  | success (value : Option α)
  | failure (message : String)
  | broken
deriving DecidableEq

inductive CellResult where
  | success (value : Option Bundle) (stdout stderr : String)
  | failure (message stdout stderr : String)

namespace CellResult

def isSuccess : CellResult → Bool
  | success .. => true
  | failure .. => false

def stdout : CellResult → String
  | success _ out _ | failure _ out _ => out

def stderr : CellResult → String
  | success _ _ err | failure _ _ err => err

end CellResult

-- The representations of a value, or why there are none.
abbrev Formatter (α : Type) := α → Except String Bundle

namespace Pipeline

variable {α : Type}

def formattingNote (reason : String) : Write :=
  ⟨.stderr, "display formatting failed: " ++ reason ++ "\n"⟩

def brokenMessage (cell : String) : String := "internal error while running cell " ++ cell

-- A value that cannot be shown leaves a note and no representation.
def format (formatter : Formatter α) (t : OutputTarget) : Option α → Option Bundle × OutputTarget
  | none => (none, t)
  | some v =>
    match formatter v with
    | .ok bundle => (some bundle, t)
    | .error reason => (none, t.write (formattingNote reason))

-- Ends the capture of a cell that has been evaluated.
def finish (formatter : Formatter α) (cell : String) (c : Capture) (t : OutputTarget)
    (evaluation : Evaluation α) : CellResult × OutputTarget :=
  match evaluation with
  | .success value =>
    let (bundle, t) := format formatter t value
    (.success bundle (t.stdout c.sink) (t.stderr c.sink), t.close c)
  | .failure message => (.failure message (t.stdout c.sink) (t.stderr c.sink), t.close c)
  | .broken => (.failure (brokenMessage cell) (t.stdout c.sink) (t.stderr c.sink), t.close c)

-- An evaluation that writes and then ends.
structure Behaviour (α : Type) where
  writes : List Write
  evaluation : Evaluation α

def runCell (formatter : Formatter α) (cell : String) (b : Behaviour α) (t : OutputTarget) :
    CellResult × OutputTarget :=
  let (t, capture) := t.capture
  finish formatter cell capture (t.writeAll b.writes) b.evaluation

end Pipeline
end NoteCell
