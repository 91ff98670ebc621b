import NoteCell.Output.Target

/-!
Captures that are opened and closed in any order. Each is known by its number, and closed once.
-/
namespace NoteCell

structure Scopes where
  target : OutputTarget
  -- Captures still open, by number, newest first.
  opened : List (Nat × Capture)
  -- How many were opened so far.
  count : Nat
deriving DecidableEq, Repr

inductive ScopeCommand where
  | write (w : Write)
  | capture
  | finish (n : Nat)
  | drop (n : Nat)
  -- Moves the text out of the root sink.
  | take
deriving DecidableEq, Repr

inductive ScopeAnswer where
  | scope (n : Nat)
  | texts (stdout stderr : String)
  | closed
  | done
deriving DecidableEq, Repr

namespace Scopes

def new : Scopes := ⟨.new, [], 0⟩

variable (s : Scopes)

def close (n : Nat) (c : Capture) : Scopes :=
  { s with target := s.target.close c, opened := s.opened.filter (·.1 ≠ n) }

def texts (sink : Nat) : ScopeAnswer := .texts (s.target.stdout sink) (s.target.stderr sink)

def run : ScopeCommand → ScopeAnswer × Scopes
  | .write w => (.done, { s with target := s.target.write w })
  | .capture =>
    let (target, c) := s.target.capture
    (.scope s.count, ⟨target, (s.count, c) :: s.opened, s.count + 1⟩)
  | .finish n =>
    match s.opened.lookup n with
    | none => (.closed, s)
    | some c => (s.texts c.sink, s.close n c)
  | .drop n =>
    match s.opened.lookup n with
    | none => (.done, s)
    | some c => (.done, s.close n c)
  | .take =>
    (s.texts OutputTarget.root, { s with target := s.target.clear OutputTarget.root })

end Scopes
end NoteCell
