/-!
Who waits for the host. A wait is registered under a fresh id and announced; the host answers an id
once. Waits may be given up at any time, and the host may leave; each then finds out when it next
asks for the other.
-/
namespace NoteCell

structure SuspendEvent where
  id : Nat
  -- The cell that waits.
  cell : String
  prompt : String
deriving DecidableEq, Repr

inductive SuspensionError where
  | unknown (id : Nat)
  | abandoned (id : Nat)
  | hostGone
deriving DecidableEq, Repr

def SuspensionError.message : SuspensionError → String
  | unknown id => s!"no suspension with id {id} is waiting"
  | abandoned id => s!"suspension {id} was abandoned"
  | hostGone => "the host is no longer accepting input requests"

structure Registry where
  nextId : Nat
  -- Registered and not resumed yet, oldest first.
  waiting : List Nat
  -- Registered ids that nobody waits under any more.
  givenUp : List Nat
  -- Answers that were not picked up yet.
  answers : List (Nat × String)
  hostPresent : Bool
deriving DecidableEq, Repr

namespace Registry

def new : Registry := ⟨0, [], [], [], true⟩

variable (r : Registry)

-- An id is used up even if nobody listens.
def register (cell prompt : String) : Except SuspensionError SuspendEvent × Registry :=
  let id := r.nextId
  if r.hostPresent then
    (.ok ⟨id, cell, prompt⟩, { r with nextId := id + 1, waiting := r.waiting ++ [id] })
  else (.error .hostGone, { r with nextId := id + 1 })

def resume (id : Nat) (value : String) : Except SuspensionError Unit × Registry :=
  if id ∈ r.waiting then
    let r := { r with waiting := r.waiting.erase id }
    if id ∈ r.givenUp then (.error (.abandoned id), r)
    else (.ok (), { r with answers := r.answers ++ [(id, value)] })
  else (.error (.unknown id), r)

-- Picks up the answer to a wait.
def collect (id : Nat) : Option String × Registry :=
  match r.answers.find? (·.1 = id) with
  | some (_, value) => (some value, { r with answers := r.answers.filter (·.1 ≠ id) })
  | none => (none, r)

def giveUp (id : Nat) : Registry :=
  { r with givenUp := id :: r.givenUp, answers := r.answers.filter (·.1 ≠ id) }

-- The host leaves.
def hangUp : Registry := { r with hostPresent := false }

end Registry
end NoteCell
