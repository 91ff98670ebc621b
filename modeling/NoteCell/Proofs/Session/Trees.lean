import NoteCell.Proofs.Machine.Changes
import NoteCell.Session.Basic

/-!
Cells that run under a host, which answers every wait with its next text, and sessions whose trees
differ in what their nodes carry. Nothing that the outside gets to know depends on that, once a cell
has been taken on.
-/
namespace NoteCell.Session

-- A host answers with one text after the other, each under the id of the wait.
def converse (fuel : Nat) (formatter : HeapFormatter) :
    List String → List Notice × Session → List Notice × Session
  | [], r => r
  | text :: answers, (told, s) =>
    match s.inFlight.bind InFlight.suspension with
    | none => (told, s)
    | some id =>
      match s.resume fuel formatter id text with
      | (.ok more, s) => converse fuel formatter answers (told ++ more, s)
      | (.error _, s) => (told, s)

-- A session runs a source: what the outside gets to know, and the session when the host has given
-- its answers. There is nothing when another cell is in flight.
def host? (s : Session) (fuel : Nat) (formatter : HeapFormatter) (cell : String)
    (answers : List String) (source : String) : Option (List Notice × Session) :=
  (s.start? fuel formatter cell source).map (converse fuel formatter answers)

-- The same on a fresh interpreter, with its heap. There is nothing as long as the cell is in flight.
def hosted? (fuel : Nat) (formatter : HeapFormatter) (hasHost : Bool) (cell : String)
    (answers : List String) (source : String) : Option (List Notice × Heap) := do
  let (told, s) ← (new hasHost).host? fuel formatter cell answers source
  if s.isBusy then none else some (told, s.heap)

end NoteCell.Session

/-! ### Changed trees -/

namespace NoteCell

-- A formatter that does not look at the bodies of functions.
def HeapFormatter.Blind (formatter : HeapFormatter) : Prop :=
  ∀ f h, formatter (h.mapBodies f) = formatter h

theorem blind_reprFormatter : reprFormatter.Blind := by
  intro f h
  funext v
  simp [reprFormatter, ← Heap.mapWork_ofStmt]

variable {f : NodeInfo → NodeInfo} {formatter : HeapFormatter} {cell : String} {capture : Capture}

def InFlight.mapInfo (f : NodeInfo → NodeInfo) (i : InFlight) : InFlight :=
  { i with machine := i.machine.mapInfo f }

namespace Session

def mapInfo (f : NodeInfo → NodeInfo) (s : Session) : Session :=
  { s with
    heap := s.heap.mapBodies (Stmt.mapInfo f)
    inFlight := s.inFlight.map (InFlight.mapInfo f) }

-- What is told, and the session after it.
abbrev mapTold (f : NodeInfo → NodeInfo) (r : List Notice × Session) : List Notice × Session :=
  (r.1, r.2.mapInfo f)

variable (s : Session)

theorem global?_mapInfo (name : String) : (s.mapInfo f).global? name = s.global? name :=
  s.heap.binding?_mapBodies _ _ name

theorem mapInfo_conclude (hf : formatter.Blind) (heap : Heap) (evaluation : Evaluation Value) :
    mapTold f (s.conclude formatter cell capture heap evaluation)
      = (s.mapInfo f).conclude formatter cell capture (heap.mapBodies (Stmt.mapInfo f))
        evaluation := by
  rw [conclude, conclude, hf]
  rfl

theorem mapInfo_settle (hf : formatter.Blind) (m : Machine) :
    mapTold f (s.settle formatter cell capture m)
      = (s.mapInfo f).settle formatter cell capture (m.mapInfo f) := by
  obtain ⟨control, frames, context, world⟩ := m
  cases control
  case ended o => exact s.mapInfo_conclude hf _ _
  case waiting waiter prompt =>
    have hregistry : (s.mapInfo f).registry = s.registry := rfl
    simp only [settle, Machine.mapInfo, Control.mapInfo, hregistry]
    rcases s.registry.register waiter prompt with ⟨e | event, registry⟩
    · exact mapInfo_conclude { s with registry } hf _ _
    · rfl
  all_goals rfl

theorem mapInfo_advance (hf : formatter.Blind) (fuel : Nat) (m : Machine) :
    mapTold f (s.advance fuel formatter cell capture m)
      = (s.mapInfo f).advance fuel formatter cell capture (m.mapInfo f) := by
  have hdrain : (s.mapInfo f).drain ((m.mapInfo f).run fuel)
      = ((s.drain (m.run fuel)).1, (s.drain (m.run fuel)).2.1.mapInfo f,
        (s.drain (m.run fuel)).2.2.mapInfo f) := by
    rw [← Machine.mapInfo_run]
    rfl
  rw [advance, advance, hdrain]
  exact congrArg (fun r => ((s.drain (m.run fuel)).1 ++ r.1, r.2)) (mapInfo_settle _ hf _)

theorem mapInfo_progress (hf : formatter.Blind) (fuel : Nat) :
    mapTold f (s.progress fuel formatter) = (s.mapInfo f).progress fuel formatter := by
  obtain ⟨heap, hasHost, registry, target, _ | ⟨cell, capture, suspension, m⟩⟩ := s
  case none => rfl
  case some =>
    cases suspension with
    | none => exact mapInfo_advance _ hf fuel m
    | some id =>
      simp only [progress, mapInfo, Option.map_some, InFlight.mapInfo]
      rcases registry.collect id with ⟨_ | value, registry⟩
      · rfl
      · exact mapInfo_advance _ hf fuel (m.answer value)

theorem mapInfo_resume (hf : formatter.Blind) (fuel id : Nat) (value : String) :
    ((s.resume fuel formatter id value).1, (s.resume fuel formatter id value).2.mapInfo f)
      = (s.mapInfo f).resume fuel formatter id value := by
  have hregistry : (s.mapInfo f).registry = s.registry := rfl
  simp only [resume, deliver, hregistry]
  rcases s.registry.resume id value with ⟨e | _, registry⟩
  · rfl
  · exact congrArg (fun r => (Except.ok r.1, r.2)) (mapInfo_progress { s with registry } hf fuel)

theorem mapInfo_converse (hf : formatter.Blind) (fuel : Nat) (answers : List String)
    (r : List Notice × Session) :
    mapTold f (converse fuel formatter answers r)
      = converse fuel formatter answers (mapTold f r) := by
  induction answers generalizing r
  case nil => rfl
  case cons text answers ih =>
    obtain ⟨told, s⟩ := r
    have hsuspension : (s.mapInfo f).inFlight.bind InFlight.suspension
        = s.inFlight.bind InFlight.suspension := by
      obtain ⟨_, _, _, _, _ | _⟩ := s <;> rfl
    simp only [converse, mapTold, hsuspension]
    cases s.inFlight.bind InFlight.suspension with
    | none => rfl
    | some id =>
      simp only [← s.mapInfo_resume hf]
      rcases s.resume fuel formatter id text with ⟨e | more, s⟩
      · rfl
      · exact ih _

end Session
end NoteCell
