import NoteCell.Proofs.Blocking.Conversations
import NoteCell.Proofs.Machine.Moves
import NoteCell.Proofs.Output.Pipelines
import NoteCell.Proofs.Session.Canonical

/-!
What a session tells of a cell on a fresh interpreter is what the turns of the cell and its end come
to.
-/
namespace NoteCell

namespace Machine

theorem run_eq_iterate (fuel : Nat) (m : Machine) : m.run fuel = step^[fuel] m := by
  induction fuel generalizing m
  case zero => rfl
  case succ fuel ih =>
    rw [run, Function.iterate_succ_apply]
    split
    · rw [step_of_isHalted ‹_›, Function.iterate_fixed (step_of_isHalted ‹_›)]
    · exact ih m.step

end Machine

-- Nobody waits, and the next one to wait does so under an id.
def Registry.idle (id : Nat) : Registry := ⟨id, [], [], [], true⟩

namespace Session

-- What a cell has come to, once it is not in flight any more.
def outcome? (r : List Notice × Session) : Option (List Notice × Heap) :=
  if r.2.isBusy then none else some (r.1, r.2.heap)

variable {s : Session} {fuel id : Nat} {formatter : HeapFormatter} {cell : String}
  {capture : Capture} {answers : List String} {m : Machine}

theorem advance_of_waiting {waiter prompt : String} (hregistry : s.registry = .idle id)
    (h : (Machine.step^[fuel] m).control = .waiting waiter prompt) :
    let effects := (Machine.step^[fuel] m).world.effects.reverse
    s.advance fuel formatter cell capture m
      = (effects.filterMap Effect.notice? ++ [.request ⟨id, waiter, prompt⟩],
        { s with
          target := s.target.writeAll (effects.filterMap Effect.write?)
          registry := ⟨id + 1, [id], [], [], true⟩
          inFlight := some ⟨cell, capture, some id, (Machine.step^[fuel] m).drained⟩ }) := by
  simp [advance, drain, Machine.run_eq_iterate, settle, h, hregistry, Registry.register,
    Registry.idle, Machine.drained]

theorem resume_of_waiting {f : InFlight} (hf : s.inFlight = some f) (hid : f.suspension = some id)
    (hregistry : s.registry = ⟨id + 1, [id], [], [], true⟩) (text : String) :
    s.resume fuel formatter id text
      = (.ok ({ s with registry := .idle (id + 1) }.advance fuel formatter f.cell f.capture
          (f.machine.answer text)).1,
        ({ s with registry := .idle (id + 1) }.advance fuel formatter f.cell f.capture
          (f.machine.answer text)).2) := by
  simp [resume, deliver, hregistry, Registry.resume, progress, hf, hid, Registry.collect,
    Registry.idle]

theorem advance_of_ended {o : Outcome} (h : (Machine.step^[fuel] m).control = .ended o) :
    let effects := (Machine.step^[fuel] m).world.effects.reverse
    let heap := (Machine.step^[fuel] m).world.heap
    let finish := Pipeline.finish (formatter heap) cell capture
      (s.target.writeAll (effects.filterMap Effect.write?)) o.evaluation
    s.advance fuel formatter cell capture m
      = (effects.filterMap Effect.notice? ++ [.result cell finish.1],
        { s with heap, target := finish.2, inFlight := none }) := by
  simp [advance, drain, Machine.run_eq_iterate, settle, h, conclude]

theorem advance_of_running (h : (Machine.step^[fuel] m).isHalted = false) :
    ∃ f, (s.advance fuel formatter cell capture m).2.inFlight = some f ∧ f.suspension = none := by
  simp only [advance, drain, Machine.run_eq_iterate]
  cases hcontrol : (Machine.step^[fuel] m).control
  case waiting | ended => simp [Machine.isHalted, hcontrol] at h
  all_goals simp [settle]

-- A host has nothing to answer to.
theorem converse_eq_self {r : List Notice × Session}
    (h : r.2.inFlight.bind InFlight.suspension = none) : converse fuel formatter answers r = r := by
  cases answers with
  | nil => rfl
  | cons text answers =>
    rw [converse]
    simp only [h]

theorem outcome?_of_ended {ws : List Write} {o : Outcome} (before : List Notice)
    (htarget : s.target = OutputTarget.new.capture.1.writeAll ws)
    (h : (Machine.step^[fuel] m).control = .ended o) :
    let advanced := s.advance fuel formatter cell OutputTarget.new.capture.2 m
    outcome? (converse fuel formatter answers (before ++ advanced.1, advanced.2))
      = (Turn.report? formatter cell id ws ([], Machine.step^[fuel] m)).map
        fun r => (before ++ r.1, r.2) := by
  intro advanced
  have hadvanced : advanced = _ := advance_of_ended h
  rw [converse_eq_self (by rw [hadvanced]; rfl), hadvanced]
  simp only [htarget, ← OutputTarget.writeAll_append, Turn.report?, h, outcome?]
  rfl

theorem outcome?_of_running {ws : List Write} (before : List Notice)
    (h : (Machine.step^[fuel] m).isHalted = false) :
    let advanced := s.advance fuel formatter cell OutputTarget.new.capture.2 m
    outcome? (converse fuel formatter answers (before ++ advanced.1, advanced.2))
      = (Turn.report? formatter cell id ws ([], Machine.step^[fuel] m)).map
        fun r => (before ++ r.1, r.2) := by
  intro advanced
  obtain ⟨f, hf, hsuspension⟩ := advance_of_running h
  rw [converse_eq_self (by rw [hf]; exact hsuspension), outcome?, isBusy, hf, Turn.report?]
  cases hcontrol : (Machine.step^[fuel] m).control
  case ended => simp [Machine.isHalted, hcontrol] at h
  all_goals rfl

-- A turn comes before the ones after it.
theorem report?_cons {ws : List Write} {turn : Turn} {run : List Turn × Machine} :
    Turn.report? formatter cell id ws (turn :: run.1, run.2)
      = (Turn.report? formatter cell (id + 1) (ws ++ turn.effects.filterMap Effect.write?) run).map
        fun r => (turn.effects.filterMap Effect.notice?
          ++ .request ⟨id, turn.cell, turn.prompt⟩ :: r.1, r.2) := by
  obtain ⟨turns, control, frames, context, world⟩ := run
  cases control
  case ended o => simp [Turn.report?, Turn.told]
  all_goals rfl

-- The answers go to the waits of the cell one by one.
theorem outcome?_converse {ws : List Write} (before : List Notice)
    (hregistry : s.registry = .idle id)
    (htarget : s.target = OutputTarget.new.capture.1.writeAll ws) :
    let advanced := s.advance fuel formatter cell OutputTarget.new.capture.2 m
    outcome? (converse fuel formatter answers (before ++ advanced.1, advanced.2))
      = (Turn.report? formatter cell id ws (m.converse Machine.step fuel answers)).map
        fun r => (before ++ r.1, r.2) := by
  intro advanced
  induction answers generalizing s id ws before m
  case nil =>
    cases hcontrol : (Machine.step^[fuel] m).control
    case ended => exact outcome?_of_ended before htarget hcontrol
    case waiting waiter prompt =>
      have hadvanced : advanced = _ := advance_of_waiting hregistry hcontrol
      rw [hadvanced, Machine.converse, Turn.report?]
      simp [converse, outcome?, isBusy, hcontrol]
    all_goals exact outcome?_of_running before (by rw [Machine.isHalted, hcontrol])
  case cons text answers ih =>
    by_cases hwaiting : ∃ waiter prompt, (Machine.step^[fuel] m).control = .waiting waiter prompt
    · obtain ⟨waiter, prompt, hcontrol⟩ := hwaiting
      have hadvanced : advanced = _ := advance_of_waiting hregistry hcontrol
      rw [Machine.converse_of_waiting hcontrol, report?_cons, hadvanced, converse]
      simp only [Option.bind_some]
      rw [resume_of_waiting rfl rfl rfl]
      have hwritten (more : List Write) :
          s.target.writeAll more = OutputTarget.new.capture.1.writeAll (ws ++ more) := by
        rw [htarget, OutputTarget.writeAll_append]
      refine (ih _ rfl (hwritten _)).trans ?_
      simp [Function.comp_def]
    · have hwaiting : ∀ waiter prompt, (Machine.step^[fuel] m).control ≠ .waiting waiter prompt :=
        fun waiter prompt hcontrol => hwaiting ⟨waiter, prompt, hcontrol⟩
      rw [Machine.converse_of_not_waiting hwaiting]
      cases hcontrol : (Machine.step^[fuel] m).control
      case ended => exact outcome?_of_ended before htarget hcontrol
      case waiting waiter prompt => exact (hwaiting waiter prompt hcontrol).elim
      all_goals exact outcome?_of_running before (by rw [Machine.isHalted, hcontrol])

theorem hosted?_of_runnable {hasHost : Bool} {source : String} {body : List Stmt}
    (h : runnable source = .ok body) :
    hosted? fuel formatter hasHost cell answers source
      = evaluated? Machine.step fuel formatter hasHost cell answers body := by
  let begun : Session := { new hasHost with
    target := OutputTarget.new.capture.1
    inFlight := some ⟨cell, OutputTarget.new.capture.2, none,
      .start body cell ⟨.empty, [], hasHost⟩⟩ }
  have hbegin : (new hasHost).begin? formatter cell source = some ([], begun) := by
    rw [begin?, h]
    rfl
  have hhost : (new hasHost).host? fuel formatter cell answers source
      = some (converse fuel formatter answers
        ([] ++ (begun.progress fuel formatter).1, (begun.progress fuel formatter).2)) := by
    rw [host?, start?, hbegin]
    rfl
  have htarget : begun.target = OutputTarget.new.capture.1.writeAll [] := rfl
  rw [hosted?, hhost]
  refine (outcome?_converse [] rfl htarget).trans ?_
  simp [evaluated?]

end Session
end NoteCell
