import NoteCell.Proofs.Blocking.Conversations
import NoteCell.Proofs.Machine.Changes
import NoteCell.Proofs.Machine.Moves

/-!
What cells come to under a host that answers with one text after the other: what they do and ask on
the way, how they end, and the heap that they leave.
-/
namespace NoteCell

structure Account where
  effects : List Effect
  prompts : List String
  outcome : Outcome
  heap : Heap

-- What the nodes of bodies carry, and the names of cells, are left out.
def BodyChange.blank : BodyChange := ⟨Stmt.bare, fun _ => ""⟩

-- The bodies of functions in two heaps may differ in the ids and places of their nodes, and those
-- that wait to be awaited in the cells they are for.
def Heap.Alike (h h' : Heap) : Prop := h.mapWork .blank = h'.mapWork .blank

theorem Heap.Alike.binding? {h h' : Heap} (hh : h.Alike h') (scope : Nat) (name : String) :
    h.binding? scope name = h'.binding? scope name := by
  rw [← h.binding?_mapWork .blank, hh, Heap.binding?_mapWork]

theorem Heap.Alike.repr {h h' : Heap} (hh : h.Alike h') : h.repr = h'.repr := by
  rw [← h.repr_mapWork .blank, hh, Heap.repr_mapWork]

-- What two cells come to, one after the other.
def Account.andThen (a b : Account) : Account :=
  ⟨a.effects ++ b.effects, a.prompts ++ b.prompts, b.outcome, b.heap⟩

-- One cell has done what two have done, one after the other.
structure Account.Joins (whole first second : Account) : Prop where
  effects : whole.effects = first.effects ++ second.effects
  prompts : whole.prompts = first.prompts ++ second.prompts
  outcome : whole.outcome = second.outcome
  heap : whole.heap.Alike second.heap

-- What the turns of a machine and its end come to.
def Account.ofTurns (run : List Turn × Machine) (outcome : Outcome) : Account :=
  ⟨run.1.flatMap (·.effects) ++ run.2.world.effects.reverse, run.1.map (·.prompt), outcome,
    run.2.world.heap⟩

def Control.outcome? : Control → Option Outcome
  | ended o => some o
  | _ => none

theorem Control.outcome?_eq_some {control : Control} {o : Outcome} :
    control.outcome? = some o ↔ control = .ended o := by
  cases control <;> simp [outcome?]

-- What the machine comes to that a change makes of another.
def Account.changed (c : MachineChange) (a : Account) : Account :=
  ⟨c.written.reverse ++ a.effects, a.prompts, a.outcome, a.heap.mapWork c.world.toBodyChange⟩

namespace Machine

-- What a machine comes to. There may be answers that nobody asks for.
inductive Yields : Machine → List String → Account → Prop where
  | ended {m : Machine} {answers : List String} {o : Outcome} (h : m.control = .ended o) :
    Yields m answers ⟨m.world.effects.reverse, [], o, m.world.heap⟩
  | step {m : Machine} {answers : List String} {a : Account} (h : m.isHalted = false)
    (ha : Yields m.step answers a) : Yields m answers a
  | turn {m : Machine} {cell prompt text : String} {answers : List String} {a : Account}
    (h : m.control = .waiting cell prompt) (ha : Yields (m.drained.answer text) answers a) :
    Yields m (text :: answers)
      ⟨m.world.effects.reverse ++ a.effects, prompt :: a.prompts, a.outcome, a.heap⟩

variable {m : Machine} {answers : List String} {a : Account}

theorem yields_step_iff (h : m.isHalted = false) :
    m.Yields answers a ↔ m.step.Yields answers a := by
  refine ⟨fun ha => ?_, .step h⟩
  cases ha
  case ended hended => simp [isHalted, hended] at h
  case step ha => exact ha
  case turn hwaiting _ => simp [isHalted, hwaiting] at h

theorem yields_ended_iff {o : Outcome} (h : m.control = .ended o) :
    m.Yields answers a ↔ a = ⟨m.world.effects.reverse, [], o, m.world.heap⟩ := by
  refine ⟨fun ha => ?_, fun ha => ha ▸ .ended h⟩
  cases ha
  case ended hended =>
    obtain rfl := Control.ended.inj (hended.symm.trans h)
    rfl
  case step hhalted _ => simp [isHalted, h] at hhalted
  case turn hwaiting _ => cases h.symm.trans hwaiting

theorem yields_turn_iff {cell prompt text : String} (h : m.control = .waiting cell prompt) :
    m.Yields (text :: answers) a ↔ ∃ b, (m.drained.answer text).Yields answers b
      ∧ a = ⟨m.world.effects.reverse ++ b.effects, prompt :: b.prompts, b.outcome, b.heap⟩ := by
  refine ⟨fun ha => ?_, fun ⟨b, hb, hab⟩ => hab ▸ .turn h hb⟩
  cases ha
  case ended hended => cases h.symm.trans hended
  case step hhalted _ => simp [isHalted, h] at hhalted
  case turn b hwaiting hb =>
    obtain ⟨rfl, rfl⟩ := Control.waiting.inj (h.symm.trans hwaiting)
    exact ⟨_, hb, rfl⟩

theorem yields_iterate_iff (n : Nat) : (step^[n] m).Yields answers a ↔ m.Yields answers a := by
  induction n generalizing m
  case zero => rfl
  case succ n ih =>
    rw [Function.iterate_succ_apply, ih]
    cases hm : m.isHalted with
    | true => rw [step_of_isHalted hm]
    | false => exact (yields_step_iff hm).symm

-- What a machine comes to can be had by running it.
theorem yields_of_converse {fuel : Nat} {run : List Turn × Machine} {o : Outcome}
    (hrun : m.converse step fuel answers = run) (h : run.2.control.outcome? = some o) :
    m.Yields answers (.ofTurns run o) := by
  subst hrun
  induction answers generalizing m
  case nil =>
    exact (yields_iterate_iff fuel).mp (.ended (Control.outcome?_eq_some.mp h))
  case cons text answers ih =>
    refine (yields_iterate_iff fuel).mp ?_
    by_cases hwaiting : ∃ cell prompt, (step^[fuel] m).control = .waiting cell prompt
    · obtain ⟨cell, prompt, hcontrol⟩ := hwaiting
      rw [converse_of_waiting hcontrol] at h ⊢
      have hrest := Yields.turn hcontrol (ih h)
      rwa [Account.ofTurns, List.flatMap_cons, List.append_assoc]
    · have hwaiting : ∀ cell prompt, (step^[fuel] m).control ≠ .waiting cell prompt :=
        fun cell prompt hcontrol => hwaiting ⟨cell, prompt, hcontrol⟩
      rw [converse_of_not_waiting hwaiting] at h ⊢
      exact .ended (Control.outcome?_eq_some.mp h)

/-! ### Changed machines -/

variable {t : TreeChange} {written : List Effect}

theorem changed_over_drained (text : String) :
    (m.changed (.over t [] written)).drained.answer text
      = (m.drained.answer text).changed (.over t [] []) := rfl

theorem Yields.changed (ht : ∀ e, t.Keeps e) (ha : m.Yields answers a) (written : List Effect) :
    (m.changed (.over t [] written)).Yields answers (a.changed (.over t [] written)) := by
  induction ha generalizing written
  case ended m answers o hended =>
    rw [yields_ended_iff (ended_changed.mpr hended)]
    simp [Account.changed, Machine.changed, World.changed, MachineChange.world, MachineChange.over]
  case step m answers a hhalted _ ih =>
    refine .step (isHalted_changed.trans hhalted) ?_
    rw [← changed_step (open_over ht fun _ _ => rfl)]
    exact ih written
  case turn m cell prompt text answers a hwaiting _ ih =>
    rw [yields_turn_iff (waiting_changed.mpr ⟨cell, hwaiting, rfl⟩)]
    refine ⟨_, ih [], ?_⟩
    simp [Account.changed, Machine.changed, World.changed, MachineChange.world, MachineChange.over]

theorem yields_changed_iff (ht : ∀ e, t.Keeps e) :
    (m.changed (.over t [] written)).Yields answers a
      ↔ ∃ b, m.Yields answers b ∧ b.changed (.over t [] written) = a := by
  refine ⟨fun ha => ?_, fun ⟨b, hb, hab⟩ => hab ▸ hb.changed ht written⟩
  generalize hm : m.changed (.over t [] written) = m' at ha
  induction ha generalizing m written
  case ended answers o hended =>
    subst hm
    refine ⟨_, .ended (ended_changed.mp hended), ?_⟩
    simp [Account.changed, Machine.changed, World.changed, MachineChange.world, MachineChange.over]
  case step answers a hhalted _ ih =>
    subst hm
    rw [isHalted_changed] at hhalted
    obtain ⟨b, hb, hab⟩ := ih (changed_step (open_over ht fun _ _ => rfl))
    exact ⟨b, .step hhalted hb, hab⟩
  case turn cell prompt text answers a hwaiting _ ih =>
    subst hm
    obtain ⟨waiter, hcontrol, -⟩ := waiting_changed.mp hwaiting
    obtain ⟨b, hb, hab⟩ := ih (changed_over_drained text).symm
    refine ⟨_, .turn hcontrol hb, ?_⟩
    simp [← hab, Account.changed, Machine.changed, World.changed, MachineChange.world,
      MachineChange.over]

end Machine
end NoteCell
