import Mathlib.Logic.Function.Iterate
import NoteCell.Session.Basic

/-!
Evaluations of a tree under a host that answers with one text after the other. Under the blocking
reading a call of `input` that succeeds has the host's next answer for its value. Two ways of going
on that a relation of machines matches have the same turns under one row of answers, and the outside
gets to know the same.
-/
namespace NoteCell

namespace Machine

-- Whether the next step performs a call of `input`.
def callsInput (m : Machine) : Bool :=
  match m.control, m.frames with
  | .give v, .operands done [] (.call ..) :: _ =>
    (v :: done).getLast? = some (.builtin .input)
  | _, _ => false

-- What a call of `input` gives is waited for together with the call.
def blockingStep (m : Machine) : Machine :=
  match m.callsInput, m.step.control with
  | true, .give v => m.step.await v
  | _, _ => m.step

def drained (m : Machine) : Machine := { m with world := { m.world with effects := [] } }

end Machine

-- What a cell does up to where it waits, in order, and what it waits for.
structure Turn where
  effects : List Effect
  cell : String
  prompt : String

-- What the outside gets to know of turns, when their waits are registered from an id on.
def Turn.told : Nat → List Turn → List Notice
  | _, [] => []
  | id, t :: turns =>
    t.effects.filterMap Effect.notice? ++ .request ⟨id, t.cell, t.prompt⟩ :: told (id + 1) turns

-- The turns of a machine that goes on in some way while it is given answers, and what it comes to.
def Machine.converse (next : Machine → Machine) (fuel : Nat) :
    List String → Machine → List Turn × Machine
  | [], m => ([], next^[fuel] m)
  | text :: answers, m =>
    let m := next^[fuel] m
    match m.control with
    | .waiting cell prompt =>
      let (turns, last) := converse next fuel answers (m.drained.answer text)
      (⟨m.world.effects.reverse, cell, prompt⟩ :: turns, last)
    | _ => ([], m)

-- What the outside gets to know of a cell, and the heap, when the cell has written something before
-- and its next wait is registered under an id. There is nothing as long as the cell has not ended.
def Turn.report? (formatter : HeapFormatter) (cell : String) (id : Nat) (written : List Write)
    (run : List Turn × Machine) : Option (List Notice × Heap) :=
  let (turns, last) := run
  match last.control with
  | .ended o =>
    let effects := last.world.effects.reverse
    let writes := written ++ (turns.flatMap (·.effects) ++ effects).filterMap Effect.write?
    let (result, _) :=
      Pipeline.runCell (formatter last.world.heap) cell ⟨writes, o.evaluation⟩ .new
    some (Turn.told id turns ++ (effects.filterMap Effect.notice? ++ [.result cell result]),
      last.world.heap)
  | _ => none

-- A fresh interpreter evaluates statements.
def evaluated? (next : Machine → Machine) (fuel : Nat) (formatter : HeapFormatter) (hasHost : Bool)
    (cell : String) (answers : List String) (body : List Stmt) : Option (List Notice × Heap) :=
  Turn.report? formatter cell 0 []
    ((Machine.start body cell ⟨.empty, [], hasHost⟩).converse next fuel answers)

def Cell.blocking? (fuel : Nat) (formatter : HeapFormatter) (hasHost : Bool) (cell : String)
    (answers : List String) (c : Cell) : Option (List Notice × Heap) :=
  evaluated? Machine.blockingStep fuel formatter hasHost cell answers c.body

end NoteCell

/-! ### Matching evaluations -/

namespace NoteCell.Machine

section

variable {next : Machine → Machine} {fuel : Nat} {m : Machine} {text cell prompt : String}
  {answers : List String}

theorem converse_of_waiting (h : (next^[fuel] m).control = .waiting cell prompt) :
    m.converse next fuel (text :: answers)
      = (⟨(next^[fuel] m).world.effects.reverse, cell, prompt⟩
          :: (((next^[fuel] m).drained.answer text).converse next fuel answers).1,
        (((next^[fuel] m).drained.answer text).converse next fuel answers).2) := by
  rw [converse]
  simp only [h]

theorem converse_of_not_waiting
    (h : ∀ cell prompt, (next^[fuel] m).control ≠ .waiting cell prompt) :
    m.converse next fuel (text :: answers) = ([], next^[fuel] m) := by
  rw [converse]
  split
  · exact (h _ _ ‹_›).elim
  · rfl

end

structure Matching (next next' : Machine → Machine) (R : Machine → Machine → Prop) : Prop where
  -- Halted machines go nowhere.
  still (m : Machine) : m.isHalted → next m = m
  still' (m : Machine) : m.isHalted → next' m = m
  halted {m m' : Machine} : R m m' → m'.isHalted = m.isHalted
  control {m m' : Machine} : R m m' → m.isHalted → m'.control = m.control
  effects {m m' : Machine} : R m m' → m'.world.effects = m.world.effects
  goes {m m' : Machine} : R m m' → m.isHalted = false → ∃ k j, R (next^[k + 1] m) (next'^[j + 1] m')
  answer {m m' : Machine} {cell prompt : String} (text : String) : R m m' →
    m.control = .waiting cell prompt → R (m.drained.answer text) (m'.drained.answer text)

namespace Matching

variable {next next' : Machine → Machine} {R : Machine → Machine → Prop} {m m' : Machine}

theorem flip (h : Matching next next' R) : Matching next' next fun m' m => R m m' where
  still := h.still'
  still' := h.still
  halted hR := (h.halted hR).symm
  control hR hm := (h.control hR ((h.halted hR).symm.trans hm)).symm
  effects hR := (h.effects hR).symm
  goes hR hm := by
    obtain ⟨k, j, hgoes⟩ := h.goes hR ((h.halted hR).symm.trans hm)
    exact ⟨j, k, hgoes⟩
  answer text hR hm := by
    have hhalted : Machine.isHalted _ = true := (h.halted hR).symm.trans (by rw [isHalted, hm])
    exact h.answer text hR ((h.control hR hhalted).symm.trans hm)

theorem iterate_of_le (hstill : ∀ m : Machine, m.isHalted → next m = m) {n k : Nat}
    (hn : (next^[n] m).isHalted) (hk : n ≤ k) : next^[k] m = next^[n] m := by
  obtain ⟨d, rfl⟩ := Nat.exists_eq_add_of_le' hk
  rw [Function.iterate_add_apply, Function.iterate_fixed (hstill _ hn)]

-- When one machine has halted, so has the other.
theorem settles (h : Matching next next' R) (hR : R m m') {n : Nat} (hn : (next^[n] m).isHalted) :
    ∃ n', R (next^[n] m) (next'^[n'] m') := by
  induction n using Nat.strongRecOn generalizing m m'
  case ind n ih =>
    cases hm : m.isHalted with
    | true => exact ⟨0, by rwa [Function.iterate_fixed (h.still m hm)]⟩
    | false =>
      obtain ⟨k, j, hgoes⟩ := h.goes hR hm
      obtain hle | hlt := Nat.le_total n (k + 1)
      · exact ⟨j + 1, by rwa [← iterate_of_le h.still hn hle]⟩
      · obtain ⟨d, rfl⟩ := Nat.exists_eq_add_of_le' hlt
        rw [Function.iterate_add_apply] at hn ⊢
        obtain ⟨n', hn'⟩ := ih d (by omega) hgoes hn
        exact ⟨n' + (j + 1), by rwa [Function.iterate_add_apply next' n']⟩

-- Once the first has come to a halt, the second has had the same turns, however long it may go on.
theorem converses (h : Matching next next' R) (hR : R m m') {fuel : Nat} {answers : List String}
    (hlast : (m.converse next fuel answers).2.isHalted) :
    ∃ fuel' last', R (m.converse next fuel answers).2 last' ∧ ∀ more, fuel' ≤ more →
      m'.converse next' more answers = ((m.converse next fuel answers).1, last') := by
  induction answers generalizing m m'
  case nil =>
    obtain ⟨n', hn'⟩ := h.settles hR hlast
    refine ⟨n', _, hn', fun more hmore => ?_⟩
    exact congrArg (Prod.mk []) (iterate_of_le h.still' ((h.halted hn').trans hlast) hmore)
  case cons text answers ih =>
    by_cases hwaiting : ∃ cell prompt, (next^[fuel] m).control = .waiting cell prompt
    · obtain ⟨cell, prompt, hcontrol⟩ := hwaiting
      rw [converse_of_waiting hcontrol] at hlast ⊢
      have hhalted : (next^[fuel] m).isHalted := by rw [isHalted, hcontrol]
      obtain ⟨n', hn'⟩ := h.settles hR hhalted
      obtain ⟨fuel', last', hlast', hmore⟩ := ih (h.answer text hn' hcontrol) hlast
      refine ⟨max n' fuel', last', hlast', fun more hle => ?_⟩
      obtain ⟨hle, hle'⟩ := Nat.max_le.mp hle
      have hstill := iterate_of_le h.still' ((h.halted hn').trans hhalted) hle
      have hcontrol' : (next'^[more] m').control = .waiting cell prompt := by
        rw [hstill, h.control hn' hhalted, hcontrol]
      rw [converse_of_waiting hcontrol', hstill, h.effects hn', hmore more hle']
    · have hwaiting : ∀ cell prompt, (next^[fuel] m).control ≠ .waiting cell prompt :=
        fun cell prompt hcontrol => hwaiting ⟨cell, prompt, hcontrol⟩
      rw [converse_of_not_waiting hwaiting] at hlast ⊢
      obtain ⟨n', hn'⟩ := h.settles hR hlast
      refine ⟨n', _, hn', fun more hle => ?_⟩
      have hstill := iterate_of_le h.still' ((h.halted hn').trans hlast) hle
      rw [converse_of_not_waiting, hstill]
      intro cell prompt hcontrol
      rw [hstill, h.control hn' hlast] at hcontrol
      exact hwaiting cell prompt hcontrol

-- What comes of an evaluation comes of the other one too, from some fuel on.
theorem evaluates (h : Matching next next' R) {formatter : HeapFormatter} {hasHost : Bool}
    {cell : String} {answers : List String} {body body' : List Stmt} {fuel : Nat}
    (hstart : R (start body cell ⟨.empty, [], hasHost⟩) (start body' cell ⟨.empty, [], hasHost⟩))
    (hformatter : ∀ m m', R m m' → formatter m'.world.heap = formatter m.world.heap)
    {told : List Notice} {heap : Heap}
    (heval : evaluated? next fuel formatter hasHost cell answers body = some (told, heap)) :
    ∃ fuel' m m', R m m' ∧ m.world.heap = heap ∧ ∀ more, fuel' ≤ more →
      evaluated? next' more formatter hasHost cell answers body'
        = some (told, m'.world.heap) := by
  rw [evaluated?] at heval
  cases hturns : converse next fuel answers (start body cell ⟨.empty, [], hasHost⟩) with
  | mk turns last =>
    simp only [hturns, Turn.report?] at heval
    split at heval
    case h_1 o hcontrol =>
      have hhalted : last.isHalted := by rw [isHalted, hcontrol]
      obtain ⟨fuel', last', hlast', hmore⟩ := h.converses hstart (by rwa [hturns])
      rw [hturns] at hlast' hmore
      refine ⟨fuel', last, last', hlast', ?_, fun more hle => ?_⟩
      · cases heval
        rfl
      · cases heval
        rw [evaluated?, hmore more hle]
        simp only [Turn.report?, h.control hlast' hhalted, hcontrol, h.effects hlast',
          hformatter last last' hlast']
    case h_2 => cases heval

end Matching
end NoteCell.Machine
