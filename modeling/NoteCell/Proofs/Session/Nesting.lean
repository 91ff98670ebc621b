import NoteCell.Proofs.Session.Globals

/-!
How many bodies can be active inside one another. Calls alone go as deep as the limit, where the
next one fails. A coroutine runs as deep as it was called, though, so each time one is awaited from
a place that is no less deep, the bodies inside it may fill the limit once more.
-/
namespace NoteCell

-- How often a body runs no deeper than the one that waits for it, the innermost body first.
def Context.overtakings : List Context → Nat
  | inner :: outer :: rest =>
    (if inner.depth ≤ outer.depth then 1 else 0) + overtakings (outer :: rest)
  | _ => 0

-- Between two overtakings bodies get deeper and deeper.
theorem Context.length_le {inner : Context} {rest : List Context}
    (h : ∀ c ∈ inner :: rest, c.OfBody) :
    (inner :: rest).length ≤ Machine.depthLimit * overtakings (inner :: rest) + inner.depth := by
  obtain ⟨hinner, hrest⟩ := List.forall_mem_cons.mp h
  have hpositive := hinner.positive
  induction rest generalizing inner
  case nil => simpa [overtakings] using Nat.succ_le_of_lt hpositive
  case cons outer rest ih =>
    obtain ⟨houter, houters⟩ := List.forall_mem_cons.mp hrest
    have hlength := ih hrest houter houters houter.positive
    have hbounded := houter.bounded
    rw [overtakings, List.length_cons, Nat.mul_add]
    split <;> omega

namespace Machine

variable {m : Machine}

def overtakings (m : Machine) : Nat := Context.overtakings m.active

-- How active bodies are nested, and what opens another one.
structure Nested (m : Machine) : Prop where
  length_le : m.callers.length ≤ depthLimit * m.overtakings + m.context.depth
  depth_le : m.context.depth ≤ depthLimit
  -- A call is one deeper than its caller. The body of a coroutine is as deep as it was called.
  opens : m.callers.length < m.step.callers.length → m.step.callers = m.context :: m.callers
    ∧ (m.step.context.depth = m.context.depth + 1
      ∨ ∃ id body, (m.world.heap.coroutine id).work = .body m.step.context body)
  -- Where no await has overtaken, a call at the limit fails.
  refuses : m.overtakings = 0 → m.callers.length = depthLimit → m.callsClosure →
    m.step.control = .ended (.failed (.raised ⟨.recursion, "maximum recursion depth exceeded"⟩))

theorem Stacked.length_le (hm : m.Stacked) :
    m.callers.length ≤ depthLimit * m.overtakings + m.context.depth := by
  obtain hnil | hne := eq_or_ne m.callers []
  · rw [hnil]
    exact Nat.zero_le _
  · have hactive := hm.active
    rw [active_of_callers hne] at hactive
    rw [← length_active, overtakings, active_of_callers hne]
    exact Context.length_le hactive

-- Only a call and an await open a body.
theorem step_of_opens (h : m.callers.length < m.step.callers.length) :
    m.step.callers = m.context :: m.callers
      ∧ (m.step.context.depth = m.context.depth + 1
        ∨ ∃ id body, (m.world.heap.coroutine id).work = .body m.step.context body) := by
  cases hhalted : m.isHalted with
  | true =>
    rw [step_of_isHalted hhalted] at h
    exact absurd h (Nat.lt_irrefl _)
  | false =>
    have hsame (hcallers : m.step.callers = m.callers) : False := by
      rw [hcallers] at h
      exact Nat.lt_irrefl _ h
    cases moves_step hhalted
    case inside hinside => exact (hsame hinside.callers_eq).elim
    case aborts hcontext hcallers hworld hcontrol _ =>
      exact absurd h (Nat.not_lt_of_le hcallers.length_le)
    case returns hcallers hworld hcontrol _ =>
      rw [← hcallers, List.length_cons] at h
      exact absurd h (Nat.not_lt_of_le (Nat.le_succ _))
    case enters c args hrun hcallers hcontrol _ =>
      obtain ⟨hinner, -, -⟩ := bindsIn_enter 0 hrun
      exact ⟨hcallers, .inl (by rw [hinner])⟩
    case starts hcallers _ _ => exact (hsame hcallers).elim
    case asks hcallers _ _ => exact (hsame hcallers).elim
    case resumes id body hwork hworld hcallers hcontrol _ => exact ⟨hcallers, .inr ⟨id, body, hwork⟩⟩
    case reuses hcallers _ _ => exact (hsame hcallers).elim

theorem callClosure_at_limit (c : Closure) (args : Arguments) (h : m.context.depth = depthLimit) :
    (m.callClosure c args).control
      = .ended (.failed (.raised ⟨.recursion, "maximum recursion depth exceeded"⟩)) := by
  obtain ⟨control, frames, context, world⟩ := m
  simp only [callClosure, act, run_enter, if_pos (Nat.le_of_eq h.symm)]

theorem Stacked.nested (hm : m.Stacked) : m.Nested where
  length_le := hm.length_le
  depth_le := hm.bounded _ List.mem_cons_self
  opens := step_of_opens
  refuses hovertakings hlength hcall := by
    obtain ⟨c, args, hstep⟩ := step_of_callsClosure hcall
    have hle := hm.length_le
    rw [hovertakings, hlength, Nat.mul_zero, Nat.zero_add] at hle
    have hdepth := Nat.le_antisymm (hm.bounded _ List.mem_cons_self) hle
    rw [hstep]
    exact callClosure_at_limit (m := { m with frames := m.frames.tail }) c args hdepth

end Machine

namespace Session

variable {s : Session} {cells : List String} {f : InFlight} {m : Machine}

-- Wherever a cell can come to, its bodies are nested no deeper than that.
theorem nested_of_reaches (hs : Reached cells s) (hf : s.inFlight = some f)
    (hm : f.machine.Reaches m) : m.Nested :=
  (stacked_invariant.reaches ((stacked_invariant.reached hs).2 f hf) hm).nested

-- Two bodies are active inside one another, and each is one deep.
theorem nested_of_reaches_overtaken :
    ∃ s f m, Reached ["c1"] s ∧ s.inFlight = some f ∧ f.machine.Reaches m
      ∧ m.callers.length = 2 ∧ m.context.depth = 1 ∧ m.overtakings = 1 ∧ m.Nested := by
  let s := (new true).begun reprFormatter "c1"
    "async def f():\n    return 1\nasync def g(c):\n    return await c\nawait g(f())"
  have hs : Reached ["c1"] s := Reached.begun (.new true) (by decide +kernel)
  let hflight : s.inFlight.isSome := by decide +kernel
  let m := (s.inFlight.get hflight).machine.run 20
  have hm : (s.inFlight.get hflight).machine.Reaches m := .run .refl 20
  have hcounts : m.callers.length = 2 ∧ m.context.depth = 1 ∧ m.overtakings = 1 := by
    decide +kernel
  have hf := (Option.some_get hflight).symm
  obtain ⟨hlength, hdepth, hovertakings⟩ := hcounts
  exact ⟨s, s.inFlight.get hflight, m, hs, hf, hm, hlength, hdepth, hovertakings,
    nested_of_reaches hs hf hm⟩

end Session
end NoteCell
