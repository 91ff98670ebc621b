import NoteCell.Proofs.Blocking.Conversations
import NoteCell.Proofs.Machine.Contexts
import NoteCell.Proofs.Session.Cells

/-!
Invariants of sessions: what holds of the heap between cells and of every machine, because a cell
starts with it and each step and answer keeps it. One is that bodies of functions bind no global
names: from a call or an await on until it has ended, the global scope stays as it is, whatever the
body does and however often it waits for the host.
-/
namespace NoteCell.Session

-- What holds of heaps, and what of the machines that run on them.
structure Invariant (H : Heap → Prop) (M : Machine → Prop) : Prop where
  empty : H .empty
  start {source : String} {body : List Stmt} {h : Heap} (c : String) (hasHost : Bool) :
    runnable source = .ok body → H h → M (.start body c ⟨h, [], hasHost⟩)
  step {m : Machine} : M m → M m.step
  answer {m : Machine} (text : String) : M m → M (m.answer text)
  drained {m : Machine} : M m → M m.drained
  heap {m : Machine} : M m → H m.world.heap

variable {H : Heap → Prop} {M : Machine → Prop} {s : Session} {cells : List String} {c : String}
  {capture : Capture} {m m' : Machine} {formatter : HeapFormatter} {fuel : Nat}

namespace Invariant

theorem reaches (hI : Invariant H M) (hm : M m) (h : m.Reaches m') : M m' := by
  induction h
  case refl => exact hm
  case step ih => exact hI.step ih
  case answer text _ _ ih => exact hI.answer text ih

theorem of_idle (hheap : H s.heap) (hidle : s.inFlight = none) :
    H s.heap ∧ ∀ f ∈ s.inFlight, M f.machine := by
  refine ⟨hheap, fun f hf => ?_⟩
  rw [hidle] at hf
  cases hf

theorem of_running {f : InFlight} (hheap : H s.heap) (hf : s.inFlight = some f)
    (hm : M f.machine) : H s.heap ∧ ∀ f ∈ s.inFlight, M f.machine := by
  refine ⟨hheap, fun g hg => ?_⟩
  rw [hf] at hg
  cases hg
  exact hm

theorem settle (hI : Invariant H M) (hs : H s.heap) (hm : M m) :
    H (s.settle formatter c capture m).2.heap
      ∧ ∀ f ∈ (s.settle formatter c capture m).2.inFlight, M f.machine := by
  rw [Session.settle]
  split
  case h_1 => exact of_idle (hI.heap hm) rfl
  case h_2 =>
    split
    · exact of_running hs rfl hm
    · exact of_idle (hI.heap hm) rfl
  case h_3 => exact of_running hs rfl hm

theorem advance (hI : Invariant H M) (hs : H s.heap) (hm : M m) :
    H (s.advance fuel formatter c capture m).2.heap
      ∧ ∀ f ∈ (s.advance fuel formatter c capture m).2.inFlight, M f.machine :=
  hI.settle (s := (s.drain (m.run fuel)).2.2) hs (hI.drained (hI.reaches hm (.run .refl fuel)))

theorem reached (hI : Invariant H M) (hs : Reached cells s) :
    H s.heap ∧ ∀ f ∈ s.inFlight, M f.machine := by
  induction hs
  case new => exact of_idle hI.empty rfl
  case begin formatter cell source hs hbegin ih =>
    rw [Session.begin?] at hbegin
    split at hbegin
    · cases hbegin
    · dsimp only at hbegin
      split at hbegin
      case h_1 =>
        obtain ⟨-, rfl⟩ := Prod.mk.inj (Option.some.inj hbegin)
        exact of_idle ih.1 rfl
      case h_2 body hbody =>
        obtain ⟨-, rfl⟩ := Prod.mk.inj (Option.some.inj hbegin)
        exact of_running ih.1 rfl (hI.start cell _ hbody ih.1)
  case progress s fuel formatter hs ih =>
    rw [Session.progress]
    cases hf : s.inFlight with
    | none => exact ih
    | some f =>
      have hm := ih.2 f hf
      dsimp only
      cases f.suspension with
      | none => exact hI.advance ih.1 hm
      | some id =>
        dsimp only
        split
        · exact ih
        · exact hI.advance (s := { s with registry := _ }) ih.1 (hI.answer _ hm)
  case deliver ih => exact ih
  case write ih => exact ih
  case hangUp ih => exact ih
  case drop =>
    rw [Session.drop]
    split
    · exact of_idle hI.empty ‹_›
    · exact of_idle hI.empty rfl

end Invariant
end NoteCell.Session

/-! ### Bodies of functions -/

namespace NoteCell

open NoteCell.Action

-- What global names are bound to is read off the global scope.
theorem Heap.binding?_globals_congr {h h' : Heap}
    (hscope : h'.scopes[globals]? = h.scopes[globals]?) (name : String) :
    h'.binding? globals name = h.binding? globals name := by
  rw [binding?, binding?, hscope]
  cases h.scopes[globals]? with
  | none => rfl
  | some s =>
    dsimp only
    split
    · rfl
    · simp [globals]
    · rfl

namespace Machine

-- What a machine comes to from its next step on, as long as there are more callers than now. The
-- host may answer meanwhile, and the effects may be taken out.
inductive During (m : Machine) : Machine → Prop where
  | first : During m m.step
  | step {m' : Machine} (hopen : m.callers.length < m'.callers.length) (h : During m m') :
    During m m'.step
  | answer {m' : Machine} (text : String) (hwait : m'.isWaiting) (h : During m m') :
    During m (m'.answer text)
  | drained {m' : Machine} (h : During m m') : During m m'.drained

variable {m m' : Machine}

theorem During.steps (h : m.During m') (n : Nat)
    (hopen : ∀ i < n, m.callers.length < (Machine.step^[i] m').callers.length) :
    m.During (Machine.step^[n] m') := by
  induction n
  case zero => exact h
  case succ n ih =>
    rw [Function.iterate_succ_apply']
    exact .step (hopen n (Nat.lt_succ_self n)) (ih fun i hi => hopen i (Nat.lt_succ_of_lt hi))

/-! ### Calls and awaits -/

-- A call binds its arguments in a scope that is new.
theorem bindsIn_callClosure (scope : Nat) (c : Closure) (args : Arguments) :
    m.world.heap.BindsIn scope (m.callClosure c args).world.heap := by
  obtain ⟨control, frames, context, world⟩ := m
  rcases hrun : (enter context c args).run.run world with ⟨f | inner, w⟩
  · obtain rfl := enter_error hrun
    have hact : (callClosure ⟨control, frames, context, w⟩ c args).world = w := by
      simp [callClosure, act, hrun]
    exact .of_eq (by rw [hact])
  · have hact : (callClosure ⟨control, frames, context, world⟩ c args).world.heap.scopes
        = w.heap.scopes := by
      simp only [callClosure, act, hrun]
      split <;> rfl
    exact (bindsIn_enter scope hrun).2.2.trans (.of_eq hact)

theorem bindsIn_await (scope : Nat) (v : Value) : m.world.heap.BindsIn scope (m.await v).world.heap := by
  cases v
  case coroutine id =>
    refine .of_eq ?_
    obtain ⟨control, frames, context, world⟩ := m
    simp only [await, act, takeWork, run_make]
    cases (world.heap.coroutine id).work <;> rfl
  all_goals exact .of_eq rfl

theorem bindsIn_step_of_opens (scope : Nat) (h : m.callsClosure ∨ m.awaitsCoroutine) :
    m.world.heap.BindsIn scope m.step.world.heap := by
  obtain h | h := h
  · obtain ⟨c, args, hstep⟩ := step_of_callsClosure h
    rw [hstep]
    exact bindsIn_callClosure scope (m := { m with frames := m.frames.tail }) c args
  · obtain ⟨id, hstep⟩ := step_of_awaitsCoroutine h
    rw [hstep]
    exact bindsIn_await scope (m := { m with frames := m.frames.tail }) (.coroutine id)

/-! ### The global scope -/

-- A step inside a body leaves the global scope alone.
theorem Stacked.globals_step (hm : m.Stacked) (hbody : m.callers ≠ []) :
    m.step.world.heap.scopes[Heap.globals]? = m.world.heap.scopes[Heap.globals]? := by
  cases h : m.isHalted with
  | true => rw [step_of_isHalted h]
  | false =>
    have hcontext : m.context ∈ m.active := by
      rw [active_of_callers hbody]
      exact List.mem_cons_self
    exact (bindsIn_move (moves_step h)).others _ hm.heap.scopes (hm.active _ hcontext).scope.symm

theorem Stacked.globals_during (hm : m.Stacked) (hcall : m.callsClosure ∨ m.awaitsCoroutine)
    (h : m.During m') :
    m'.Stacked
      ∧ m'.world.heap.scopes[Heap.globals]? = m.world.heap.scopes[Heap.globals]? := by
  induction h
  case first =>
    exact ⟨hm.step, (bindsIn_step_of_opens 1 hcall).others _ hm.heap.scopes
      Nat.zero_ne_one⟩
  case step hopen h ih =>
    have hbody := List.ne_nil_of_length_pos (Nat.lt_of_le_of_lt (Nat.zero_le _) hopen)
    exact ⟨ih.1.step, (ih.1.globals_step hbody).trans ih.2⟩
  case answer text hwait h ih => exact ⟨ih.1.answer text, ih.2⟩
  case drained h ih => exact ⟨ih.1.still ih.1.heap rfl rfl, ih.2⟩

end Machine
namespace Session

variable {s : Session} {cells : List String} {f : InFlight} {m m' : Machine}

theorem stacked_invariant : Invariant Heap.Enclosed Machine.Stacked where
  empty := Heap.enclosed_empty
  start c _hasHost _hbody hheap := Machine.stacked_start _ c hheap
  step hm := hm.step
  answer text hm := hm.answer text
  drained hm := hm.still hm.heap rfl rfl
  heap hm := hm.heap

-- A call or an await leaves every global name bound to what it was bound to.
theorem globals_kept_by_bodies (hs : Reached cells s) (hf : s.inFlight = some f)
    (hm : f.machine.Reaches m) (hcall : m.callsClosure ∨ m.awaitsCoroutine) (h : m.During m') :
    m'.world.heap.scopes[Heap.globals]? = m.world.heap.scopes[Heap.globals]?
      ∧ ∀ name, m'.world.heap.binding? Heap.globals name
        = m.world.heap.binding? Heap.globals name := by
  have hstacked := stacked_invariant.reaches ((stacked_invariant.reached hs).2 f hf) hm
  have hscope := (hstacked.globals_during hcall h).2
  exact ⟨hscope, Heap.binding?_globals_congr hscope⟩

-- A coroutine binds a name that is global outside, and waits for the host in between.
theorem globals_kept_by_bodies_awaited :
    ∃ s f m m', Reached ["c1"] s ∧ s.inFlight = some f ∧ f.machine.Reaches m
      ∧ (m.callsClosure ∨ m.awaitsCoroutine) ∧ m.During m' ∧ m'.callers = []
      ∧ m'.world.heap.scopes[Heap.globals]? = m.world.heap.scopes[Heap.globals]?
      ∧ ∀ name, m'.world.heap.binding? Heap.globals name
        = m.world.heap.binding? Heap.globals name := by
  let s := (new true).begun reprFormatter "c1"
    "x = 1\nasync def f():\n    x = await input('p')\n    return x\nawait f()"
  have hs : Reached ["c1"] s := Reached.begun (.new true) (by decide +kernel)
  let hflight : s.inFlight.isSome := by decide +kernel
  let m := (s.inFlight.get hflight).machine.run 13
  let waiting := Machine.step^[9] m.step
  let last := Machine.step^[9] (waiting.drained.answer "y")
  have hm : (s.inFlight.get hflight).machine.Reaches m := .run .refl 13
  have hcall : m.callsClosure ∨ m.awaitsCoroutine := .inr (by decide +kernel)
  have hwaiting : m.During waiting := Machine.During.first.steps 9 (by decide +kernel)
  have hlast : m.During last :=
    (hwaiting.drained.answer "y" (by decide +kernel)).steps 9 (by decide +kernel)
  have hback : last.callers = [] := List.length_eq_zero_iff.mp (by decide +kernel)
  exact ⟨s, s.inFlight.get hflight, m, last, hs, (Option.some_get hflight).symm, hm, hcall, hlast,
    hback, globals_kept_by_bodies hs (Option.some_get hflight).symm hm hcall hlast⟩

end Session
end NoteCell
