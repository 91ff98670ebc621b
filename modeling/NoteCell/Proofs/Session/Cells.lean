import NoteCell.Proofs.Machine.Cells
import NoteCell.Session.Basic

/-!
The cells that suspensions are for. A request names the cell that runs, or an earlier cell which has
left a coroutine for this one to await.
-/
namespace NoteCell

-- Every coroutine that has a body to run is of one of the cells.
def Heap.LeftBy (h : Heap) (cells : List String) : Prop :=
  ∀ id cell, (h.coroutine id).work.cell? = some cell → cell ∈ cells

theorem Heap.Since.leftBy {c : String} {earlier : List String} {h₀ h : Heap}
    (hs : Heap.Since c h₀ h) (h₀left : h₀.LeftBy earlier) : h.LeftBy (c :: earlier) := by
  intro id cell hid
  obtain hleft | rfl | ⟨id, hleft, -⟩ := hs.bodies id cell hid
  · exact List.mem_cons_of_mem c (h₀left id cell hleft)
  · exact List.mem_cons_self
  · exact List.mem_cons_of_mem c (h₀left id cell hleft)

theorem Heap.leftBy_empty (cells : List String) : Heap.empty.LeftBy cells := by
  intro id cell hid
  simp [empty, coroutine, Work.cell?] at hid

def Notice.request? : Notice → Option SuspendEvent
  | .request e => some e
  | _ => none

namespace Machine

theorem runsFor_start (body : List Stmt) (c : String) (h : Heap) (effects : List Effect)
    (hasHost : Bool) : (start body c ⟨h, effects, hasHost⟩).RunsFor c h where
  heap := ⟨Nat.le_refl _, fun _ _ hid => .inl hid⟩
  context := .inl rfl
  callers := by simp [start, callers, Frame.caller?]
  waiting := by simp [start]

end Machine

namespace Session

-- Sessions that can come about, with the cells that were begun on their heap, the latest first.
inductive Reached : List String → Session → Prop where
  | new (hasHost : Bool) : Reached [] (new hasHost)
  | begin {cells : List String} {s s' : Session} {told : List Notice} (formatter : HeapFormatter)
    (cell source : String) (hs : Reached cells s)
    (hbegin : s.begin? formatter cell source = some (told, s')) : Reached (cell :: cells) s'
  | progress {cells : List String} {s : Session} (fuel : Nat) (formatter : HeapFormatter)
    (hs : Reached cells s) : Reached cells (s.progress fuel formatter).2
  | deliver {cells : List String} {s : Session} (id : Nat) (value : String)
    (hs : Reached cells s) : Reached cells (s.deliver id value).2
  | write {cells : List String} {s : Session} (w : Write) (hs : Reached cells s) :
    Reached cells (s.write w)
  | hangUp {cells : List String} {s : Session} (hs : Reached cells s) : Reached cells s.hangUp
  | drop {cells : List String} {s : Session} (hs : Reached cells s) : Reached [] s.drop

-- The cell in flight is the latest, and runs on what the ones before it have left.
structure Kept (cells : List String) (s : Session) : Prop where
  idle : s.inFlight = none → s.heap.LeftBy cells
  running (f : InFlight) : s.inFlight = some f → ∃ earlier, cells = f.cell :: earlier
    ∧ s.heap.LeftBy earlier ∧ f.machine.RunsFor f.cell s.heap

variable {s : Session} {cells earlier : List String} {c : String} {capture : Capture} {m : Machine}
  {formatter : HeapFormatter} {fuel : Nat}

-- Only the heap and the cell in flight matter.
theorem Kept.congr {s' : Session} (hs : Kept cells s) (hheap : s'.heap = s.heap)
    (hinFlight : s'.inFlight = s.inFlight) : Kept cells s' where
  idle := by simpa only [hheap, hinFlight] using hs.idle
  running := by simpa only [hheap, hinFlight] using hs.running

theorem kept_of_idle (hidle : s.inFlight = none) (hleft : s.heap.LeftBy cells) : Kept cells s where
  idle _ := hleft
  running f hf := by
    rw [hidle] at hf
    cases hf

theorem kept_of_running {f : InFlight} (hf : s.inFlight = some f) (hleft : s.heap.LeftBy earlier)
    (hm : f.machine.RunsFor f.cell s.heap) : Kept (f.cell :: earlier) s where
  idle hidle := by
    rw [hf] at hidle
    cases hidle
  running g hg := by
    obtain rfl := Option.some.inj (hf.symm.trans hg)
    exact ⟨earlier, rfl, hleft, hm⟩

/-! ### Steps of a session -/

theorem kept_settle (hleft : s.heap.LeftBy earlier) (hm : m.RunsFor c s.heap) :
    Kept (c :: earlier) (s.settle formatter c capture m).2 := by
  rw [settle]
  split
  case h_1 => exact kept_of_idle rfl (hm.heap.leftBy hleft)
  case h_2 =>
    split
    · exact kept_of_running (f := ⟨c, capture, _, m⟩) rfl hleft hm
    · exact kept_of_idle rfl (hm.heap.leftBy hleft)
  case h_3 => exact kept_of_running (f := ⟨c, capture, none, m⟩) rfl hleft hm

-- A request is for the machine that waits from then on.
theorem request_settle {e : SuspendEvent} (he : .request e ∈ (s.settle formatter c capture m).1) :
    m.control = .waiting e.cell e.prompt ∧ ∃ registry, (s.settle formatter c capture m).2
      = { s with registry, inFlight := some ⟨c, capture, some e.id, m⟩ } := by
  obtain ⟨control, frames, context, world⟩ := m
  cases control
  case ended o => simp [settle, conclude] at he
  case waiting waiter prompt =>
    cases hregister : s.registry.register waiter prompt with
    | mk outcome registry =>
      cases outcome with
      | error f => simp [settle, hregister, conclude] at he
      | ok event =>
        obtain rfl : e = event := by simpa [settle, hregister] using he
        have hevent : e.cell = waiter ∧ e.prompt = prompt := by
          rw [Registry.register] at hregister
          split at hregister
          · obtain ⟨heq, -⟩ := Prod.mk.inj hregister
            rw [← Except.ok.inj heq]
            exact ⟨rfl, rfl⟩
          · cases hregister
        rw [hevent.1, hevent.2]
        exact ⟨rfl, registry, by simp [settle, hregister]⟩
  all_goals simp [settle] at he

theorem kept_advance (hleft : s.heap.LeftBy earlier) (hm : m.RunsFor c s.heap) :
    Kept (c :: earlier) (s.advance fuel formatter c capture m).2 := by
  have hrun := hm.run fuel
  exact kept_settle hleft ⟨hrun.heap, hrun.context, hrun.callers, hrun.waiting⟩

theorem Kept.progress (hs : Kept cells s) : Kept cells (s.progress fuel formatter).2 := by
  rw [Session.progress]
  cases hf : s.inFlight with
  | none => exact hs
  | some f =>
    obtain ⟨earlier, rfl, hleft, hm⟩ := hs.running f hf
    dsimp only
    cases f.suspension with
    | none => exact kept_advance hleft hm
    | some id =>
      dsimp only
      split
      · exact hs
      · exact kept_advance (s := { s with registry := _ }) hleft
          ⟨hm.heap, hm.context, hm.callers, nofun⟩

theorem Kept.begin? {s' : Session} {told : List Notice} {source : String} (hs : Kept cells s)
    (hbegin : s.begin? formatter c source = some (told, s')) : Kept (c :: cells) s' := by
  rw [Session.begin?] at hbegin
  split at hbegin
  · cases hbegin
  · have hidle : s.inFlight = none := by simpa [isBusy] using ‹¬s.isBusy = true›
    have hleft := hs.idle hidle
    dsimp only at hbegin
    split at hbegin
    · obtain ⟨-, rfl⟩ := Prod.mk.inj (Option.some.inj hbegin)
      exact kept_of_idle rfl fun id cell hid => List.mem_cons_of_mem c (hleft id cell hid)
    · obtain ⟨-, rfl⟩ := Prod.mk.inj (Option.some.inj hbegin)
      exact kept_of_running (f := ⟨c, _, none, _⟩) rfl hleft (Machine.runsFor_start _ c _ _ _)

theorem Reached.kept (hs : Reached cells s) : Kept cells s := by
  induction hs
  case new => exact kept_of_idle rfl (Heap.leftBy_empty _)
  case begin hbegin ih => exact ih.begin? hbegin
  case progress ih => exact ih.progress
  case deliver ih => exact ih.congr rfl rfl
  case write ih => exact ih.congr rfl rfl
  case hangUp ih => exact ih.congr rfl rfl
  case drop =>
    rw [Session.drop]
    split
    · exact kept_of_idle ‹_› (Heap.leftBy_empty _)
    · exact kept_of_idle rfl (Heap.leftBy_empty _)

/-! ### Requests -/

theorem request_advance {e : SuspendEvent}
    (he : .request e ∈ (s.advance fuel formatter c capture m).1) :
    ∃ f, (s.advance fuel formatter c capture m).2.inFlight = some f
      ∧ (s.advance fuel formatter c capture m).2.heap = s.heap ∧ f.suspension = some e.id
      ∧ f.machine.control = .waiting e.cell e.prompt := by
  simp only [advance] at he ⊢
  obtain he | he := List.mem_append.mp he
  · obtain ⟨effect, -, heffect⟩ := List.mem_filterMap.mp he
    cases effect <;> cases heffect
  · obtain ⟨hcontrol, registry, hsettle⟩ := request_settle he
    rw [hsettle]
    exact ⟨_, rfl, rfl, rfl, hcontrol⟩

theorem request_progress {e : SuspendEvent} (he : .request e ∈ (s.progress fuel formatter).1) :
    ∃ f, (s.progress fuel formatter).2.inFlight = some f
      ∧ (s.progress fuel formatter).2.heap = s.heap ∧ f.suspension = some e.id
      ∧ f.machine.control = .waiting e.cell e.prompt := by
  rw [progress] at he ⊢
  cases hf : s.inFlight with
  | none => simp [hf] at he
  | some f =>
    simp only [hf] at he ⊢
    cases hsuspension : f.suspension with
    | none =>
      simp only [hsuspension] at he ⊢
      exact request_advance he
    | some id =>
      simp only [hsuspension] at he ⊢
      split at he
      · cases he
      · exact request_advance he

-- A request is for the cell in flight and names it, or an earlier cell: then the one in flight has
-- awaited a coroutine that a call of the earlier one had made.
theorem request_cell {e : SuspendEvent} (hs : Reached cells s)
    (he : .request e ∈ (s.progress fuel formatter).1) :
    ∃ c earlier f, cells = c :: earlier ∧ (s.progress fuel formatter).2.inFlight = some f
      ∧ f.cell = c ∧ f.suspension = some e.id
      ∧ (e.cell = c ∨ e.cell ∈ earlier ∧ s.heap.Awaited f.machine.world.heap e.cell) := by
  obtain ⟨f, hf, hheap, hsuspension, hcontrol⟩ := request_progress he
  obtain ⟨earlier, hcells, hleft, hm⟩ := hs.kept.progress.running f hf
  rw [hheap] at hleft hm
  refine ⟨f.cell, earlier, f, hcells, hf, rfl, hsuspension, ?_⟩
  rw [hm.waiting e.cell e.prompt hcontrol]
  obtain hcell | hawaited := hm.context
  · exact .inl hcell
  · have ⟨id, hid, _⟩ := hawaited
    exact .inr ⟨hleft id _ hid, hawaited⟩

-- A session with a cell taken on, if it can be.
def begun (s : Session) (formatter : HeapFormatter) (cell source : String) : Session :=
  ((s.begin? formatter cell source).map (·.2)).getD s

theorem Reached.begun {source : String} (hs : Reached cells s)
    (h : (s.begin? formatter c source).isSome) :
    Reached (c :: cells) (s.begun formatter c source) := by
  obtain ⟨⟨told, s'⟩, hbegin⟩ := Option.isSome_iff_exists.mp h
  have hbegun : s.begun formatter c source = s' := by
    rw [Session.begun, hbegin]
    rfl
  rw [hbegun]
  exact .begin formatter c source hs hbegin

-- A cell defines a coroutine, and the next one awaits it.
theorem request_cell_carried :
    ∃ s, Reached ["c2", "c1"] s
      ∧ .request ⟨0, "c1", "x"⟩ ∈ (s.progress 100 reprFormatter).1
      ∧ ∃ c earlier f, ["c2", "c1"] = c :: earlier
        ∧ (s.progress 100 reprFormatter).2.inFlight = some f ∧ f.cell = c ∧ f.suspension = some 0
        ∧ ("c1" = c ∨ "c1" ∈ earlier ∧ s.heap.Awaited f.machine.world.heap "c1") := by
  let s₁ := (new true).begun reprFormatter "c1"
    "async def f():\n    return await input('x')\nco = f()"
  let s₂ := (s₁.progress 100 reprFormatter).2
  let s₃ := s₂.begun reprFormatter "c2" "await co"
  have hs₁ : Reached ["c1"] s₁ := Reached.begun (.new true) (by decide +kernel)
  have hs₃ : Reached ["c2", "c1"] s₃ :=
    Reached.begun (hs₁.progress 100 reprFormatter) (by decide +kernel)
  have hrequests : (s₃.progress 100 reprFormatter).1.filterMap Notice.request?
      = [⟨0, "c1", "x"⟩] := by
    decide +kernel
  have he : .request ⟨0, "c1", "x"⟩ ∈ (s₃.progress 100 reprFormatter).1 := by
    have hmem := List.mem_singleton_self (⟨0, "c1", "x"⟩ : SuspendEvent)
    rw [← hrequests] at hmem
    obtain ⟨n, hn, heq⟩ := List.mem_filterMap.mp hmem
    cases n <;> cases heq
    exact hn
  exact ⟨s₃, hs₃, he, request_cell hs₃ he⟩

end Session
end NoteCell
