import NoteCell.Proofs.Machine.Moves

/-!
The cells that contexts name. A cell runs in contexts that name it, but for the bodies of coroutines
that an earlier cell has left: they run in contexts of the cell whose call made them.
-/
namespace NoteCell

open NoteCell.Action

-- The cell whose call made a coroutine that has a body to run.
def Work.cell? : Work → Option String
  | .body context _ => some context.cell
  | _ => none

theorem Work.cell?_eq_some {work : Work} {cell : String} :
    work.cell? = some cell ↔ ∃ context stmts, work = .body context stmts ∧ context.cell = cell := by
  cases work <;> simp [cell?]

/-! ### Coroutines of later heaps -/

namespace Heap

variable {P Q : Context → Prop} {h h' h'' : Heap}

-- Coroutines stay spent, and the bodies to run that come in are in contexts as described.
structure Advances (P : Context → Prop) (h h' : Heap) : Prop where
  size_le : h.coroutines.size ≤ h'.coroutines.size
  spent : ∀ id < h.coroutines.size, (h.coroutine id).work = .spent → (h'.coroutine id).work = .spent
  bodies (id : Nat) (context : Context) (stmts : List Stmt) :
    (h'.coroutine id).work = .body context stmts →
      (h.coroutine id).work = .body context stmts ∨ P context

namespace Advances

theorem of_eq (heq : h'.coroutines = h.coroutines) : Advances P h h' := by
  have hcoroutine : h'.coroutine = h.coroutine := by
    funext id
    rw [coroutine, coroutine, heq]
  refine ⟨Nat.le_of_eq (by rw [heq]), fun id _ hid => ?_, fun id context stmts hid => .inl ?_⟩
  · rwa [hcoroutine]
  · rwa [hcoroutine] at hid

theorem trans (ha : Advances P h h') (hb : Advances P h' h'') : Advances P h h'' where
  size_le := Nat.le_trans ha.size_le hb.size_le
  spent id hid hspent := hb.spent id (Nat.lt_of_lt_of_le hid ha.size_le) (ha.spent id hid hspent)
  bodies id context stmts hid := by
    obtain hid | hcontext := hb.bodies id context stmts hid
    · exact ha.bodies id context stmts hid
    · exact .inr hcontext

theorem mono (ha : Advances P h h') (hPQ : ∀ context, P context → Q context) : Advances Q h h' :=
  ⟨ha.size_le, ha.spent, fun id context stmts hid =>
    (ha.bodies id context stmts hid).imp_right (hPQ context)⟩

end Advances

theorem coroutine_push (c : Coroutine) (id : Nat) :
    { h with coroutines := h.coroutines.push c }.coroutine id
      = if id = h.coroutines.size then c else h.coroutine id := by
  simp only [coroutine, Array.getD_eq_getD_getElem?, Array.getElem?_push]
  split <;> rfl

theorem work_spend (taken id : Nat) :
    ({ h with coroutines := h.coroutines.modify taken fun c => { c with work := .spent } }.coroutine
      id).work = if id = taken then .spent else (h.coroutine id).work := by
  simp only [coroutine, Array.getD_eq_getD_getElem?, Array.getElem?_modify]
  by_cases hid : taken = id
  case pos =>
    subst hid
    cases h.coroutines[taken]? <;> simp
  case neg => simp [hid, Ne.symm hid]

theorem advances_push (c : Coroutine) :
    h.Advances (fun context => ∃ stmts, c.work = .body context stmts)
      { h with coroutines := h.coroutines.push c } := by
  refine ⟨by simp, fun id hid hspent => ?_, fun id context stmts hid => ?_⟩
  · rwa [coroutine_push, if_neg (Nat.ne_of_lt hid)]
  · rw [coroutine_push] at hid
    split at hid
    · exact .inr ⟨stmts, hid⟩
    · exact .inl hid

theorem advances_spend (taken : Nat) : h.Advances P
    { h with coroutines := h.coroutines.modify taken fun c => { c with work := .spent } } := by
  refine ⟨by simp, fun id hid hspent => ?_, fun id context stmts hid => .inl ?_⟩
  · rw [work_spend]
    split
    · rfl
    · exact hspent
  · rw [work_spend] at hid
    split at hid
    · cases hid
    · exact hid

end Heap

/-! ### Actions -/

namespace Action

variable {α : Type} {a : Action α}

-- An action that brings in no body to run.
def Bodiless (a : Action α) : Prop :=
  ∀ w : World, w.heap.Advances (fun _ => False) (a.run.run w).2.heap

theorem Bodiless.bind {β : Type} {k : α → Action β} (ha : a.Bodiless) (hk : ∀ x, (k x).Bodiless) :
    (a >>= k).Bodiless := by
  intro w
  have hw := ha w
  rw [run_bind]
  rcases hrun : a.run.run w with ⟨_ | x, w'⟩
  · rwa [hrun] at hw
  · rw [hrun] at hw
    exact hw.trans (hk x w')

theorem Plain.bodiless (ha : Plain a) : a.Bodiless := by
  induction ha
  case bind ha hk => exact ha.bind hk
  case getThen k hk hsame ih => exact Bodiless.bind (a := get) (fun w => .of_eq rfl) ih
  case heapThen k hk hsame ih => exact Bodiless.bind (a := heap) (fun w => .of_eq rfl) ih
  case newInput name prompt => exact fun w => (w.heap.advances_push _).mono nofun
  all_goals exact fun w => .of_eq rfl

theorem Local.bodiless {scope : Nat} (ha : a.Local scope) : a.Bodiless := by
  induction ha
  case plain ha => exact ha.bodiless
  case bind ha hk => exact ha.bind hk
  all_goals exact fun w => .of_eq rfl

end Action

/-! ### Machines -/

namespace Heap

variable {c cell : String} {h₀ h h' : Heap}

-- A coroutine that a cell had left in a heap has been awaited since.
def Awaited (h₀ h : Heap) (cell : String) : Prop :=
  ∃ id, (h₀.coroutine id).work.cell? = some cell ∧ (h.coroutine id).work = .spent

-- The cells that contexts may name while a cell runs that has started with a heap.
def Names (c : String) (h₀ h : Heap) (cell : String) : Prop := cell = c ∨ h₀.Awaited h cell

-- A heap while the cell runs.
structure Since (c : String) (h₀ h : Heap) : Prop where
  size_le : h₀.coroutines.size ≤ h.coroutines.size
  bodies (id : Nat) (cell : String) : (h.coroutine id).work.cell? = some cell →
    (h₀.coroutine id).work.cell? = some cell ∨ Names c h₀ h cell

theorem lt_of_cell? {id : Nat} (hid : (h.coroutine id).work.cell? = some cell) :
    id < h.coroutines.size := by
  by_contra hnot
  have hspent : (h.coroutine id).work = .spent := by
    rw [coroutine, Array.getD_eq_getD_getElem?, Array.getElem?_eq_none (Nat.le_of_not_lt hnot)]
    rfl
  rw [hspent] at hid
  cases hid

theorem Names.advance {P : Context → Prop} (hcell : Names c h₀ h cell)
    (hsize : h₀.coroutines.size ≤ h.coroutines.size) (ha : h.Advances P h') :
    Names c h₀ h' cell := by
  obtain hcell | ⟨id, hid, hspent⟩ := hcell
  · exact .inl hcell
  · exact .inr ⟨id, hid, ha.spent id (Nat.lt_of_lt_of_le (lt_of_cell? hid) hsize) hspent⟩

theorem Since.advance {P : Context → Prop} (hs : Since c h₀ h) (ha : h.Advances P h')
    (hP : ∀ context, P context → Names c h₀ h context.cell) : Since c h₀ h' := by
  refine ⟨Nat.le_trans hs.size_le ha.size_le, fun id cell hid => ?_⟩
  obtain ⟨context, stmts, hbody, rfl⟩ := Work.cell?_eq_some.mp hid
  obtain hid | hcontext := ha.bodies id context stmts hbody
  · have hcell := hs.bodies id _ (Work.cell?_eq_some.mpr ⟨context, stmts, hid, rfl⟩)
    exact hcell.imp_right fun hcell => hcell.advance hs.size_le ha
  · exact .inr ((hP context hcontext).advance hs.size_le ha)

end Heap

namespace Machine

variable {c : String} {h₀ : Heap} {m m' : Machine}

-- A machine that runs for a cell which has started with a heap.
structure RunsFor (c : String) (h₀ : Heap) (m : Machine) : Prop where
  heap : Heap.Since c h₀ m.world.heap
  context : Heap.Names c h₀ m.world.heap m.context.cell
  callers : ∀ caller ∈ m.callers, Heap.Names c h₀ m.world.heap caller.cell
  waiting (cell prompt : String) : m.control = .waiting cell prompt → cell = m.context.cell

theorem waiting_of_not_waiting (h : m.isWaiting = false) (cell prompt : String) :
    m.control = .waiting cell prompt → cell = m.context.cell := by
  intro hcontrol
  simp [isWaiting, hcontrol] at h

theorem waiting_of_ended {f : Failure} (h : m.control = .ended (.failed f))
    (cell prompt : String) : m.control = .waiting cell prompt → cell = m.context.cell := by
  intro hcontrol
  rw [hcontrol] at h
  cases h

theorem coroutines_foldl_bind (bindings : List (String × Value)) (scope : Nat) (h : Heap) :
    (bindings.foldl (fun h p => h.bind scope p.1 p.2) h).coroutines = h.coroutines := by
  induction bindings generalizing h
  case nil => rfl
  case cons p bindings ih => exact ih (h.bind scope p.1 p.2)

-- A call is entered for the cell of its caller.
theorem enter_ok {caller inner : Context} {f : Closure} {args : Arguments} {world w : World}
    (h : (enter caller f args).run.run world = (.ok inner, w)) :
    inner.cell = caller.cell ∧ w.heap.coroutines = world.heap.coroutines := by
  rw [run_enter] at h
  split at h
  · cases h
  · split at h
    · cases h
    · obtain ⟨hinner, hworld⟩ := Prod.mk.inj h
      rw [← Except.ok.inj hinner, ← hworld]
      exact ⟨rfl, coroutines_foldl_bind _ _ _⟩

theorem RunsFor.names {P : Context → Prop} {h : Heap} (hm : m.RunsFor c h₀)
    (ha : m.world.heap.Advances P h) : Heap.Names c h₀ h m.context.cell :=
  hm.context.advance hm.heap.size_le ha

-- A machine whose contexts are new only where they are known to name such a cell.
theorem RunsFor.advance {P : Context → Prop} (hm : m.RunsFor c h₀)
    (ha : m.world.heap.Advances P m'.world.heap)
    (hP : ∀ context, P context → Heap.Names c h₀ m.world.heap context.cell)
    (hcontext : Heap.Names c h₀ m'.world.heap m'.context.cell)
    (hcallers : m'.callers ⊆ m.context :: m.callers)
    (hwaiting : ∀ cell prompt, m'.control = .waiting cell prompt → cell = m'.context.cell) :
    m'.RunsFor c h₀ := by
  refine ⟨hm.heap.advance ha hP, hcontext, fun caller hcaller => ?_, hwaiting⟩
  cases hcallers hcaller
  case head => exact hm.names ha
  case tail hcaller => exact (hm.callers caller hcaller).advance hm.heap.size_le ha

theorem RunsFor.move (hm : m.RunsFor c h₀) (h : m.Moves m') : m'.RunsFor c h₀ := by
  have hspend (id : Nat) (hworld : m'.world = ((takeWork id).run.run m.world).2) :
      m.world.heap.Advances (fun _ => False) m'.world.heap :=
    hworld ▸ m.world.heap.advances_spend id
  have hnone (context : Context) : False → Heap.Names c h₀ m.world.heap context.cell := False.elim
  cases h
  case inside h =>
    obtain ⟨hcontext, hcallers, ⟨α, a, ha, hworld⟩, hcontrol⟩ := h
    have ha : m.world.heap.Advances (fun _ => False) m'.world.heap := hworld ▸ ha.bodiless m.world
    refine hm.advance ha hnone (hcontext ▸ hm.names ha) ?_ (waiting_of_not_waiting hcontrol)
    rw [hcallers]
    exact List.subset_cons_self _ _
  case aborts hcontext hcallers hworld hcontrol _ =>
    obtain ⟨f, hcontrol⟩ := hcontrol
    have ha : m.world.heap.Advances (fun _ => False) m'.world.heap := .of_eq (by rw [hworld])
    refine hm.advance ha hnone (hcontext ▸ hm.names ha) ?_ (waiting_of_ended hcontrol)
    exact List.subset_cons_of_subset _ hcallers.subset
  case returns hcallers hworld hcontrol _ =>
    obtain ⟨v, hcontrol⟩ := hcontrol
    have ha : m.world.heap.Advances (fun _ => False) m'.world.heap := .of_eq (by rw [hworld])
    have hcaller : m'.context ∈ m.callers := by
      rw [← hcallers]
      exact List.mem_cons_self
    refine hm.advance ha hnone ?_ ?_ fun cell prompt hwaiting => ?_
    · exact (hm.callers _ hcaller).advance hm.heap.size_le ha
    · rw [← hcallers]
      exact List.subset_cons_of_subset _ (List.subset_cons_self _ _)
    · rw [hcontrol] at hwaiting
      cases hwaiting
  case enters f args hrun hcallers hcontrol _ =>
    obtain ⟨hcell, hcoroutines⟩ := enter_ok hrun
    have ha : m.world.heap.Advances (fun _ => False) m'.world.heap := .of_eq hcoroutines
    have hwaiting : m'.isWaiting = false := by rw [isWaiting, hcontrol]
    refine hm.advance ha hnone (hcell ▸ hm.names ha) ?_ (waiting_of_not_waiting hwaiting)
    rw [hcallers]
    exact List.Subset.refl _
  case starts f args inner w hrun hworld hcontext hcallers hcontrol _ =>
    obtain ⟨hcell, hcoroutines⟩ := enter_ok hrun
    have ha : m.world.heap.Advances (· = inner) m'.world.heap := by
      refine Heap.Advances.trans (.of_eq hcoroutines) ?_
      rw [hworld]
      refine (w.heap.advances_push _).mono ?_
      rintro context ⟨_, heq⟩
      exact (Work.body.inj heq).1.symm
    obtain ⟨v, hcontrol⟩ := hcontrol
    have hwaiting : m'.isWaiting = false := by rw [isWaiting, hcontrol]
    refine hm.advance ha ?_ (hcontext ▸ hm.names ha) ?_ (waiting_of_not_waiting hwaiting)
    · rintro context rfl
      exact hcell ▸ hm.context
    · rw [hcallers]
      exact List.subset_cons_self _ _
  case asks id prompt hwork hworld hcontext hcallers hcontrol _ =>
    have ha := hspend id hworld
    refine hm.advance ha hnone (hcontext ▸ hm.names ha) ?_ fun cell prompt hwaiting => ?_
    · rw [hcallers]
      exact List.subset_cons_self _ _
    · rw [hcontrol] at hwaiting
      rw [hcontext]
      exact (Control.waiting.inj hwaiting).1.symm
  case resumes id body hwork hworld hcallers hcontrol _ =>
    have ha := hspend id hworld
    have hcell : (m.world.heap.coroutine id).work.cell? = some m'.context.cell := by
      rw [hwork]
      rfl
    have hwaiting : m'.isWaiting = false := by rw [isWaiting, hcontrol]
    refine hm.advance ha hnone ?_ ?_ (waiting_of_not_waiting hwaiting)
    · -- The body was left by an earlier cell and has just been taken, or its cell is known.
      obtain hleft | hnames := hm.heap.bodies id _ hcell
      · refine .inr ⟨id, hleft, ?_⟩
        rw [hworld]
        exact (Heap.work_spend id id).trans (if_pos rfl)
      · exact hnames.advance hm.heap.size_le ha
    · rw [hcallers]
      exact List.Subset.refl _
  case reuses id hwork hworld hcontext hcallers hcontrol _ =>
    obtain ⟨f, hcontrol⟩ := hcontrol
    have ha := hspend id hworld
    refine hm.advance ha hnone (hcontext ▸ hm.names ha) ?_ (waiting_of_ended hcontrol)
    rw [hcallers]
    exact List.subset_cons_self _ _

theorem RunsFor.step (hm : m.RunsFor c h₀) (h : m.isHalted = false) : m.step.RunsFor c h₀ :=
  hm.move (moves_step h)

theorem RunsFor.run (hm : m.RunsFor c h₀) (fuel : Nat) : (m.run fuel).RunsFor c h₀ := by
  induction fuel generalizing m
  case zero => exact hm
  case succ fuel ih =>
    rw [Machine.run]
    split
    · exact hm
    · exact ih (hm.step (Bool.eq_false_of_not_eq_true ‹_›))

end Machine
end NoteCell
