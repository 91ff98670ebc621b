import NoteCell.Proofs.Machine.Cells

/-!
The contexts that bodies run in. Each has a scope of its own and is as deep as the call that made
it, and a step binds names in no scope but that of the context it is taken in.
-/
namespace NoteCell

open NoteCell.Action

/-! ### Scopes of later heaps -/

namespace Heap

variable {scope other : Nat} {h h' h'' : Heap}

-- No scope but one has changed; others may have been added.
structure BindsIn (scope : Nat) (h h' : Heap) : Prop where
  size_le : h.scopes.size ≤ h'.scopes.size
  others (i : Nat) : i < h.scopes.size → i ≠ scope → h'.scopes[i]? = h.scopes[i]?

namespace BindsIn

theorem of_eq (heq : h'.scopes = h.scopes) : BindsIn scope h h' :=
  ⟨Nat.le_of_eq (by rw [heq]), fun i _ _ => by rw [heq]⟩

theorem trans (ha : BindsIn scope h h') (hb : BindsIn scope h' h'') : BindsIn scope h h'' where
  size_le := Nat.le_trans ha.size_le hb.size_le
  others i hi hne := by
    rw [hb.others i (Nat.lt_of_lt_of_le hi ha.size_le) hne, ha.others i hi hne]

-- A new scope is none of the old ones.
theorem of_new (ha : BindsIn other h h') (hother : h.scopes.size ≤ other) : BindsIn scope h h' :=
  ⟨ha.size_le, fun i hi _ => ha.others i hi (Nat.ne_of_lt (Nat.lt_of_lt_of_le hi hother))⟩

end BindsIn

theorem bindsIn_bind (name : String) (v : Value) : BindsIn scope h (h.bind scope name v) := by
  refine ⟨by simp [bind], fun i _ hne => ?_⟩
  rw [bind, Array.getElem?_modify, if_neg (Ne.symm hne)]

theorem bindsIn_foldl (bindings : List (String × Value)) :
    BindsIn scope h (bindings.foldl (fun h p => h.bind scope p.1 p.2) h) := by
  induction bindings generalizing h
  case nil => exact .of_eq rfl
  case cons p bindings ih => exact (bindsIn_bind p.1 p.2).trans ih

theorem bindsIn_push (s : Scope) : BindsIn scope h { h with scopes := h.scopes.push s } := by
  refine ⟨by simp, fun i hi _ => ?_⟩
  rw [Array.getElem?_push, if_neg (Nat.ne_of_lt hi)]

end Heap

namespace Action

variable {α : Type} {a : Action α}

theorem Plain.scopes (ha : Plain a) (w : World) :
    (a.run.run w).2.heap.scopes = w.heap.scopes := by
  have hbind {α β : Type} {a : Action α} {k : α → Action β}
      (ha : ∀ w, (a.run.run w).2.heap.scopes = w.heap.scopes)
      (hk : ∀ x w, ((k x).run.run w).2.heap.scopes = w.heap.scopes) (w : World) :
      ((a >>= k).run.run w).2.heap.scopes = w.heap.scopes := by
    have hw := ha w
    rw [run_bind]
    rcases hrun : a.run.run w with ⟨_ | x, w'⟩
    · rwa [hrun] at hw
    · rw [hrun] at hw
      exact (hk x w').trans hw
  induction ha generalizing w
  case bind ha hk => exact hbind ha hk w
  case getThen k hk hsame ih => exact hbind (a := get) (fun _ => rfl) ih w
  case heapThen k hk hsame ih => exact hbind (a := heap) (fun _ => rfl) ih w
  all_goals rfl

theorem Local.bindsIn {scope : Nat} (ha : a.Local scope) (w : World) :
    w.heap.BindsIn scope (a.run.run w).2.heap := by
  induction ha generalizing w
  case plain ha => exact .of_eq (ha.scopes w)
  case bind a k ha hk iha ihk =>
    have hw := iha w
    rw [run_bind]
    rcases hrun : a.run.run w with ⟨_ | x, w'⟩
    · rwa [hrun] at hw
    · rw [hrun] at hw
      exact hw.trans (ihk x w')
  case bindName name v => exact Heap.bindsIn_bind name v
  case newClosure c hscope => exact .of_eq rfl

end Action

/-! ### Steps -/

namespace Machine

variable {m m' : Machine}

-- The scope of a call is new, and its arguments are bound there.
theorem bindsIn_enter (scope : Nat) {caller inner : Context} {f : Closure} {args : Arguments} {world w : World}
    (hrun : (enter caller f args).run.run world = (.ok inner, w)) :
    inner = ⟨world.heap.scopes.size, caller.depth + 1, caller.cell⟩ ∧ caller.depth < depthLimit
      ∧ world.heap.BindsIn scope w.heap := by
  rw [run_enter] at hrun
  split at hrun
  · cases hrun
  · split at hrun
    · cases hrun
    · rename_i bindings _
      obtain ⟨hinner, rfl⟩ := Prod.mk.inj hrun
      refine ⟨(Except.ok.inj hinner).symm, Nat.lt_of_not_le ‹_›, ?_⟩
      have hpush : world.heap.BindsIn world.heap.scopes.size _ :=
        Heap.bindsIn_push ⟨[], some f.scope⟩
      exact (hpush.trans (Heap.bindsIn_foldl bindings)).of_new (Nat.le_refl _)

theorem bindsIn_move (h : m.Moves m') :
    m.world.heap.BindsIn m.context.scope m'.world.heap := by
  cases h
  case inside h =>
    obtain ⟨-, -, ⟨α, a, ha, hworld⟩, -⟩ := h
    exact hworld ▸ ha.bindsIn m.world
  case aborts hworld _ _ => exact .of_eq (by rw [hworld])
  case returns hworld _ _ => exact .of_eq (by rw [hworld])
  case enters f args hrun hcallers hcontrol _ => exact (bindsIn_enter _ hrun).2.2
  case starts f args inner w hrun hworld hcontext hcallers hcontrol _ =>
    exact (bindsIn_enter _ hrun).2.2.trans (.of_eq (by rw [hworld]; rfl))
  case asks hworld _ _ _ _ => exact .of_eq (by rw [hworld]; rfl)
  case resumes hworld _ _ _ => exact .of_eq (by rw [hworld]; rfl)
  case reuses hworld _ _ _ _ => exact .of_eq (by rw [hworld]; rfl)

end Machine

/-! ### Contexts of bodies -/

-- A context that a call has made.
structure Context.OfBody (c : Context) : Prop where
  scope : c.scope ≠ Heap.globals
  positive : 0 < c.depth
  bounded : c.depth ≤ Machine.depthLimit

-- The bodies that wait in coroutines run in contexts that calls have made.
structure Heap.Enclosed (h : Heap) : Prop where
  scopes : 0 < h.scopes.size
  coroutines (id : Nat) (context : Context) (stmts : List Stmt) :
    (h.coroutine id).work = .body context stmts → context.OfBody

theorem Heap.enclosed_empty : Heap.empty.Enclosed := by
  refine ⟨Nat.one_pos, fun id context stmts hid => ?_⟩
  simp [empty, coroutine] at hid

theorem Heap.Enclosed.advance {P : Context → Prop} {scope : Nat} {h h' : Heap} (hh : h.Enclosed)
    (hbinds : h.BindsIn scope h') (ha : h.Advances P h')
    (hP : ∀ context, P context → context.OfBody) : h'.Enclosed := by
  refine ⟨Nat.lt_of_lt_of_le hh.scopes hbinds.size_le, fun id context stmts hid => ?_⟩
  obtain hid | hcontext := ha.bodies id context stmts hid
  · exact hh.coroutines id context stmts hid
  · exact hP context hcontext

namespace Machine

variable {m m' : Machine}

-- The contexts of the bodies that are active, the innermost first.
def active (m : Machine) : List Context := (m.context :: m.callers).dropLast

theorem length_active : m.active.length = m.callers.length := by
  rw [active, List.length_dropLast, List.length_cons, Nat.add_sub_cancel]

theorem active_of_callers (h : m.callers ≠ []) :
    m.active = m.context :: m.callers.dropLast := by
  rw [active, List.dropLast_cons_of_ne_nil h]

-- Where bodies are left for an outer caller, those that remain were active before.
theorem active_of_suffix {callers : List Context} (h : callers <:+ m.callers) :
    (m.context :: callers).dropLast ⊆ m.active := by
  obtain rfl | hne := eq_or_ne callers []
  · exact List.nil_subset _
  · obtain ⟨left, hleft⟩ := h
    rw [active, ← hleft, List.dropLast_cons_of_ne_nil hne, ← List.cons_append,
      List.dropLast_append_of_ne_nil hne]
    refine List.cons_subset.mpr ⟨List.mem_cons_self, ?_⟩
    exact List.subset_append_right _ _

structure Stacked (m : Machine) : Prop where
  heap : m.world.heap.Enclosed
  active : ∀ context ∈ m.active, context.OfBody
  bounded : ∀ context ∈ m.context :: m.callers, context.depth ≤ depthLimit

theorem stacked_start (body : List Stmt) (c : String) {w : World} (hw : w.heap.Enclosed) :
    (start body c w).Stacked := by
  refine ⟨hw, nofun, fun context hcontext => ?_⟩
  rw [List.mem_singleton.mp hcontext]
  exact Nat.zero_le _

-- Nothing but a body is left.
theorem Stacked.keep (hm : m.Stacked) (hheap : m'.world.heap.Enclosed)
    (hactive : m'.active ⊆ m.active)
    (hcontexts : m'.context :: m'.callers ⊆ m.context :: m.callers) : m'.Stacked :=
  ⟨hheap, fun context hcontext => hm.active context (hactive hcontext),
    fun context hcontext => hm.bounded context (hcontexts hcontext)⟩

theorem Stacked.still (hm : m.Stacked) (hheap : m'.world.heap.Enclosed)
    (hcontext : m'.context = m.context) (hcallers : m'.callers = m.callers) : m'.Stacked := by
  refine hm.keep hheap ?_ ?_
  · rw [Machine.active, Machine.active, hcontext, hcallers]
    exact List.Subset.refl _
  · rw [hcontext, hcallers]
    exact List.Subset.refl _

theorem Stacked.opens (hm : m.Stacked) (hheap : m'.world.heap.Enclosed)
    (hbody : m'.context.OfBody) (hcallers : m'.callers = m.context :: m.callers) : m'.Stacked := by
  refine ⟨hheap, ?_, ?_⟩
  · rw [active_of_callers (by rw [hcallers]; exact List.cons_ne_nil _ _), hcallers]
    exact List.forall_mem_cons.mpr ⟨hbody, hm.active⟩
  · rw [hcallers]
    exact List.forall_mem_cons.mpr ⟨hbody.bounded, hm.bounded⟩

/-! ### Runs -/

theorem Stacked.move (hm : m.Stacked) (h : m.Moves m') : m'.Stacked := by
  have hbinds := bindsIn_move h
  have hspent (id : Nat) (hworld : m'.world = ((takeWork id).run.run m.world).2) :
      m'.world.heap.Enclosed := by
    refine hm.heap.advance (P := fun _ => False) hbinds ?_ nofun
    rw [hworld]
    exact m.world.heap.advances_spend id
  cases h
  case inside h =>
    obtain ⟨hcontext, hcallers, ⟨α, a, ha, hworld⟩, -⟩ := h
    exact hm.still (hm.heap.advance hbinds (hworld ▸ ha.bodiless m.world) nofun) hcontext hcallers
  case aborts hcontext hcallers hworld hcontrol _ =>
    refine hm.keep (hworld ▸ hm.heap) ?_ ?_
    · rw [Machine.active, hcontext]
      exact active_of_suffix hcallers
    · rw [hcontext]
      exact List.cons_subset_cons _ hcallers.subset
  case returns hcallers hworld hcontrol _ =>
    refine hm.keep (hworld ▸ hm.heap) ?_ ?_
    · rw [Machine.active, hcallers, active_of_callers (by rw [← hcallers]; exact List.cons_ne_nil _ _)]
      exact List.subset_cons_self _ _
    · rw [hcallers]
      exact List.subset_cons_self _ _
  case enters f args hrun hcallers hcontrol _ =>
    obtain ⟨hinner, hdepth, -⟩ := bindsIn_enter 0 hrun
    have ha : m.world.heap.Advances (fun _ => False) m'.world.heap := .of_eq (enter_ok hrun).2
    refine hm.opens (hm.heap.advance hbinds ha nofun) ?_ hcallers
    rw [hinner]
    exact ⟨Nat.ne_of_gt hm.heap.scopes, Nat.succ_pos _, hdepth⟩
  case starts f args inner w hrun hworld hcontext hcallers hcontrol _ =>
    obtain ⟨hinner, hdepth, -⟩ := bindsIn_enter 0 hrun
    have ha : m.world.heap.Advances (· = inner) m'.world.heap := by
      refine Heap.Advances.trans (.of_eq (enter_ok hrun).2) ?_
      rw [hworld]
      exact (w.heap.advances_push _).mono fun context ⟨_, heq⟩ => (Work.body.inj heq).1.symm
    refine hm.still (hm.heap.advance hbinds ha ?_) hcontext hcallers
    rintro context rfl
    rw [hinner]
    exact ⟨Nat.ne_of_gt hm.heap.scopes, Nat.succ_pos _, hdepth⟩
  case asks id prompt hwork hworld hcontext hcallers hcontrol _ =>
    exact hm.still (hspent id hworld) hcontext hcallers
  case resumes id body hwork hworld hcallers hcontrol _ =>
    exact hm.opens (hspent id hworld) (hm.heap.coroutines id _ body hwork) hcallers
  case reuses id hwork hworld hcontext hcallers hcontrol _ =>
    exact hm.still (hspent id hworld) hcontext hcallers

theorem Stacked.step (hm : m.Stacked) : m.step.Stacked := by
  cases h : m.isHalted with
  | false => exact hm.move (moves_step h)
  | true => rwa [step_of_isHalted h]

theorem Stacked.answer (hm : m.Stacked) (text : String) : (m.answer text).Stacked :=
  hm.still hm.heap rfl rfl

/-! ### Steps that may open a body -/

-- The operation that the next step performs, with its values.
def operation? (m : Machine) : Option (Operation × List Value) :=
  match m.control, m.frames with
  | .give v, .operands done [] op :: _ => some (op, (v :: done).reverse)
  | _, _ => none

-- Whether the next step calls a function that a program has defined.
def callsClosure (m : Machine) : Bool :=
  match m.operation? with
  | some (.call .., .closure _ :: _) => true
  | _ => false

def awaitsCoroutine (m : Machine) : Bool :=
  match m.operation? with
  | some (.await, [.coroutine _]) => true
  | _ => false

theorem step_of_operation? {op : Operation} {values : List Value}
    (h : m.operation? = some (op, values)) :
    m.step = { m with frames := m.frames.tail }.perform values op := by
  obtain ⟨control, frames, context, world⟩ := m
  simp only [operation?] at h
  split at h
  · cases h
    rfl
  · cases h

theorem step_of_callsClosure (h : m.callsClosure) :
    ∃ c args, m.step = { m with frames := m.frames.tail }.callClosure c args := by
  rw [callsClosure] at h
  split at h
  · rw [step_of_operation? ‹_›]
    exact ⟨_, _, rfl⟩
  · cases h

theorem step_of_awaitsCoroutine (h : m.awaitsCoroutine) :
    ∃ id, m.step = { m with frames := m.frames.tail }.await (.coroutine id) := by
  rw [awaitsCoroutine] at h
  split at h
  · rw [step_of_operation? ‹_›]
    exact ⟨_, rfl⟩
  · cases h

end Machine
end NoteCell
