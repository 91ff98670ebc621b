import NoteCell.Proofs.Machine.Contexts

/-!
Coroutines over a run. A step that awaits a coroutine takes its work, if it has any left, and nothing
else takes work away. The other steps leave the coroutines that are there as they are, and those that
they make have their work before them.
-/
namespace NoteCell

open NoteCell.Action

namespace Work

def isSpent : Work → Bool
  | .spent => true
  | _ => false

def isInput : Work → Bool
  | .input _ => true
  | _ => false

end Work

/-! ### Heaps -/

namespace Heap

variable {h h' h'' : Heap} {id : Nat}

-- The coroutines of a heap are those of the later one, and the others there have work to do.
structure Grows (h h' : Heap) : Prop where
  size_le : h.coroutines.size ≤ h'.coroutines.size
  same : ∀ id < h.coroutines.size, h'.coroutine id = h.coroutine id
  fresh : ∀ id < h'.coroutines.size, h.coroutines.size ≤ id → (h'.coroutine id).work.isSpent = false

namespace Grows

theorem of_eq (heq : h'.coroutines = h.coroutines) : Grows h h' where
  size_le := Nat.le_of_eq (by rw [heq])
  same id _ := by rw [coroutine, coroutine, heq]
  fresh id hid hnew := by
    rw [heq] at hid
    omega

theorem trans (ha : Grows h h') (hb : Grows h' h'') : Grows h h'' where
  size_le := Nat.le_trans ha.size_le hb.size_le
  same id hid := by
    have hlater := Nat.lt_of_lt_of_le hid ha.size_le
    rw [hb.same id hlater, ha.same id hid]
  fresh id hid hnew := by
    by_cases hlater : id < h'.coroutines.size
    · rw [hb.same id hlater]
      exact ha.fresh id hlater hnew
    · exact hb.fresh id hid (Nat.le_of_not_lt hlater)

theorem push (c : Coroutine) (hc : c.work.isSpent = false) :
    Grows h { h with coroutines := h.coroutines.push c } where
  size_le := by simp
  same id hid := by rw [coroutine_push, if_neg (Nat.ne_of_lt hid)]
  fresh id hid hnew := by
    rw [Array.size_push] at hid
    rwa [coroutine_push, if_pos (by omega)]

end Grows

-- A heap in which the work of a coroutine has been taken.
def spend (h : Heap) (id : Nat) : Heap :=
  { h with coroutines := h.coroutines.modify id fun c => { c with work := .spent } }

@[simp] theorem size_spend : (h.spend id).coroutines.size = h.coroutines.size := by simp [spend]

theorem spend_of_spent (hspent : (h.coroutine id).work = .spent) : h.spend id = h := by
  have hcoroutines : h.coroutines.modify id (fun c => { c with work := .spent }) = h.coroutines := by
    ext i
    · simp
    · rename_i hi hi'
      rw [Array.getElem_modify]
      split
      case isTrue heq =>
        subst heq
        rw [coroutine, Array.getD_eq_getD_getElem?, Array.getElem?_eq_getElem hi', Option.getD_some]
          at hspent
        exact congrArg (Coroutine.mk h.coroutines[id].name) hspent.symm
      case isFalse => rfl
  rw [spend, hcoroutines]

theorem work_of_le (hid : h.coroutines.size ≤ id) : (h.coroutine id).work = .spent := by
  rw [coroutine, Array.getD_eq_getD_getElem?, Array.getElem?_eq_none hid]
  rfl

-- The coroutines of the host that have not been awaited.
def openInputs (h : Heap) : List Nat :=
  (List.range h.coroutines.size).filter fun id => (h.coroutine id).work.isInput

theorem openInputs_spend : (h.spend id).openInputs = h.openInputs.filter (· != id) := by
  rw [openInputs, openInputs, List.filter_filter, size_spend]
  refine List.filter_congr fun i _ => ?_
  have hwork : ((h.spend id).coroutine i).work = if i = id then .spent else (h.coroutine i).work :=
    work_spend id i
  rw [hwork]
  by_cases hi : i = id <;> simp [hi, Work.isInput]

theorem nodup_openInputs (h : Heap) : h.openInputs.Nodup := List.nodup_range.filter _

theorem length_openInputs_spend (hid : id < h.coroutines.size)
    (hinput : (h.coroutine id).work.isInput) :
    (h.spend id).openInputs.length + 1 = h.openInputs.length := by
  have hmem : id ∈ h.openInputs := by simp [openInputs, hid, hinput]
  rw [openInputs_spend, ← h.nodup_openInputs.erase_eq_filter, List.length_erase_of_mem hmem]
  have := List.length_pos_of_mem hmem
  omega

theorem length_openInputs_spend_le (h : Heap) (id : Nat) :
    (h.spend id).openInputs.length ≤ h.openInputs.length := by
  rw [openInputs_spend]
  exact List.length_filter_le _ _

-- The coroutines that a later heap has besides.
def newIn (h h' : Heap) : List Nat :=
  List.range' h.coroutines.size (h'.coroutines.size - h.coroutines.size)

theorem Grows.openInputs_eq (hg : Grows h h') : h'.openInputs
    = h.openInputs ++ (h.newIn h').filter fun id => (h'.coroutine id).work.isInput := by
  have hrange : List.range h'.coroutines.size = List.range h.coroutines.size ++ h.newIn h' := by
    have hsplit := @List.range'_append_1 0 h.coroutines.size (h'.coroutines.size - h.coroutines.size)
    rw [Nat.zero_add, Nat.add_sub_cancel' hg.size_le] at hsplit
    rw [List.range_eq_range', List.range_eq_range', newIn, hsplit]
  rw [openInputs, hrange, List.filter_append, openInputs]
  congr 1
  refine List.filter_congr fun id hid => ?_
  rw [hg.same id (List.mem_range.mp hid)]

theorem newIn_spend : h.newIn (h.spend id) = [] := by simp [newIn]

end Heap

/-! ### Steps that await nothing -/

namespace Action

variable {α : Type} {a : Action α}

-- An action that takes no work.
def Sparing (a : Action α) : Prop := ∀ w : World, w.heap.Grows (a.run.run w).2.heap

theorem Sparing.bind {β : Type} {k : α → Action β} (ha : a.Sparing) (hk : ∀ x, (k x).Sparing) :
    (a >>= k).Sparing := by
  intro w
  have hw := ha w
  rw [run_bind]
  rcases hrun : a.run.run w with ⟨_ | x, w'⟩
  · rwa [hrun] at hw
  · rw [hrun] at hw
    exact hw.trans (hk x w')

theorem Plain.sparing (ha : Plain a) : a.Sparing := by
  induction ha
  case bind ha hk => exact ha.bind hk
  case getThen k hk hsame ih => exact Sparing.bind (a := get) (fun _ => .of_eq rfl) ih
  case heapThen k hk hsame ih => exact Sparing.bind (a := heap) (fun _ => .of_eq rfl) ih
  case newInput name prompt => exact fun w => .push _ rfl
  all_goals exact fun w => .of_eq rfl

theorem Local.sparing {scope : Nat} (ha : a.Local scope) : a.Sparing := by
  induction ha
  case plain ha => exact ha.sparing
  case bind ha hk => exact ha.bind hk
  all_goals exact fun w => .of_eq rfl

end Action

namespace Machine

variable {m m' : Machine} {id : Nat}

-- A machine that has taken no work on its way from a world.
structure Spares (world : World) (m : Machine) : Prop where
  grows : world.heap.Grows m.world.heap
  not_waiting : m.isWaiting = false

theorem Spares.still {world : World} (hworld : m.world = world) (hwaiting : m.isWaiting = false) :
    Spares world m :=
  ⟨.of_eq (by rw [hworld]), hwaiting⟩

theorem Inside.spares {context : Context} {callers : List Context} {cells : Nat} {world : World}
    (h : Inside context callers cells world m) : Spares world m := by
  obtain ⟨-, -, ⟨α, a, ha, hworld⟩, hwaiting, -⟩ := h
  exact ⟨hworld ▸ ha.sparing world, hwaiting⟩

theorem spares_callClosure (c : Closure) (args : Arguments) :
    Spares m.world (m.callClosure c args) := by
  obtain ⟨control, frames, context, world⟩ := m
  rcases hrun : (enter context c args).run.run world with ⟨f | inner, w⟩
  · obtain rfl := enter_error hrun
    have hact : callClosure ⟨control, frames, context, w⟩ c args
        = ⟨.ended (.failed f), frames, context, w⟩ := by
      simp [callClosure, act, hrun]
    rw [hact]
    exact .still rfl rfl
  · obtain ⟨-, hcoroutines⟩ := enter_ok hrun
    have hact : callClosure ⟨control, frames, context, world⟩ c args
        = if c.isAsync then
            giveBy ⟨control, frames, context, w⟩ (newCoroutine ⟨c.name, .body inner c.body⟩)
          else runBody ⟨control, frames, context, w⟩ inner c.body := by
      simp [callClosure, act, hrun]
    rw [hact]
    split
    · exact ⟨(Heap.Grows.of_eq hcoroutines).trans (.push _ rfl), rfl⟩
    · exact ⟨.of_eq hcoroutines, rfl⟩

theorem spares_callValue (callee : Value) (args : Arguments) :
    Spares m.world (m.callValue callee args) := by
  cases callee
  case builtin b => exact (staysInside_giveBy (Builtins.plain_call b args)).spares
  case method id => exact (staysInside_giveBy (Methods.plain_call _ args)).spares
  case closure id => exact spares_callClosure _ args
  all_goals exact .still rfl rfl

theorem spares_perform {values : List Value} {op : Operation}
    (hawait : op = .await → ∀ id, values ≠ [.coroutine id]) :
    Spares m.world (m.perform values op) := by
  rw [perform.eq_def]
  split
  case h_1 => exact (staysInside_giveBy (.newList _)).spares
  case h_2 => exact (staysInside_giveBy (.newTuple _)).spares
  case h_3 callee args => exact spares_callValue callee _
  case h_4 name params body isAsync => exact (staysInside_define name params body isAsync _).spares
  case h_5 v _ _ _ _ =>
    by_cases hop : op = .await
    case pos =>
      subst hop
      have hv := hawait rfl
      cases v
      case coroutine id => exact absurd rfl (hv id)
      all_goals exact .still rfl rfl
    case neg => exact (staysInside_performOne v hop).spares
  case h_6 v w _ _ _ _ => exact (staysInside_performTwo v w _).spares
  case h_7 => exact .still rfl rfl

theorem spares_flowTo (flow : Flow) (frame : Frame) : Spares m.world (m.flowTo flow frame) := by
  cases frame
  case block rest => cases rest <;> cases flow <;> exact .still rfl rfl
  case forBody it target body =>
    cases flow
    case normal | continueLoop => exact (staysInside_nextItem (m := m) it target body).spares
    all_goals exact .still rfl rfl
  case cell rest =>
    cases flow
    case normal => exact (inside_nextStmt (m := m) rest).spares
    all_goals exact .still rfl rfl
  all_goals cases flow <;> exact .still rfl rfl

/-! ### Awaits -/

-- The coroutine that the next step awaits.
def awaited? (m : Machine) : Option Nat :=
  match m.operation? with
  | some (.await, [.coroutine id]) => if id < m.world.heap.coroutines.size then some id else none
  | _ => none

-- The work of a coroutine has been taken before.
def refusal (m : Machine) : Machine :=
  ⟨.ended (.failed (.raised ⟨.runtimeError, "cannot reuse already awaited coroutine"⟩)),
    m.frames.tail, m.context, m.world⟩

-- What comes of awaiting a coroutine.
inductive Awaits (m : Machine) (id : Nat) : Machine → Prop where
  | asks (prompt : String) (hwork : (m.world.heap.coroutine id).work = .input prompt) :
    Awaits m id ⟨.waiting m.context.cell prompt, m.frames.tail, m.context,
      { m.world with heap := m.world.heap.spend id }⟩
  | runs (context : Context) (body : List Stmt)
    (hwork : (m.world.heap.coroutine id).work = .body context body) :
    Awaits m id (runBody ⟨m.control, m.frames.tail, m.context,
      { m.world with heap := m.world.heap.spend id }⟩ context body)
  | refuses (hwork : (m.world.heap.coroutine id).work = .spent) : Awaits m id m.refusal

theorem Awaits.eq_refusal (h : m.Awaits id m') (hspent : (m.world.heap.coroutine id).work = .spent) :
    m' = m.refusal := by
  cases h
  case asks hwork => cases hspent.symm.trans hwork
  case runs hwork => cases hspent.symm.trans hwork
  case refuses => rfl

theorem Awaits.heap_eq (h : m.Awaits id m') : m'.world.heap = m.world.heap.spend id := by
  cases h
  case asks | runs => rfl
  case refuses hwork => exact (Heap.spend_of_spent hwork).symm

-- The host is asked for the coroutines that are its own.
theorem Awaits.isWaiting_eq (h : m.Awaits id m') :
    m'.isWaiting = (m.world.heap.coroutine id).work.isInput := by
  cases h
  all_goals
    rename_i hwork
    rw [hwork]
    rfl

theorem awaits_await (id : Nat) :
    m.Awaits id (await { m with frames := m.frames.tail } (.coroutine id)) := by
  obtain ⟨control, frames, context, world⟩ := m
  cases hwork : (world.heap.coroutine id).work with
  | input prompt =>
    have hact : await ⟨control, frames.tail, context, world⟩ (.coroutine id)
        = ⟨.waiting context.cell prompt, frames.tail, context,
          { world with heap := world.heap.spend id }⟩ := by
      simp [await, act, takeWork, run_make, hwork, Heap.spend]
    rw [hact]
    exact .asks prompt hwork
  | body inner body =>
    have hact : await ⟨control, frames.tail, context, world⟩ (.coroutine id)
        = runBody ⟨control, frames.tail, context, { world with heap := world.heap.spend id }⟩
          inner body := by
      simp [await, act, takeWork, run_make, hwork, Heap.spend]
    rw [hact]
    exact .runs inner body hwork
  | spent =>
    have hact : await ⟨control, frames.tail, context, world⟩ (.coroutine id)
        = refusal ⟨control, frames, context, { world with heap := world.heap.spend id }⟩ := by
      simp [await, act, takeWork, run_make, hwork, Heap.spend, refusal, raise, fail]
    rw [hact, Heap.spend_of_spent hwork]
    exact .refuses hwork

theorem awaited?_eq_some (h : m.awaited? = some id) :
    id < m.world.heap.coroutines.size ∧ m.Awaits id m.step := by
  rw [awaited?] at h
  split at h
  case h_1 id' hoperation =>
    obtain ⟨hid, heq⟩ := Option.ite_none_right_eq_some.mp h
    obtain rfl := Option.some.inj heq
    rw [step_of_operation? hoperation]
    exact ⟨hid, awaits_await id'⟩
  case h_2 => cases h

theorem spares_giveTo (v : Value) (frame : Frame)
    (hawait : ∀ id, { m with control := .give v, frames := frame :: m.frames }.operation?
      ≠ some (.await, [.coroutine id])) : Spares m.world (m.giveTo v frame) := by
  cases frame
  case operands done rest op =>
    cases rest with
    | nil =>
      refine spares_perform fun hop id hvalues => hawait id ?_
      rw [← hop, ← hvalues]
      rfl
    | cons => exact .still rfl rfl
  case cell rest =>
    cases rest with
    | nil => exact .still rfl rfl
    | cons s rest => exact (inside_nextStmt (m := m) (s :: rest)).spares
  all_goals exact .still rfl rfl

-- A step that awaits no coroutine takes no work.
theorem spares_step (hgoes : m.isHalted = false) (hawait : m.awaited? = none) :
    Spares m.world m.step := by
  by_cases hoperation : ∃ id, m.operation? = some (.await, [.coroutine id])
  case pos =>
    -- There is no such coroutine, and so no work to take.
    obtain ⟨id, hoperation⟩ := hoperation
    have hnone : m.world.heap.coroutines.size ≤ id := by
      simpa [awaited?, hoperation] using hawait
    have hstep : m.step = await { m with frames := m.frames.tail } (.coroutine id) :=
      step_of_operation? hoperation
    have hawaits := hstep ▸ m.awaits_await id
    rw [hawaits.eq_refusal (Heap.work_of_le hnone)]
    exact .still rfl rfl
  case neg =>
    replace hawait (id : Nat) : m.operation? ≠ some (.await, [.coroutine id]) := fun h => hoperation ⟨id, h⟩
    obtain ⟨control, frames, context, world⟩ := m
    cases control
    case eval e => exact (staysInside_eval e).spares
    case exec s => exact (staysInside_exec s).spares
    case assign pairs => exact (staysInside_assign pairs).spares
    case give v =>
      cases frames with
      | nil => exact .still rfl rfl
      | cons frame frames => exact spares_giveTo (m := ⟨.give v, frames, context, world⟩) v frame hawait
    case flow flow =>
      cases frames with
      | nil => exact .still rfl rfl
      | cons frame frames => exact spares_flowTo (m := ⟨.flow flow, frames, context, world⟩) flow frame
    all_goals cases hgoes

/-! ### Runs -/

-- The machines that a run takes its steps from.
def path : Nat → Machine → List Machine
  | 0, _ => []
  | fuel + 1, m => if m.isHalted then [] else m :: path fuel m.step

-- The coroutine whose work the next step starts.
def started? (m : Machine) : Option Nat :=
  m.awaited?.filter fun id => !(m.world.heap.coroutine id).work.isSpent

-- The coroutines that the next step makes, and those of them that ask the host.
def makes (m : Machine) : List Nat := m.world.heap.newIn m.step.world.heap

def makesInputs (m : Machine) : List Nat :=
  m.makes.filter fun id => (m.step.world.heap.coroutine id).work.isInput

end Machine
end NoteCell
