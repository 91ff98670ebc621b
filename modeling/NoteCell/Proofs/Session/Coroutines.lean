import NoteCell.Proofs.Machine.Coroutines
import NoteCell.Proofs.Session.Pending

/-!
Coroutines over a session. The steps that the cells of a session take are its trace. The heap keeps
account of it: what has been awaited is spent and nothing else is, so the work of no coroutine is
started twice, and a request takes an input that has not been asked for.
-/
namespace NoteCell

-- Steps in order, each with the number of heaps that were given up before. The coroutines of one heap
-- are not those of another.
abbrev Trace := List (Nat × Machine)

namespace Trace

-- Coroutines are told by their heap and their place in it.
def awaits (t : Trace) : List (Nat × Nat) := t.filterMap fun p => p.2.awaited?.map (p.1, ·)

def starts (t : Trace) : List (Nat × Nat) := t.filterMap fun p => p.2.started?.map (p.1, ·)

def makes (t : Trace) : List (Nat × Nat) := t.flatMap fun p => p.2.makes.map (p.1, ·)

def makesInputs (t : Trace) : List (Nat × Nat) := t.flatMap fun p => p.2.makesInputs.map (p.1, ·)

-- How many steps have the host asked.
def questions (t : Trace) : Nat := t.countP fun p => p.2.step.isWaiting

section

variable (t u : Trace) (era : Nat) (m : Machine)

@[simp] theorem awaits_append : (t ++ u).awaits = t.awaits ++ u.awaits := List.filterMap_append

@[simp] theorem starts_append : (t ++ u).starts = t.starts ++ u.starts := List.filterMap_append

@[simp] theorem makes_append : (t ++ u).makes = t.makes ++ u.makes := List.flatMap_append

@[simp] theorem makesInputs_append : (t ++ u).makesInputs = t.makesInputs ++ u.makesInputs :=
  List.flatMap_append

@[simp] theorem questions_append : (t ++ u).questions = t.questions + u.questions :=
  List.countP_append

@[simp] theorem awaits_singleton : awaits [(era, m)] = (m.awaited?.map (era, ·)).toList := by
  cases h : m.awaited? <;> simp [awaits, h]

@[simp] theorem starts_singleton : starts [(era, m)] = (m.started?.map (era, ·)).toList := by
  cases h : m.started? <;> simp [starts, h]

@[simp] theorem makes_singleton : makes [(era, m)] = m.makes.map (era, ·) := by simp [makes]

@[simp] theorem makesInputs_singleton : makesInputs [(era, m)] = m.makesInputs.map (era, ·) := by
  simp [makesInputs]

@[simp] theorem questions_singleton : questions [(era, m)] = m.step.isWaiting.toNat := by
  cases h : m.step.isWaiting <;> simp [questions, h]

theorem starts_subset_awaits : t.starts ⊆ t.awaits := by
  intro p hp
  obtain ⟨e, he, hstarted⟩ := List.mem_filterMap.mp hp
  obtain ⟨id, hid, rfl⟩ := Option.map_eq_some_iff.mp hstarted
  refine List.mem_filterMap.mpr ⟨e, he, ?_⟩
  rw [(Option.filter_eq_some_iff.mp hid).1]
  rfl

end

-- An await of a coroutine finds it made, and spent if it has been awaited before.
def Settled (before : Trace) (era : Nat) (m : Machine) : Prop :=
  ∀ id, m.awaited? = some id → (era, id) ∈ before.makes
    ∧ ((m.world.heap.coroutine id).work.isSpent ↔ (era, id) ∈ before.awaits)

-- The account that a heap keeps of the trace that led to it.
structure Account (era : Nat) (h : Heap) (t : Trace) : Prop where
  made_once : t.makes.Nodup
  made (id : Nat) : (era, id) ∈ t.makes ↔ id < h.coroutines.size
  eras : ∀ p ∈ t.makes, p.1 ≤ era
  awaits_subset : t.awaits ⊆ t.makes
  spent : ∀ id < h.coroutines.size, (h.coroutine id).work.isSpent ↔ (era, id) ∈ t.awaits
  started_once : t.starts.Nodup
  settled (i era : Nat) (m : Machine) : t[i]? = some (era, m) → Settled (t.take i) era m
  inputs : t.questions + h.openInputs.length ≤ t.makesInputs.length

namespace Account

variable {era : Nat} {h : Heap} {t : Trace} {m : Machine}

theorem nil : Account 0 .empty [] := by
  constructor
  case inputs => decide
  all_goals simp [makes, awaits, starts, Heap.empty]

-- A heap that is given up leaves the trace as it is.
theorem giveUp (ha : Account era h t) : Account (era + 1) .empty t := by
  have hnone (id : Nat) : (era + 1, id) ∉ t.makes := fun hid => by
    have := ha.eras _ hid
    simp at this
  refine ⟨ha.made_once, fun id => ?_, fun p hp => Nat.le_succ_of_le (ha.eras p hp), ha.awaits_subset,
    fun id hid => ?_, ha.started_once, ha.settled, ?_⟩
  · simp [hnone, Heap.empty]
  · simp [Heap.empty] at hid
  · exact Nat.le_trans (Nat.add_le_add_left (Nat.zero_le _) _) ha.inputs

theorem settled_append (ha : Account era h t) (hm : Settled t era m) (i era' : Nat) (m' : Machine)
    (hi : (t ++ [(era, m)])[i]? = some (era', m')) : Settled ((t ++ [(era, m)]).take i) era' m' := by
  rw [List.getElem?_append] at hi
  split at hi
  case isTrue hlt =>
    rw [List.take_append_of_le_length hlt.le]
    exact ha.settled i era' m' hi
  case isFalse hge =>
    obtain ⟨hlast, heq⟩ := List.getElem?_eq_some_iff.mp hi
    obtain rfl : i = t.length := by
      rw [List.length_singleton] at hlast
      omega
    obtain ⟨rfl, rfl⟩ : era = era' ∧ m = m' := by simpa using heq
    rwa [List.take_left]

-- A step that awaits nothing makes coroutines that have their work before them.
theorem sparing (ha : Account era m.world.heap t) (hawait : m.awaited? = none)
    (hm : Machine.Spares m.world m.step) : Account era m.step.world.heap (t ++ [(era, m)]) := by
  have hawaits : (t ++ [(era, m)]).awaits = t.awaits := by simp [hawait]
  have hstarts : (t ++ [(era, m)]).starts = t.starts := by simp [Machine.started?, hawait]
  have hnew (id : Nat) : id ∈ m.makes ↔ m.world.heap.coroutines.size ≤ id
      ∧ id < m.step.world.heap.coroutines.size := by
    have := hm.grows.size_le
    rw [Machine.makes, Heap.newIn, List.mem_range'_1]
    omega
  refine ⟨?_, fun id => ?_, ?_, ?_, fun id hid => ?_, ?_, ?_, ?_⟩
  · rw [makes_append, makes_singleton]
    have hnodup : m.makes.Nodup := List.nodup_range'
    refine ha.made_once.append (hnodup.map (Prod.mk_right_injective era)) fun p hp hp' => ?_
    obtain ⟨id, hid, rfl⟩ := List.mem_map.mp hp'
    exact absurd ((ha.made id).mp hp) (Nat.not_lt.mpr ((hnew id).mp hid).1)
  · rw [makes_append, makes_singleton, List.mem_append, ha.made]
    have := hm.grows.size_le
    simp [hnew]
    omega
  · rw [makes_append, makes_singleton]
    refine List.forall_mem_append.mpr ⟨ha.eras, fun p hp => ?_⟩
    obtain ⟨id, -, rfl⟩ := List.mem_map.mp hp
    exact Nat.le_refl era
  · rw [hawaits, makes_append]
    exact List.subset_append_of_subset_left _ ha.awaits_subset
  · rw [hawaits]
    by_cases hold : id < m.world.heap.coroutines.size
    · rw [hm.grows.same id hold]
      exact ha.spent id hold
    · refine iff_of_false ?_ fun hmem => hold ((ha.made id).mp (ha.awaits_subset hmem))
      rw [hm.grows.fresh id hid (Nat.le_of_not_lt hold)]
      exact Bool.false_ne_true
  · rw [hstarts]
    exact ha.started_once
  · exact ha.settled_append fun id hid => by rw [hawait] at hid; cases hid
  · rw [questions_append, questions_singleton, hm.not_waiting, makesInputs_append,
      makesInputs_singleton, hm.grows.openInputs_eq]
    have hinputs := ha.inputs
    have hmakes : m.makesInputs.length = ((m.world.heap.newIn m.step.world.heap).filter fun id =>
        (m.step.world.heap.coroutine id).work.isInput).length := rfl
    simp only [List.length_append, List.length_map, Bool.toNat_false, hmakes]
    omega

-- A step that awaits a coroutine spends it.
theorem awaiting (ha : Account era m.world.heap t) {id : Nat} (hawait : m.awaited? = some id) :
    Account era m.step.world.heap (t ++ [(era, m)]) := by
  obtain ⟨hid, hstep⟩ := Machine.awaited?_eq_some hawait
  have hmakes : m.makes = [] := by rw [Machine.makes, hstep.heap_eq, Heap.newIn_spend]
  have hmakes' : (t ++ [(era, m)]).makes = t.makes := by simp [hmakes]
  have hawaits : (t ++ [(era, m)]).awaits = t.awaits ++ [(era, id)] := by simp [hawait]
  have hmade : (era, id) ∈ t.makes := (ha.made id).mpr hid
  have hsettled : Settled t era m := fun i hi => by
    obtain rfl := Option.some.inj (hawait.symm.trans hi)
    exact ⟨hmade, ha.spent id hid⟩
  have hstarts : (t ++ [(era, m)]).starts.Nodup := by
    rw [starts_append, starts_singleton]
    cases hspent : (m.world.heap.coroutine id).work.isSpent with
    | true =>
      have hstarted : m.started? = none := by simp [Machine.started?, hawait, Option.filter, hspent]
      rw [hstarted, Option.map_none, Option.toList_none, List.append_nil]
      exact ha.started_once
    | false =>
      have hstarted : m.started? = some id := by
        simp [Machine.started?, hawait, Option.filter, hspent]
      have hfirst : (era, id) ∉ t.starts := fun hmem => by
        have hbefore := (ha.spent id hid).mpr (t.starts_subset_awaits hmem)
        exact Bool.false_ne_true (hspent.symm.trans hbefore)
      rw [hstarted, Option.map_some, Option.toList_some]
      exact ha.started_once.append (List.nodup_singleton _) (List.disjoint_singleton.mpr hfirst)
  have hinputs : m.step.isWaiting.toNat + m.step.world.heap.openInputs.length
      ≤ m.world.heap.openInputs.length := by
    rw [hstep.heap_eq, hstep.isWaiting_eq]
    cases hinput : (m.world.heap.coroutine id).work.isInput with
    | true =>
      have := Heap.length_openInputs_spend hid hinput
      simp only [Bool.toNat_true]
      omega
    | false =>
      have := m.world.heap.length_openInputs_spend_le id
      simpa using this
  refine ⟨?_, fun i => ?_, ?_, ?_, fun i hi => ?_, hstarts, ha.settled_append hsettled, ?_⟩
  · rw [hmakes']
    exact ha.made_once
  · rw [hmakes', hstep.heap_eq, Heap.size_spend]
    exact ha.made i
  · rw [hmakes']
    exact ha.eras
  · rw [hmakes', hawaits]
    exact List.append_subset.mpr ⟨ha.awaits_subset, by simpa using hmade⟩
  · rw [hstep.heap_eq, Heap.size_spend] at hi
    have hwork : ((m.world.heap.spend id).coroutine i).work
        = if i = id then .spent else (m.world.heap.coroutine i).work := Heap.work_spend id i
    rw [hstep.heap_eq, hawaits, hwork, List.mem_append, ← ha.spent i hi]
    by_cases heq : i = id <;> simp [heq, Work.isSpent]
  · rw [questions_append, questions_singleton, makesInputs_append, List.length_append]
    have := ha.inputs
    omega

theorem step (ha : Account era m.world.heap t) (hgoes : m.isHalted = false) :
    Account era m.step.world.heap (t ++ [(era, m)]) := by
  cases hawait : m.awaited? with
  | none => exact ha.sparing hawait (Machine.spares_step hgoes hawait)
  | some id => exact ha.awaiting hawait

-- A run adds the steps that it takes.
theorem run (ha : Account era m.world.heap t) (fuel : Nat) :
    Account era (m.run fuel).world.heap (t ++ (m.path fuel).map (era, ·)) := by
  induction fuel generalizing m t
  case zero => simpa [Machine.path, Machine.run] using ha
  case succ fuel ih =>
    rw [Machine.path, Machine.run]
    cases hgoes : m.isHalted with
    | true => simpa using ha
    | false =>
      have hstep := ih (ha.step hgoes)
      rw [List.append_assoc] at hstep
      exact hstep

end Account
end Trace

namespace Machine

variable {m m' : Machine}

-- What a run comes to where one of its steps halts.
theorem run_of_mem_path {fuel : Nat} (hm : m' ∈ m.path fuel) (hhalted : m'.step.isHalted) :
    m.run fuel = m'.step := by
  induction fuel generalizing m
  case zero => cases hm
  case succ fuel ih =>
    rw [path] at hm
    rw [run]
    split at hm
    · cases hm
    · rw [if_neg ‹_›]
      obtain rfl | hm := List.mem_cons.mp hm
      · cases fuel with
        | zero => rfl
        | succ fuel => rw [run, if_pos hhalted]
      · exact ih hm

-- A run that comes to ask has a step that does.
theorem exists_asks_of_run {fuel : Nat} (hm : m.isWaiting = false)
    (hrun : (m.run fuel).isWaiting = true) : ∃ m' ∈ m.path fuel, m'.step.isWaiting = true := by
  induction fuel generalizing m
  case zero => cases hm.symm.trans hrun
  case succ fuel ih =>
    rw [run] at hrun
    rw [path]
    split at hrun
    case isTrue => cases hm.symm.trans hrun
    case isFalse hgoes =>
      rw [if_neg hgoes]
      cases hstep : m.step.isWaiting with
      | true => exact ⟨m, List.mem_cons_self, hstep⟩
      | false =>
        obtain ⟨m', hm', hasks⟩ := ih hstep hrun
        exact ⟨m', List.mem_cons_of_mem m hm', hasks⟩

end Machine

namespace Session

/-! ### Steps of a session -/

-- The machine from which the cell in flight can go on.
def onward? (s : Session) : Option Machine :=
  s.inFlight.bind fun f =>
    match f.suspension with
    | none => some f.machine
    | some id => (s.registry.collect id).1.map f.machine.answer

-- The machines that a command takes steps from.
def path (s : Session) : SessionCommand → List Machine
  | .progress fuel _ => s.onward?.elim [] (Machine.path fuel)
  | _ => []

-- How many heaps have been given up.
def eras : List SessionCommand → Nat
  | [] => 0
  | .drop :: h => eras h + 1
  | _ :: h => eras h

def trace (hasHost : Bool) : List SessionCommand → Trace
  | [] => []
  | c :: h => trace hasHost h ++ ((after hasHost h).path c).map (eras h, ·)

-- The heap that cells go on with.
def currentHeap (s : Session) : Heap := s.inFlight.elim s.heap (·.machine.world.heap)

section

variable {s : Session} {cell : String} {capture : Capture} {m : Machine} {formatter : HeapFormatter}
  {fuel : Nat}

theorem currentHeap_advance :
    (s.advance fuel formatter cell capture m).2.currentHeap = (m.run fuel).world.heap := by
  simp only [advance, drain, settle]
  split
  · rfl
  · split <;> rfl
  · rfl

theorem currentHeap_begin? {source : String} {told : List Notice} {s' : Session}
    (hbegin : s.begin? formatter cell source = some (told, s')) :
    s'.currentHeap = s.currentHeap := by
  rw [begin?] at hbegin
  split at hbegin
  case isTrue => cases hbegin
  case isFalse hidle =>
    have hidle : s.inFlight = none := by simpa [isBusy] using hidle
    dsimp only at hbegin
    rw [currentHeap, currentHeap, hidle]
    split at hbegin
    all_goals
      obtain ⟨-, rfl⟩ := Prod.mk.inj (Option.some.inj hbegin)
      rfl

theorem currentHeap_drop : s.drop.currentHeap = .empty := by
  rw [drop, currentHeap]
  split
  case h_1 hidle => simp [hidle]
  case h_2 => rfl

-- The cell in flight goes on from the current heap, or nothing happens.
theorem progress_cases (fuel : Nat) (formatter : HeapFormatter) :
    s.onward? = none ∧ s.progress fuel formatter = ([], s)
      ∨ ∃ f m r, s.inFlight = some f ∧ s.onward? = some m ∧ m.world.heap = s.currentHeap
        ∧ (m.isWaiting = true → f.machine.isWaiting = true ∧ f.suspension = none)
        ∧ s.progress fuel formatter
          = { s with registry := r }.advance fuel formatter f.cell f.capture m := by
  rw [progress, onward?, currentHeap]
  cases hf : s.inFlight with
  | none => exact .inl ⟨rfl, rfl⟩
  | some f =>
    simp only [Option.bind_some, Option.elim_some]
    cases hsuspension : f.suspension with
    | none =>
      exact .inr ⟨f, f.machine, s.registry, rfl, rfl, rfl, fun hwaits => ⟨hwaits, hsuspension⟩, by
        rw [← hf]⟩
    | some id =>
      cases hcollect : s.registry.collect id with
      | mk answer registry =>
        cases answer with
        | none => exact .inl ⟨by simp [hcollect], by simp [hcollect]⟩
        | some v =>
          exact .inr ⟨f, f.machine.answer v, registry, rfl, by simp [hcollect], rfl, nofun, by
            simp only [hcollect, ← hf]⟩

-- Only a machine that waits has a request told.
theorem requests_advance (hnot : (m.run fuel).isWaiting = false) :
    (s.advance fuel formatter cell capture m).1.filterMap Notice.request? = [] := by
  refine List.filterMap_eq_nil_iff.mpr fun n hn => Option.eq_none_iff_forall_ne_some.mpr fun e he => ?_
  obtain rfl : n = .request e := by
    cases n <;> cases he
    rfl
  obtain hn | hn := List.mem_append.mp hn
  · obtain ⟨effect, -, heffect⟩ := List.mem_filterMap.mp hn
    cases effect <;> cases heffect
  · have hcontrol : (m.run fuel).control = .waiting e.cell e.prompt := (request_settle hn).1
    simp [Machine.isWaiting, hcontrol] at hnot

theorem length_requests_advance :
    ((s.advance fuel formatter cell capture m).1.filterMap Notice.request?).length
      ≤ (m.run fuel).isWaiting.toNat := by
  cases hwaits : (m.run fuel).isWaiting with
  | false => rw [requests_advance hwaits]; rfl
  | true =>
    have hstanding : Standing s.registry (s.advance fuel formatter cell capture m) :=
      standing_advance rfl (.refl s.registry)
    generalize s.advance fuel formatter cell capture m = advanced at hstanding
    cases hstanding
    case quiet htold hwaiting hr hf => simp [htold]
    case asks e htold hwaiting hr hfresh hused hf hsuspension hwaits => simp [htold]

theorem requests_begin? {source : String} {told : List Notice} {s' : Session}
    (hbegin : s.begin? formatter cell source = some (told, s')) :
    told.filterMap Notice.request? = [] := by
  rw [begin?] at hbegin
  split at hbegin
  · cases hbegin
  · dsimp only at hbegin
    split at hbegin
    all_goals
      obtain ⟨rfl, -⟩ := Prod.mk.inj (Option.some.inj hbegin)
      rfl

end

/-! ### The account of a session -/

variable {hasHost : Bool} {h : List SessionCommand}

theorem account (h : List SessionCommand) :
    Trace.Account (eras h) (after hasHost h).currentHeap (trace hasHost h) := by
  induction h
  case nil => exact .nil
  case cons c h ih =>
    have hquiet (hheap : (after hasHost (c :: h)).currentHeap = (after hasHost h).currentHeap)
        (hpath : (after hasHost h).path c = []) (heras : eras (c :: h) = eras h) :
        Trace.Account (eras (c :: h)) (after hasHost (c :: h)).currentHeap (trace hasHost (c :: h)) := by
      rwa [trace, hpath, hheap, heras, List.map_nil, List.append_nil]
    cases c
    case begin formatter cell source =>
      refine hquiet ?_ rfl rfl
      rw [after, obey]
      cases hbegin : (after hasHost h).begin? formatter cell source with
      | none => rfl
      | some out => exact currentHeap_begin? hbegin
    case progress fuel formatter =>
      obtain ⟨hnone, hsame⟩ | ⟨f, m, r, -, honward, hheap, -, hadvance⟩ :=
        (after hasHost h).progress_cases fuel formatter
      · exact hquiet (by rw [after, obey, hsame]) (by rw [path, hnone]; rfl) rfl
      · rw [after, obey, hadvance, currentHeap_advance, trace, path, honward]
        rw [← hheap] at ih
        exact ih.run fuel
    case drop =>
      have hpath : (after hasHost h).path .drop = [] := rfl
      rw [after, obey, currentHeap_drop, trace, hpath, List.map_nil, List.append_nil, eras]
      exact ih.giveUp
    case deliver => exact hquiet rfl rfl rfl
    case hangUp => exact hquiet rfl rfl rfl
    case write => exact hquiet rfl rfl rfl

-- A cell that goes on does not wait for the host any more.
theorem not_waiting_of_onward {f : InFlight} {m : Machine} (hf : (after hasHost h).inFlight = some f)
    (hm : m.isWaiting = true → f.machine.isWaiting = true ∧ f.suspension = none) :
    m.isWaiting = false := by
  have hk : Tracked hasHost h := tracked h
  refine Bool.eq_false_iff.mpr fun hwaits => ?_
  obtain ⟨hwaits, hsuspension⟩ := hm hwaits
  rw [hk.suspension f hf, if_pos hwaits] at hsuspension
  exact hk.numbered f hf hwaits (List.getLast?_eq_none_iff.mp hsuspension)

-- Each request is told for a step that has asked.
theorem length_requests_le (h : List SessionCommand) :
    (requests hasHost h).length ≤ (trace hasHost h).questions := by
  induction h
  case nil => exact Nat.le_refl 0
  case cons c h ih =>
    have htold : (((after hasHost h).obey c).1.filterMap Notice.request?).length
        ≤ Trace.questions (((after hasHost h).path c).map (eras h, ·)) := by
      cases c
      case begin formatter cell source =>
        rw [obey]
        cases hbegin : (after hasHost h).begin? formatter cell source with
        | none => exact Nat.zero_le _
        | some out => simp [requests_begin? hbegin]
      case progress fuel formatter =>
        obtain ⟨-, hsame⟩ | ⟨f, m, r, hf, honward, -, hwaits, hadvance⟩ :=
          (after hasHost h).progress_cases fuel formatter
        · rw [obey, hsame]
          exact Nat.zero_le _
        · rw [obey, hadvance, path, honward]
          refine Nat.le_trans length_requests_advance ?_
          cases hrun : (m.run fuel).isWaiting with
          | false => exact Nat.zero_le _
          | true =>
            obtain ⟨m', hm', hasks⟩ := Machine.exists_asks_of_run (not_waiting_of_onward hf hwaits) hrun
            exact List.countP_pos_iff.mpr ⟨_, List.mem_map_of_mem hm', hasks⟩
      all_goals exact Nat.zero_le _
    rw [requests, trace, List.length_append, List.length_map, Trace.questions_append]
    exact Nat.add_le_add ih htold

-- Over a whole session no two coroutines are taken for one another, and the work of each is started
-- once at most. The first await of a coroutine that has been made starts it; every later one ends its
-- cell with a failure and does nothing else, and nothing is asked of the host for it. So no more is
-- asked than there are inputs to ask for.
theorem coroutines_work_once (hasHost : Bool) (h : List SessionCommand) :
    (trace hasHost h).makes.Nodup ∧ (trace hasHost h).starts.Nodup
      ∧ (∀ i era m id, (trace hasHost h)[i]? = some (era, m) → m.awaited? = some id →
        (era, id) ∈ Trace.makes ((trace hasHost h).take i)
          ∧ if (era, id) ∈ Trace.awaits ((trace hasHost h).take i) then m.step = m.refusal
            else m.started? = some id)
      ∧ (∀ c, ∀ m ∈ (after hasHost h).path c, m.step = m.refusal →
        ((after hasHost h).obey c).1.filterMap Notice.request? = [])
      ∧ (requests hasHost h).length ≤ (trace hasHost h).makesInputs.length := by
  have ha : Trace.Account (eras h) (after hasHost h).currentHeap (trace hasHost h) := account h
  refine ⟨ha.made_once, ha.started_once, fun i era m id hi hawait => ?_, fun c m hm hrefused => ?_, ?_⟩
  · obtain ⟨hmade, hspent⟩ := ha.settled i era m hi id hawait
    refine ⟨hmade, ?_⟩
    split
    case isTrue hbefore =>
      have hwork : (m.world.heap.coroutine id).work = .spent := by
        have hspent := hspent.mpr hbefore
        revert hspent
        cases (m.world.heap.coroutine id).work <;> simp [Work.isSpent]
      exact (Machine.awaited?_eq_some hawait).2.eq_refusal hwork
    case isFalse hfirst =>
      have hopen := Bool.eq_false_iff.mpr fun h => hfirst (hspent.mp h)
      simp [Machine.started?, hawait, Option.filter, hopen]
  · cases c
    case progress fuel formatter =>
      obtain ⟨hnone, -⟩ | ⟨f, m', r, -, honward, -, -, hadvance⟩ :=
        (after hasHost h).progress_cases fuel formatter
      · rw [path, hnone] at hm
        cases hm
      · rw [path, honward] at hm
        rw [obey, hadvance]
        refine requests_advance ?_
        rw [Machine.run_of_mem_path hm (by rw [hrefused]; rfl), hrefused]
        rfl
    all_goals cases hm
  · exact Nat.le_trans (length_requests_le h) (Nat.le_trans (Nat.le_add_right _ _) ha.inputs)

-- The first cell awaits a coroutine to its end, and the second one awaits it again.
def awaitedAgain : List SessionCommand :=
  [.begin reprFormatter "c2" "await co", .progress 100 reprFormatter, .deliver 0 "a",
    .progress 100 reprFormatter, .begin reprFormatter "c1" "co = input('x')\nawait co"]

theorem coroutines_work_once_awaited_again :
    ∃ m ∈ (after true awaitedAgain).path (.progress 100 reprFormatter), m.awaited? = some 0
      ∧ (0, 0) ∈ (trace true awaitedAgain).awaits ∧ m.step = m.refusal
      ∧ ((after true awaitedAgain).progress 100 reprFormatter).1.filterMap Notice.request? = []
      ∧ (requests true awaitedAgain).length ≤ (trace true awaitedAgain).makesInputs.length := by
  have hlast : (((after true awaitedAgain).path (.progress 100 reprFormatter))[3]?.bind
      Machine.awaited?) = some 0 := by
    decide +kernel
  obtain ⟨m, hm, hawait⟩ := Option.bind_eq_some_iff.mp hlast
  have hlength : (trace true awaitedAgain).length = 15 := by decide +kernel
  have hbefore : (0, 0) ∈ Trace.awaits
      ((trace true (.progress 100 reprFormatter :: awaitedAgain)).take 18) := by
    decide +kernel
  have hi : (trace true (.progress 100 reprFormatter :: awaitedAgain))[18]? = some (0, m) := by
    rw [trace, List.getElem?_append_right (by rw [hlength]; decide), hlength, List.getElem?_map, hm]
    rfl
  have hagain := ((coroutines_work_once true _).2.2.1 18 0 m 0 hi hawait).2
  rw [if_pos hbefore] at hagain
  have hmem := List.mem_of_getElem? hm
  obtain ⟨-, -, -, hquiet, hrequests⟩ := coroutines_work_once true awaitedAgain
  exact ⟨m, hmem, hawait, by decide +kernel, hagain, hquiet _ m hmem hagain, hrequests⟩

end Session
end NoteCell
