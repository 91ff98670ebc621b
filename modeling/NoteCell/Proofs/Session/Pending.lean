import NoteCell.Proofs.Session.Sequels

/-!
What waits for the host over the history of a session: the request of the cell that is suspended,
and those of cells that were dropped while they were suspended, as long as nobody resumes them.
-/
namespace NoteCell

inductive SessionCommand where
  | begin (formatter : HeapFormatter) (cell source : String)
  | progress (fuel : Nat) (formatter : HeapFormatter)
  | deliver (id : Nat) (value : String)
  | drop
  | hangUp
  | write (w : Write)

namespace Registry

variable {r r' : Registry} {cell prompt : String}

theorem waiting_of_asked {e : SuspendEvent} (h : r.register cell prompt = (.ok e, r')) :
    r'.waiting = r.waiting ++ [e.id] := by
  rw [register] at h
  split at h
  · obtain ⟨he, rfl⟩ := Prod.mk.inj h
    rw [← Except.ok.inj he]
  · cases (Prod.mk.inj h).1

theorem waiting_of_refused {e : SuspensionError} (h : r.register cell prompt = (.error e, r')) :
    r'.waiting = r.waiting := by
  rw [register] at h
  split at h
  · cases (Prod.mk.inj h).1
  · rw [← (Prod.mk.inj h).2]

theorem waiting_collect (id : Nat) : (r.collect id).2.waiting = r.waiting := by
  rw [collect]
  split <;> rfl

end Registry

namespace Session

/-! ### Histories -/

-- What a command tells, and the session after it. A cell that is refused changes nothing.
def obey (s : Session) : SessionCommand → List Notice × Session
  | .begin formatter cell source => (s.begin? formatter cell source).getD ([], s)
  | .progress fuel formatter => s.progress fuel formatter
  | .deliver id value => ([], (s.deliver id value).2)
  | .drop => ([], s.drop)
  | .hangUp => ([], s.hangUp)
  | .write w => ([], s.write w)

variable (hasHost : Bool)

-- A session after some commands, the latest first.
def after : List SessionCommand → Session
  | [] => new hasHost
  | c :: h => ((after h).obey c).2

-- The ids of the requests that were told, in order.
def requests : List SessionCommand → List Nat
  | [] => []
  | c :: h => requests h ++ (((after hasHost h).obey c).1.filterMap Notice.request?).map (·.id)

-- Somebody resumed an id that had been requested, whatever came of it.
def Resumed (id : Nat) (h : List SessionCommand) : Prop :=
  ∃ v earlier, .deliver id v :: earlier <:+ h ∧ id ∈ requests hasHost earlier

-- The cell in flight waits, and its latest request has not been answered.
structure Suspended (id : Nat) (h : List SessionCommand) : Prop where
  waits : ∃ f, (after hasHost h).inFlight = some f ∧ f.machine.isWaiting = true
  latest : (requests hasHost h).getLast? = some id
  unanswered : ¬Resumed hasHost id h

-- A cell was dropped while it was suspended.
def DroppedSuspended (id : Nat) (h : List SessionCommand) : Prop :=
  ∃ earlier, .drop :: earlier <:+ h ∧ Suspended hasHost id earlier

section

variable {hasHost} {h : List SessionCommand} {c : SessionCommand} {id : Nat} {v : String}

theorem resumed_cons : Resumed hasHost id (c :: h)
    ↔ ((∃ v, c = .deliver id v) ∧ id ∈ requests hasHost h) ∨ Resumed hasHost id h := by
  simp only [Resumed, List.suffix_cons_iff, List.cons.injEq]
  constructor
  · rintro ⟨v, earlier, ⟨rfl, rfl⟩ | hsuffix, hid⟩
    · exact .inl ⟨⟨v, rfl⟩, hid⟩
    · exact .inr ⟨v, earlier, hsuffix, hid⟩
  · rintro (⟨⟨v, rfl⟩, hid⟩ | ⟨v, earlier, hsuffix, hid⟩)
    · exact ⟨v, h, .inl ⟨rfl, rfl⟩, hid⟩
    · exact ⟨v, earlier, .inr hsuffix, hid⟩

theorem resumed_cons_of_ne (hc : ∀ id v, c ≠ .deliver id v) :
    Resumed hasHost id (c :: h) ↔ Resumed hasHost id h := by
  rw [resumed_cons]
  exact or_iff_right_of_imp fun ⟨⟨v, hv⟩, _⟩ => absurd hv (hc id v)

theorem droppedSuspended_cons : DroppedSuspended hasHost id (c :: h)
    ↔ (c = .drop ∧ Suspended hasHost id h) ∨ DroppedSuspended hasHost id h := by
  simp only [DroppedSuspended, List.suffix_cons_iff, List.cons.injEq]
  constructor
  · rintro ⟨earlier, ⟨rfl, rfl⟩ | hsuffix, hid⟩
    · exact .inl ⟨rfl, hid⟩
    · exact .inr ⟨earlier, hsuffix, hid⟩
  · rintro (⟨rfl, hid⟩ | ⟨earlier, hsuffix, hid⟩)
    · exact ⟨h, .inl ⟨rfl, rfl⟩, hid⟩
    · exact ⟨earlier, .inr hsuffix, hid⟩

theorem droppedSuspended_cons_of_ne (hc : c ≠ .drop) :
    DroppedSuspended hasHost id (c :: h) ↔ DroppedSuspended hasHost id h := by
  rw [droppedSuspended_cons]
  exact or_iff_right_of_imp fun ⟨hdrop, _⟩ => absurd hdrop hc

end

/-! ### What a cell leaves in the registry when it goes on -/

-- A cell that goes on is in flight without a request of its own, or has just asked.
inductive Standing (r : Registry) : List Notice × Session → Prop where
  | quiet {told : List Notice} {s : Session} (htold : told.filterMap Notice.request? = [])
    (hwaiting : s.registry.waiting = r.waiting) (hr : r.Onward s.registry)
    (hf : ∀ f, s.inFlight = some f → f.suspension = none ∧ f.machine.isWaiting = false) :
    Standing r (told, s)
  | asks {told : List Notice} {s : Session} {f : InFlight} (e : SuspendEvent)
    (htold : told.filterMap Notice.request? = [e])
    (hwaiting : s.registry.waiting = r.waiting ++ [e.id]) (hr : r.Onward s.registry)
    (hfresh : r.nextId ≤ e.id) (hused : e.id < s.registry.nextId) (hf : s.inFlight = some f)
    (hsuspension : f.suspension = some e.id) (hwaits : f.machine.isWaiting = true) :
    Standing r (told, s)


section

variable {s : Session} {r : Registry} {cell : String} {capture : Capture} {m : Machine}
  {formatter : HeapFormatter} {fuel : Nat} {f : InFlight}

theorem Standing.tell {told : List Notice × Session} (h : Standing r told) {sent : List Notice}
    (hsent : sent.filterMap Notice.request? = []) : Standing r (sent ++ told.1, told.2) := by
  cases h
  case quiet htold hwaiting hr hf =>
    exact .quiet (by rw [List.filterMap_append, hsent, htold]; rfl) hwaiting hr hf
  case asks e htold hwaiting hr hfresh hused hf hsuspension hwaits =>
    refine .asks e ?_ hwaiting hr hfresh hused hf hsuspension hwaits
    rw [List.filterMap_append, hsent, htold, List.nil_append]

theorem standing_conclude (hwaiting : s.registry.waiting = r.waiting)
    (hr : r.Onward s.registry) (heap : Heap) (evaluation : Evaluation Value) :
    Standing r (s.conclude formatter cell capture heap evaluation) := by
  refine .quiet rfl hwaiting hr fun f hf => ?_
  cases Option.some_ne_none f hf.symm

theorem standing_settle (hwaiting : s.registry.waiting = r.waiting)
    (hr : r.Onward s.registry) : Standing r (s.settle formatter cell capture m) := by
  rw [settle]
  split
  case h_1 => exact standing_conclude hwaiting hr _ _
  case h_2 waiter prompt hcontrol =>
    have hregister := hr.trans (Registry.onward_register (r := s.registry) waiter prompt)
    split
    case h_1 event registry hasked =>
      obtain ⟨hid, hnext⟩ := Registry.id_of_register hasked
      rw [hasked] at hregister
      refine .asks event rfl ?_ hregister (hr.nextId.trans hid.ge)
        (hid ▸ hnext ▸ Nat.lt_succ_self _) rfl rfl ?_
      · rw [← hwaiting]
        exact Registry.waiting_of_asked hasked
      · rw [Machine.isWaiting, hcontrol]
    case h_2 registry hrefused =>
      rw [hrefused] at hregister
      exact standing_conclude ((Registry.waiting_of_refused hrefused).trans hwaiting) hregister _ _
  case h_3 hended hwaits =>
    refine .quiet rfl hwaiting hr fun f hf => ?_
    obtain rfl := Option.some.inj hf
    refine ⟨rfl, ?_⟩
    rw [Machine.isWaiting]
    split
    · exact absurd ‹m.control = _› (hwaits _ _)
    · rfl

theorem standing_advance (hwaiting : s.registry.waiting = r.waiting)
    (hr : r.Onward s.registry) : Standing r (s.advance fuel formatter cell capture m) := by
  have hsent : ((m.run fuel).world.effects.reverse.filterMap Effect.notice?).filterMap
      Notice.request? = [] := by
    refine List.filterMap_eq_nil_iff.mpr fun n hn => ?_
    obtain ⟨e, -, he⟩ := List.mem_filterMap.mp hn
    cases e <;> cases he <;> rfl
  exact (standing_settle (by exact hwaiting) (by exact hr)).tell hsent

end

/-! ### What waits after a history -/

-- What the registry and the cell in flight keep of a history.
structure Tracked (h : List SessionCommand) : Prop where
  below : ∀ id ∈ requests hasHost h, id < (after hasHost h).registry.nextId
  increasing : (requests hasHost h).Pairwise (· < ·)
  ascending : (after hasHost h).registry.waiting.Pairwise (· < ·)
  requested : ∀ id ∈ (after hasHost h).registry.waiting, id ∈ requests hasHost h
  -- A cell waits under its latest request.
  suspension (f : InFlight) : (after hasHost h).inFlight = some f →
    f.suspension = if f.machine.isWaiting then (requests hasHost h).getLast? else none
  numbered (f : InFlight) : (after hasHost h).inFlight = some f → f.machine.isWaiting = true →
    requests hasHost h ≠ []
  waiting (id : Nat) : id ∈ (after hasHost h).registry.waiting
    ↔ Suspended hasHost id h ∨ DroppedSuspended hasHost id h ∧ ¬Resumed hasHost id h
  -- Only what was resumed has an answer.
  answers : ∀ a ∈ (after hasHost h).registry.answers, Resumed hasHost a.1 h

variable {hasHost} {h : List SessionCommand} {c : SessionCommand} {id : Nat} {f : InFlight}

theorem tracked_nil : Tracked hasHost [] where
  below := by simp [requests]
  increasing := by simp [requests]
  ascending := by simp [after, new, Registry.new]
  requested := by simp [after, new, Registry.new]
  suspension f hf := by cases hf
  numbered f hf := by cases hf
  waiting id := by
    refine iff_of_false (by simp [after, new, Registry.new]) ?_
    rintro (⟨⟨f, hf, -⟩, -, -⟩ | ⟨⟨earlier, hsuffix, -⟩, -⟩)
    · cases hf
    · cases List.suffix_nil.mp hsuffix
  answers := by simp [after, new, Registry.new]

theorem suspended_iff (hk : Tracked hasHost h) : Suspended hasHost id h
    ↔ (after hasHost h).inFlight.bind (·.suspension) = some id ∧ ¬Resumed hasHost id h := by
  constructor
  · rintro ⟨⟨f, hf, hwaits⟩, hlatest, hopen⟩
    refine ⟨?_, hopen⟩
    rw [hf, Option.bind_some, hk.suspension f hf, if_pos hwaits, hlatest]
  · rintro ⟨hsuspension, hopen⟩
    obtain ⟨f, hf, hid⟩ := Option.bind_eq_some_iff.mp hsuspension
    rw [hk.suspension f hf] at hid
    split at hid
    · exact ⟨⟨f, hf, ‹_›⟩, hid, hopen⟩
    · cases hid

theorem requests_of_quiet (htold : ((after hasHost h).obey c).1.filterMap Notice.request? = []) :
    requests hasHost (c :: h) = requests hasHost h := by
  rw [requests, htold, List.map_nil, List.append_nil]

theorem Resumed.requested (hid : Resumed hasHost id h) : id ∈ requests hasHost h := by
  induction h
  case nil =>
    obtain ⟨v, earlier, hsuffix, -⟩ := hid
    cases List.suffix_nil.mp hsuffix
  case cons c h ih =>
    rw [requests]
    obtain ⟨-, hid⟩ | hid := resumed_cons.mp hid
    · exact List.mem_append_left _ hid
    · exact List.mem_append_left _ (ih hid)

-- A command that tells no request. The cell in flight stays as it is, or was not suspended and is
-- not now.
theorem Tracked.quiet (hk : Tracked hasHost h) (hdeliver : ∀ id v, c ≠ .deliver id v)
    (hdrop : c ≠ .drop) (htold : ((after hasHost h).obey c).1.filterMap Notice.request? = [])
    (hwaiting : (after hasHost (c :: h)).registry.waiting = (after hasHost h).registry.waiting)
    (hr : (after hasHost h).registry.Onward (after hasHost (c :: h)).registry)
    (hflight : (after hasHost (c :: h)).inFlight = (after hasHost h).inFlight
      ∨ (∀ id, ¬Suspended hasHost id h) ∧ ∀ f, (after hasHost (c :: h)).inFlight = some f →
        f.suspension = none ∧ f.machine.isWaiting = false) : Tracked hasHost (c :: h) := by
  have hrequests := requests_of_quiet htold
  have hresumed (id : Nat) : Resumed hasHost id (c :: h) ↔ Resumed hasHost id h :=
    resumed_cons_of_ne hdeliver
  constructor
  case below =>
    rw [hrequests]
    exact fun id hid => Nat.lt_of_lt_of_le (hk.below id hid) hr.nextId
  case increasing => rw [hrequests]; exact hk.increasing
  case ascending => rw [hwaiting]; exact hk.ascending
  case requested => rw [hwaiting, hrequests]; exact hk.requested
  case suspension =>
    intro f hf
    rw [hrequests]
    obtain hsame | ⟨-, hnot⟩ := hflight
    · exact hk.suspension f (hsame ▸ hf)
    · rw [(hnot f hf).1, (hnot f hf).2, if_neg Bool.false_ne_true]
  case numbered =>
    intro f hf hwaits
    rw [hrequests]
    obtain hsame | ⟨-, hnot⟩ := hflight
    · exact hk.numbered f (hsame ▸ hf) hwaits
    · exact absurd hwaits (by rw [(hnot f hf).2]; exact Bool.false_ne_true)
  case waiting =>
    intro id
    have hsuspended : Suspended hasHost id (c :: h) ↔ Suspended hasHost id h := by
      obtain hsame | ⟨hfree, hnot⟩ := hflight
      · constructor
        · rintro ⟨hwaits, hlatest, hopen⟩
          exact ⟨hsame ▸ hwaits, hrequests ▸ hlatest, (hresumed id).not.mp hopen⟩
        · rintro ⟨hwaits, hlatest, hopen⟩
          exact ⟨hsame ▸ hwaits, hrequests ▸ hlatest, (hresumed id).not.mpr hopen⟩
      · refine iff_of_false ?_ (hfree id)
        rintro ⟨⟨f, hf, hwaits⟩, -, -⟩
        rw [(hnot f hf).2] at hwaits
        cases hwaits
    rw [hwaiting, hsuspended, hresumed, droppedSuspended_cons_of_ne hdrop]
    exact hk.waiting id
  case answers => exact fun a ha => (hresumed a.1).mpr (hk.answers a (hr.answers ha))

-- A command that has a cell ask, while no request is open.
theorem Tracked.asks (hk : Tracked hasHost h) (hdeliver : ∀ id v, c ≠ .deliver id v)
    (hdrop : c ≠ .drop) (hfree : ∀ id, ¬Suspended hasHost id h) {e : SuspendEvent}
    (htold : ((after hasHost h).obey c).1.filterMap Notice.request? = [e])
    (hwaiting : (after hasHost (c :: h)).registry.waiting
      = (after hasHost h).registry.waiting ++ [e.id])
    (hr : (after hasHost h).registry.Onward (after hasHost (c :: h)).registry)
    (hfresh : (after hasHost h).registry.nextId ≤ e.id)
    (hused : e.id < (after hasHost (c :: h)).registry.nextId)
    (hf : (after hasHost (c :: h)).inFlight = some f) (hsuspension : f.suspension = some e.id)
    (hwaits : f.machine.isWaiting = true) : Tracked hasHost (c :: h) := by
  have hrequests : requests hasHost (c :: h) = requests hasHost h ++ [e.id] := by
    rw [requests, htold, List.map_singleton]
  have hlatest : (requests hasHost (c :: h)).getLast? = some e.id := by
    rw [hrequests, List.getLast?_concat]
  have hresumed (id : Nat) : Resumed hasHost id (c :: h) ↔ Resumed hasHost id h :=
    resumed_cons_of_ne hdeliver
  have hnew : ∀ id ∈ requests hasHost h, id < e.id := fun id hid =>
    Nat.lt_of_lt_of_le (hk.below id hid) hfresh
  constructor
  case below =>
    rw [hrequests]
    refine List.forall_mem_append.mpr ⟨fun id hid => ?_, fun id hid => ?_⟩
    · exact Nat.lt_of_lt_of_le (hk.below id hid) hr.nextId
    · exact List.mem_singleton.mp hid ▸ hused
  case increasing =>
    rw [hrequests, List.pairwise_append]
    refine ⟨hk.increasing, List.pairwise_singleton _ _, fun id hid j hj => ?_⟩
    exact List.mem_singleton.mp hj ▸ hnew id hid
  case ascending =>
    rw [hwaiting, List.pairwise_append]
    refine ⟨hk.ascending, List.pairwise_singleton _ _, fun id hid j hj => ?_⟩
    exact List.mem_singleton.mp hj ▸ hnew id (hk.requested id hid)
  case requested =>
    rw [hwaiting, hrequests]
    refine List.forall_mem_append.mpr ⟨fun id hid => ?_, fun id hid => ?_⟩
    · exact List.mem_append_left _ (hk.requested id hid)
    · exact List.mem_append_right _ hid
  case suspension =>
    intro g hg
    obtain rfl := Option.some.inj (hf.symm.trans hg)
    rw [if_pos hwaits, hlatest, hsuspension]
  case numbered =>
    intro g _ _ hnone
    rw [hnone] at hlatest
    cases hlatest
  case waiting =>
    intro id
    have hsuspended : Suspended hasHost id (c :: h) ↔ id = e.id := by
      constructor
      · rintro ⟨-, hid, -⟩
        exact Option.some.inj (hid.symm.trans hlatest)
      · rintro rfl
        refine ⟨⟨f, hf, hwaits⟩, hlatest, fun hanswered => ?_⟩
        exact Nat.lt_irrefl _ (hnew e.id ((hresumed e.id).mp hanswered).requested)
    rw [hwaiting, List.mem_append, List.mem_singleton, hk.waiting, or_iff_right (hfree id),
      droppedSuspended_cons_of_ne hdrop, hresumed, hsuspended]
    exact or_comm
  case answers => exact fun a ha => (hresumed a.1).mpr (hk.answers a (hr.answers ha))

theorem Tracked.goes (hk : Tracked hasHost h) (hdeliver : ∀ id v, c ≠ .deliver id v)
    (hdrop : c ≠ .drop) (hfree : ∀ id, ¬Suspended hasHost id h)
    (hstep : Standing (after hasHost h).registry ((after hasHost h).obey c)) :
    Tracked hasHost (c :: h) := by
  have hafter : (after hasHost h).obey c
      = (((after hasHost h).obey c).1, after hasHost (c :: h)) := rfl
  rw [hafter] at hstep
  cases hstep with
  | quiet htold hwaiting hr hf => exact hk.quiet hdeliver hdrop htold hwaiting hr (.inr ⟨hfree, hf⟩)
  | asks e htold hwaiting hr hfresh hused hf hsuspension hwaits =>
    exact hk.asks hdeliver hdrop hfree htold hwaiting hr hfresh hused hf hsuspension hwaits

-- A command that does nothing.
theorem Tracked.still (hk : Tracked hasHost h) (hdeliver : ∀ id v, c ≠ .deliver id v)
    (hdrop : c ≠ .drop) (hsame : (after hasHost h).obey c = ([], after hasHost h)) :
    Tracked hasHost (c :: h) := by
  have hafter : after hasHost (c :: h) = after hasHost h := congrArg Prod.snd hsame
  refine hk.quiet hdeliver hdrop ?_ ?_ ?_ (.inl ?_)
  · rw [hsame]; rfl
  · rw [hafter]
  · rw [hafter]; exact .refl _
  · rw [hafter]

-- An id that is resumed waits no more; its answer may be kept for the cell.
theorem Tracked.deliver (hk : Tracked hasHost h) (id : Nat) (v : String) :
    Tracked hasHost (.deliver id v :: h) := by
  have hrequests : requests hasHost (.deliver id v :: h) = requests hasHost h :=
    requests_of_quiet rfl
  have hresumed (j : Nat) : Resumed hasHost j (.deliver id v :: h)
      ↔ (j = id ∧ j ∈ requests hasHost h) ∨ Resumed hasHost j h := by
    simp [resumed_cons, eq_comm]
  have hleft (j : Nat) : DroppedSuspended hasHost j (.deliver id v :: h)
      ↔ DroppedSuspended hasHost j h := droppedSuspended_cons_of_ne nofun
  have hinFlight : (after hasHost (.deliver id v :: h)).inFlight = (after hasHost h).inFlight := rfl
  have hregistry : (after hasHost (.deliver id v :: h)).registry
      = ((after hasHost h).registry.resume id v).2 := rfl
  have hnext : ((after hasHost h).registry.resume id v).2.nextId
      = (after hasHost h).registry.nextId := by
    rw [Registry.resume]
    split
    · dsimp only
      split <;> rfl
    · rfl
  have hwaiting : ((after hasHost h).registry.resume id v).2.waiting
      = (after hasHost h).registry.waiting.erase id := by
    rw [Registry.resume]
    split
    · dsimp only
      split <;> rfl
    · exact (List.erase_of_not_mem ‹_›).symm
  have hanswers : ∀ a ∈ ((after hasHost h).registry.resume id v).2.answers,
      a ∈ (after hasHost h).registry.answers
        ∨ a.1 = id ∧ id ∈ (after hasHost h).registry.waiting := by
    intro a ha
    rw [Registry.resume] at ha
    split at ha
    · dsimp only at ha
      split at ha
      · exact .inl ha
      · obtain ha | ha := List.mem_append.mp ha
        · exact .inl ha
        · exact .inr ⟨congrArg Prod.fst (List.mem_singleton.mp ha), ‹_›⟩
    · exact .inl ha
  have hnodup : (after hasHost h).registry.waiting.Nodup := hk.ascending.imp Nat.ne_of_lt
  constructor
  case below => rw [hrequests, hregistry, hnext]; exact hk.below
  case increasing => rw [hrequests]; exact hk.increasing
  case ascending =>
    rw [hregistry, hwaiting]
    exact hk.ascending.sublist List.erase_sublist
  case requested =>
    rw [hregistry, hwaiting, hrequests]
    exact fun j hj => hk.requested j (List.mem_of_mem_erase hj)
  case suspension => rw [hinFlight, hrequests]; exact hk.suspension
  case numbered => rw [hinFlight, hrequests]; exact hk.numbered
  case waiting =>
    intro j
    rw [hregistry, hwaiting, hnodup.mem_erase_iff, hk.waiting, hleft]
    constructor
    · rintro ⟨hne, hj⟩
      have hopen (hj : ¬Resumed hasHost j h) : ¬Resumed hasHost j (.deliver id v :: h) :=
        (hresumed j).not.mpr (not_or_intro (fun h => hne h.1) hj)
      obtain ⟨hwaits, hlatest, hj⟩ | ⟨hdropped, hj⟩ := hj
      · exact .inl ⟨hwaits, hrequests ▸ hlatest, hopen hj⟩
      · exact .inr ⟨hdropped, hopen hj⟩
    · intro hj
      have hopen : ¬Resumed hasHost j (.deliver id v :: h) := by
        obtain ⟨-, -, hopen⟩ | ⟨-, hopen⟩ := hj
        · exact hopen
        · exact hopen
      have hbefore : Suspended hasHost j h ∨ DroppedSuspended hasHost j h ∧ ¬Resumed hasHost j h := by
        have hj' : ¬Resumed hasHost j h := fun h => hopen ((hresumed j).mpr (.inr h))
        obtain ⟨hwaits, hlatest, -⟩ | ⟨hdropped, -⟩ := hj
        · exact .inl ⟨hwaits, hrequests ▸ hlatest, hj'⟩
        · exact .inr ⟨hdropped, hj'⟩
      refine ⟨?_, hbefore⟩
      rintro rfl
      exact hopen ((hresumed j).mpr (.inl ⟨rfl, hk.requested j ((hk.waiting j).mpr hbefore)⟩))
  case answers =>
    intro a ha
    rw [hregistry] at ha
    rw [hresumed]
    obtain ha | ⟨heq, hid⟩ := hanswers a ha
    · exact .inr (hk.answers a ha)
    · exact .inl ⟨heq, heq ▸ hk.requested id hid⟩

-- What waits for a cell that is dropped waits on for nobody.
theorem Tracked.drop (hk : Tracked hasHost h) : Tracked hasHost (.drop :: h) := by
  have hrequests : requests hasHost (.drop :: h) = requests hasHost h := requests_of_quiet rfl
  have hresumed (j : Nat) : Resumed hasHost j (.drop :: h) ↔ Resumed hasHost j h :=
    resumed_cons_of_ne nofun
  have hleft (j : Nat) : DroppedSuspended hasHost j (.drop :: h)
      ↔ Suspended hasHost j h ∨ DroppedSuspended hasHost j h := by
    simp [droppedSuspended_cons]
  have hafter : after hasHost (.drop :: h) = (after hasHost h).drop := rfl
  have hregistry : (after hasHost h).drop.registry.nextId = (after hasHost h).registry.nextId
      ∧ (after hasHost h).drop.registry.waiting = (after hasHost h).registry.waiting
      ∧ (after hasHost h).drop.registry.answers ⊆ (after hasHost h).registry.answers := by
    rw [Session.drop]
    split
    · exact ⟨rfl, rfl, List.Subset.refl _⟩
    · cases InFlight.suspension _
      · exact ⟨rfl, rfl, List.Subset.refl _⟩
      · exact ⟨rfl, rfl, List.filter_subset_self _⟩
  have hidle : (after hasHost h).drop.inFlight = none := by
    rw [Session.drop]
    split
    · exact ‹_›
    · rfl
  obtain ⟨hnext, hwaiting, hanswers⟩ := hregistry
  constructor
  case below => rw [hrequests, hafter, hnext]; exact hk.below
  case increasing => rw [hrequests]; exact hk.increasing
  case ascending => rw [hafter, hwaiting]; exact hk.ascending
  case requested => rw [hafter, hwaiting, hrequests]; exact hk.requested
  case suspension =>
    intro f hf
    rw [hafter, hidle] at hf
    cases hf
  case numbered =>
    intro f hf
    rw [hafter, hidle] at hf
    cases hf
  case waiting =>
    intro j
    have hnot : ¬Suspended hasHost j (.drop :: h) := by
      rintro ⟨⟨f, hf, -⟩, -, -⟩
      rw [hafter, hidle] at hf
      cases hf
    rw [hafter, hwaiting, hk.waiting, or_iff_right hnot, hleft, hresumed, or_and_right]
    exact or_congr_left (and_iff_left_of_imp Suspended.unanswered).symm
  case answers =>
    rw [hafter]
    exact fun a ha => (hresumed a.1).mpr (hk.answers a (hanswers ha))

theorem Tracked.begin (hk : Tracked hasHost h) (formatter : HeapFormatter) (cell source : String) :
    Tracked hasHost (.begin formatter cell source :: h) := by
  cases hbegin : (after hasHost h).begin? formatter cell source with
  | none =>
    have hsame : (after hasHost h).obey (.begin formatter cell source)
        = ([], after hasHost h) := by
      rw [obey, hbegin, Option.getD_none]
    exact hk.still nofun nofun hsame
  | some out =>
    have hidle : (after hasHost h).inFlight = none := by
      rw [begin?] at hbegin
      split at hbegin
      · cases hbegin
      · simpa [isBusy] using ‹¬(after hasHost h).isBusy = true›
    refine hk.goes nofun nofun ?_ ?_
    · rintro id ⟨⟨f, hf, -⟩, -, -⟩
      rw [hidle] at hf
      cases hf
    · rw [obey, hbegin, Option.getD_some]
      rw [begin?] at hbegin
      split at hbegin
      · cases hbegin
      · dsimp only at hbegin
        split at hbegin
        · obtain rfl := Option.some.inj hbegin
          exact standing_conclude (by rfl) (by exact .refl _) _ _
        · obtain rfl := Option.some.inj hbegin
          refine .quiet rfl rfl (.refl _) fun f hf => ?_
          obtain rfl := Option.some.inj hf
          exact ⟨rfl, rfl⟩

theorem Tracked.progress (hk : Tracked hasHost h) (fuel : Nat) (formatter : HeapFormatter) :
    Tracked hasHost (.progress fuel formatter :: h) := by
  have hstill (hsame : (after hasHost h).progress fuel formatter = ([], after hasHost h)) :
      Tracked hasHost (.progress fuel formatter :: h) := hk.still nofun nofun hsame
  have hgoes (hfree : ∀ id, ¬Suspended hasHost id h)
      (hstep : Standing (after hasHost h).registry ((after hasHost h).progress fuel formatter)) :
      Tracked hasHost (.progress fuel formatter :: h) :=
    hk.goes nofun nofun hfree hstep
  cases hf : (after hasHost h).inFlight with
  | none => exact hstill (progress_of_idle hf)
  | some f =>
    have hcell {j : Nat} (hj : Suspended hasHost j h) : f.suspension = some j := by
      obtain ⟨hcell, -⟩ := (suspended_iff hk).mp hj
      rwa [hf, Option.bind_some] at hcell
    cases hsuspension : f.suspension with
    | none =>
      refine hgoes (fun id hid => ?_) ?_
      · exact Option.some_ne_none id ((hcell hid).symm.trans hsuspension)
      · simp only [Session.progress, hf, hsuspension]
        exact standing_advance rfl (.refl _)
    | some id =>
      by_cases hanswer : id ∈ (after hasHost h).registry.answers.map (·.1)
      case neg => exact hstill (progress_of_waiting hf hsuspension hanswer)
      case pos =>
        obtain ⟨a, ha, rfl⟩ := List.mem_map.mp hanswer
        have hfree (j : Nat) (hj : Suspended hasHost j h) : False := by
          obtain rfl := Option.some.inj ((hcell hj).symm.trans hsuspension)
          exact hj.unanswered (hk.answers a ha)
        have hwaiting := Registry.waiting_collect (r := (after hasHost h).registry) a.1
        have hcollect := Registry.onward_collect (r := (after hasHost h).registry) a.1
        cases hfound : (after hasHost h).registry.collect a.1 with
        | mk answer registry =>
          rw [hfound] at hcollect hwaiting
          cases answer with
          | none => exact hstill (by simp only [Session.progress, hf, hsuspension, hfound])
          | some v =>
            refine hgoes hfree ?_
            simp only [Session.progress, hf, hsuspension, hfound]
            exact standing_advance (by exact hwaiting) (by exact hcollect)

theorem tracked (h : List SessionCommand) : Tracked hasHost h := by
  induction h
  case nil => exact tracked_nil
  case cons c h ih =>
    cases c
    case begin formatter cell source => exact ih.begin formatter cell source
    case progress fuel formatter => exact ih.progress fuel formatter
    case deliver id v => exact ih.deliver id v
    case drop => exact ih.drop
    case hangUp => exact ih.quiet nofun nofun rfl rfl ⟨Nat.le_refl _, fun _ => id, rfl⟩ (.inl rfl)
    case write w => exact ih.quiet nofun nofun rfl rfl (.refl _) (.inl rfl)

-- What waits is the request of the cell that is suspended, and those of the cells that were dropped
-- while they were suspended and have not been resumed since. No request uses an id again.
theorem waits_suspended_or_dropped (hasHost : Bool) (h : List SessionCommand) :
    (requests hasHost h).Pairwise (· < ·) ∧ (after hasHost h).registry.waiting.Pairwise (· < ·)
      ∧ (∀ f, (after hasHost h).inFlight = some f → f.machine.isWaiting = true →
        ∃ id, (requests hasHost h).getLast? = some id)
      ∧ ∀ id, id ∈ (after hasHost h).registry.waiting
        ↔ Suspended hasHost id h ∨ DroppedSuspended hasHost id h ∧ ¬Resumed hasHost id h := by
  have hk : Tracked hasHost h := tracked h
  refine ⟨hk.increasing, hk.ascending, fun f hf hwaits => ?_, hk.waiting⟩
  exact List.getLast?_isSome.mpr (hk.numbered f hf hwaits) |> Option.isSome_iff_exists.mp

-- A cell is dropped while it waits, and another one asks.
example : (after true [.progress 100 reprFormatter, .begin reprFormatter "c2" "await input()", .drop,
    .progress 100 reprFormatter, .begin reprFormatter "c1" "await input()"]).registry.waiting
      = [0, 1] := by
  decide +kernel

end Session
end NoteCell
