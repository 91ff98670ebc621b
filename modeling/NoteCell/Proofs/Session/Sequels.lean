import NoteCell.Proofs.Session.Captured

/-!
What a cell tells when it goes on: what it sends to the host, in order, and then that it waits or
has ended, if it does not run on.
-/
namespace NoteCell

-- What goes to the host at once.
inductive Notice.Sent : Notice → Prop where
  | text (text : String) : Sent (.hostText text)
  | image (data : String) : Sent (.hostImage data)

theorem Effect.sent_of_notice? {e : Effect} {n : Notice} (h : e.notice? = some n) : n.Sent := by
  cases e <;> cases h
  case hostText text => exact .text text
  case hostImage data => exact .image data

namespace Registry

variable {r r' r'' : Registry}

-- What becomes of a registry while no answer comes in.
structure Onward (r r' : Registry) : Prop where
  nextId : r.nextId ≤ r'.nextId
  answers : r'.answers ⊆ r.answers
  givenUp : r'.givenUp = r.givenUp

theorem Onward.refl (r : Registry) : r.Onward r := ⟨Nat.le_refl _, fun _ => id, rfl⟩

theorem Onward.trans (h : r.Onward r') (h' : r'.Onward r'') : r.Onward r'' :=
  ⟨h.nextId.trans h'.nextId, fun _ ha => h.answers (h'.answers ha), h'.givenUp.trans h.givenUp⟩

theorem onward_register (cell prompt : String) : r.Onward (r.register cell prompt).2 := by
  rw [register]
  split
  all_goals exact ⟨Nat.le_succ _, fun _ => id, rfl⟩

theorem onward_collect (id : Nat) : r.Onward (r.collect id).2 := by
  rw [collect]
  split
  · exact ⟨Nat.le_refl _, List.filter_subset_self _, rfl⟩
  · exact .refl r

theorem id_of_register {cell prompt : String} {e : SuspendEvent}
    (h : r.register cell prompt = (.ok e, r')) : e.id = r.nextId ∧ r'.nextId = r.nextId + 1 := by
  rw [register] at h
  split at h
  · obtain ⟨he, rfl⟩ := Prod.mk.inj h
    rw [← Except.ok.inj he]
    exact ⟨rfl, rfl⟩
  · cases (Prod.mk.inj h).1

-- No answer was handed in for what cannot be collected.
theorem collect_eq_none {id : Nat} (h : id ∉ r.answers.map (·.1)) : (r.collect id).1 = none := by
  rw [collect]
  split
  · have hfound := ‹_ = some _›
    refine absurd (List.mem_map.mpr ⟨_, List.mem_of_find?_eq_some hfound, ?_⟩) h
    simpa using List.find?_some hfound
  · rfl

end Registry

namespace Session

-- What a cell tells when it goes on, and the session after it.
inductive Sequel (r : Registry) (c : String) : List Notice × Session → Prop where
  | on {sent : List Notice} {s : Session} {f : InFlight} (hsent : ∀ n ∈ sent, n.Sent)
    (hr : r.Onward s.registry) (hf : s.inFlight = some f) (hcell : f.cell = c) :
    Sequel r c (sent, s)
  | asks {sent : List Notice} {s : Session} {f : InFlight} (e : SuspendEvent)
    (hsent : ∀ n ∈ sent, n.Sent) (hr : r.Onward s.registry) (hf : s.inFlight = some f)
    (hcell : f.cell = c) (hwaits : f.suspension = some e.id) (hfresh : r.nextId ≤ e.id)
    (hused : e.id < s.registry.nextId) : Sequel r c (sent ++ [.request e], s)
  | ends {sent : List Notice} {s : Session} (result : CellResult) (hsent : ∀ n ∈ sent, n.Sent)
    (hr : r.Onward s.registry) (hf : s.inFlight = none) :
    Sequel r c (sent ++ [.result c result], s)

variable {s : Session} {r : Registry} {c : String} {capture : Capture} {m : Machine}
  {formatter : HeapFormatter} {fuel : Nat} {f : InFlight}

theorem Sequel.tell {told : List Notice × Session} (h : Sequel r c told) {sent : List Notice}
    (hsent : ∀ n ∈ sent, n.Sent) : Sequel r c (sent ++ told.1, told.2) := by
  have happend {more : List Notice} (hmore : ∀ n ∈ more, n.Sent) : ∀ n ∈ sent ++ more, n.Sent :=
    List.forall_mem_append.mpr ⟨hsent, hmore⟩
  cases h
  case on hmore hr hf hcell => exact .on (happend hmore) hr hf hcell
  case asks e hmore hr hf hcell hwaits hfresh hused =>
    rw [← List.append_assoc]
    exact .asks e (happend hmore) hr hf hcell hwaits hfresh hused
  case ends result hmore hr hf =>
    rw [← List.append_assoc]
    exact .ends result (happend hmore) hr hf

theorem sequel_conclude (hr : r.Onward s.registry) (h : Heap) (evaluation : Evaluation Value) :
    Sequel r c (s.conclude formatter c capture h evaluation) :=
  .ends _ (List.forall_mem_nil Notice.Sent) hr rfl

theorem sequel_settle (hr : r.Onward s.registry) :
    Sequel r c (s.settle formatter c capture m) := by
  rw [settle]
  split
  case h_1 => exact sequel_conclude hr _ _
  case h_2 =>
    rename_i waiter prompt _
    have hregister := hr.trans (Registry.onward_register (r := s.registry) waiter prompt)
    split
    case h_1 hasked =>
      rw [hasked] at hregister
      obtain ⟨hid, hnext⟩ := Registry.id_of_register hasked
      exact .asks _ (List.forall_mem_nil Notice.Sent) hregister rfl rfl rfl
        (hr.nextId.trans hid.ge) (hid ▸ hnext ▸ Nat.lt_succ_self _)
    case h_2 hrefused =>
      rw [hrefused] at hregister
      exact sequel_conclude (by exact hregister) _ _
  case h_3 => exact .on (List.forall_mem_nil Notice.Sent) hr rfl rfl

theorem sequel_advance (hr : r.Onward s.registry) :
    Sequel r c (s.advance fuel formatter c capture m) := by
  have hsent : ∀ n ∈ (m.run fuel).world.effects.reverse.filterMap Effect.notice?, n.Sent := by
    intro n hn
    obtain ⟨e, -, he⟩ := List.mem_filterMap.mp hn
    exact Effect.sent_of_notice? he
  exact (sequel_settle (by exact hr)).tell hsent

-- A cell that waits and has no answer tells nothing.
theorem progress_of_waiting {id : Nat} (hf : s.inFlight = some f) (hwaits : f.suspension = some id)
    (hanswer : id ∉ s.registry.answers.map (·.1)) : s.progress fuel formatter = ([], s) := by
  have hcollect := Registry.collect_eq_none hanswer
  rw [progress, hf]
  simp only [hwaits]
  split
  · rfl
  · rw [‹s.registry.collect id = _›] at hcollect
    cases hcollect

theorem progress_of_idle (hf : s.inFlight = none) : s.progress fuel formatter = ([], s) := by
  rw [progress, hf]

theorem sequel_progress (hf : s.inFlight = some f) :
    Sequel s.registry f.cell (s.progress fuel formatter) := by
  rw [progress, hf]
  dsimp only
  split
  · exact sequel_advance (.refl _)
  · split
    · exact .on (List.forall_mem_nil Notice.Sent) (.refl _) hf rfl
    · have hcollect := Registry.onward_collect (r := s.registry) ‹Nat›
      rw [‹s.registry.collect _ = _›] at hcollect
      exact sequel_advance (by exact hcollect)

theorem sequel_begin? {told : List Notice × Session} {source : String}
    (h : s.begin? formatter c source = some told) : Sequel s.registry c told := by
  rw [begin?] at h
  split at h
  · cases h
  · dsimp only at h
    split at h
    · obtain rfl := Option.some.inj h
      exact sequel_conclude (by exact .refl _) _ _
    · obtain rfl := Option.some.inj h
      exact .on (List.forall_mem_nil Notice.Sent) (.refl _) rfl rfl

-- Nothing is sent before a cell goes on.
theorem not_sent_of_begin? {s' : Session} {told : List Notice} {source : String}
    (h : s.begin? formatter c source = some (told, s')) : ∀ n ∈ told, ¬n.Sent := by
  rw [begin?] at h
  split at h
  · cases h
  · dsimp only at h
    split at h
    · obtain ⟨rfl, -⟩ := Prod.mk.inj (Option.some.inj h)
      intro n hn hsent
      rw [List.mem_singleton.mp hn] at hsent
      cases hsent
    · obtain ⟨rfl, -⟩ := Prod.mk.inj (Option.some.inj h)
      exact List.forall_mem_nil _

-- Any source is taken on by a session that is free.
theorem begin?_isSome (hidle : s.inFlight = none) (formatter : HeapFormatter) (c source : String) :
    (s.begin? formatter c source).isSome := by
  rw [begin?, isBusy, hidle, Option.isSome_none, if_neg Bool.false_ne_true]
  dsimp only
  split <;> rfl

end Session
end NoteCell
