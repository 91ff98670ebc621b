import Mathlib.Data.List.Basic
import NoteCell.Suspension.Desk

/-!
Histories of a desk: the commands that have been run, the latest first. A registry gives each id to
one wait, which waits until it is resumed and holds its answer until the wait collects it.
-/
namespace NoteCell.Desk

/-! ### Histories -/

-- A desk after some commands, the latest first.
def after : List DeskCommand → Desk
  | [] => new
  | c :: h => ((after h).run c).2

def answer (h : List DeskCommand) (c : DeskCommand) : DeskAnswer := ((after h).run c).1

-- Some command of a history stands to the ones before it as described.
def Happened (P : List DeskCommand → DeskCommand → Prop) : List DeskCommand → Prop
  | [] => False
  | c :: h => P h c ∨ Happened P h

-- The waits that were made, each with its cell and its prompt.
def made : List DeskCommand → List (String × String)
  | [] => []
  | .suspend cell prompt :: h => made h ++ [(cell, prompt)]
  | _ :: h => made h

-- A wait was polled, or dropped, after it had been made.
def Polled (n : Nat) : List DeskCommand → Prop :=
  Happened fun h c => c = .poll n ∧ n < (made h).length

def Dropped (n : Nat) : List DeskCommand → Prop :=
  Happened fun h c => c = .drop n ∧ n < (made h).length

-- A wait whose next poll is its first.
structure Fresh (n : Nat) (h : List DeskCommand) : Prop where
  made : n < (made h).length
  not_polled : ¬Polled n h
  not_dropped : ¬Dropped n h

-- The first poll of a wait found the host listening, and announced the wait under the id.
def Registered (id n : Nat) : List DeskCommand → Prop :=
  Happened fun h c => c = .poll n ∧ Fresh n h ∧ .hangUp ∉ h
    ∧ (after (c :: h)).events.getLast?.map (·.id) = some id

-- An id was resumed, with success or without, after it had been registered.
def Resumed (id : Nat) : List DeskCommand → Prop :=
  Happened fun h c => (∃ v, c = .resume id v) ∧ ∃ n, Registered id n h

def Delivered (id : Nat) (v : String) : List DeskCommand → Prop :=
  Happened fun h c => c = .resume id v ∧ answer h c = .resumed (.ok ())

-- A wait has completed with a value.
def Completed (n : Nat) : List DeskCommand → Prop :=
  Happened fun h c => c = .poll n ∧ ∃ v, answer h c = .poll (.ready v)

theorem answer_resume (h : List DeskCommand) (id : Nat) (v : String) :
    answer h (.resume id v) = .resumed ((after h).registry.resume id v).1 := rfl

theorem answer_poll (h : List DeskCommand) (n : Nat) :
    answer h (.poll n) = .poll ((after h).poll n).1 := rfl

section

variable {P : List DeskCommand → DeskCommand → Prop} {h : List DeskCommand} {c : DeskCommand}
  {id m n : Nat} {v : String}

theorem polled_cons :
    Polled n (c :: h) ↔ (c = .poll n ∧ n < (made h).length) ∨ Polled n h := Iff.rfl

theorem dropped_cons :
    Dropped n (c :: h) ↔ (c = .drop n ∧ n < (made h).length) ∨ Dropped n h := Iff.rfl

theorem registered_cons : Registered id n (c :: h) ↔ (c = .poll n ∧ Fresh n h ∧ .hangUp ∉ h
    ∧ (after (c :: h)).events.getLast?.map (·.id) = some id) ∨ Registered id n h := Iff.rfl

theorem resumed_cons : Resumed id (c :: h)
    ↔ ((∃ v, c = .resume id v) ∧ ∃ n, Registered id n h) ∨ Resumed id h := Iff.rfl

theorem delivered_cons : Delivered id v (c :: h)
    ↔ (c = .resume id v ∧ answer h c = .resumed (.ok ())) ∨ Delivered id v h := Iff.rfl

theorem completed_cons : Completed n (c :: h)
    ↔ (c = .poll n ∧ ∃ v, answer h c = .poll (.ready v)) ∨ Completed n h := Iff.rfl

theorem prefix_made (c : DeskCommand) (h : List DeskCommand) : made h <+: made (c :: h) := by
  cases c <;> simp [made]

-- What happens to a wait only when it has been made.
theorem lt_of_happened (hP : ∀ h c, P h c → n < (made h).length) (hh : Happened P h) :
    n < (made h).length := by
  induction h
  case nil => cases hh
  case cons c h ih =>
    refine Nat.lt_of_lt_of_le ?_ (prefix_made c h).length_le
    obtain hc | hh := hh
    · exact hP h c hc
    · exact ih hh

theorem Polled.lt (hn : Polled n h) : n < (made h).length :=
  lt_of_happened (fun _ _ => And.right) hn

theorem Dropped.lt (hn : Dropped n h) : n < (made h).length :=
  lt_of_happened (fun _ _ => And.right) hn

theorem Resumed.exists_registered (hid : Resumed id h) : ∃ n, Registered id n h := by
  induction h
  case nil => cases hid
  case cons c h ih =>
    obtain ⟨-, n, hn⟩ | hid := hid
    · exact ⟨n, .inr hn⟩
    · obtain ⟨n, hn⟩ := ih hid
      exact ⟨n, .inr hn⟩

/-! ### First polls -/

theorem fresh_iff : Fresh n h ↔ n < (made h).length ∧ ¬Polled n h ∧ ¬Dropped n h :=
  ⟨fun hn => ⟨hn.made, hn.not_polled, hn.not_dropped⟩, fun hn => ⟨hn.1, hn.2.1, hn.2.2⟩⟩

theorem Fresh.exists_made (hn : Fresh n h) : ∃ r, (Desk.made h)[n]? = some r :=
  ⟨_, List.getElem?_eq_getElem hn.made⟩

theorem fresh_cons (hpoll : ∀ n, c ≠ .poll n) (hdrop : ∀ n, c ≠ .drop n) :
    Fresh n (c :: h) ↔ n < (made (c :: h)).length ∧ ¬Polled n h ∧ ¬Dropped n h := by
  rw [fresh_iff, polled_cons, dropped_cons]
  simp [hpoll, hdrop]

theorem fresh_drop : Fresh m (.drop n :: h) ↔ Fresh m h ∧ m ≠ n := by
  rw [fresh_iff, fresh_iff, polled_cons, dropped_cons]
  simp only [made, reduceCtorEq, false_and, false_or, DeskCommand.drop.injEq]
  constructor
  · rintro ⟨hm, hp, hd⟩
    rw [not_or] at hd
    exact ⟨⟨hm, hp, hd.2⟩, fun heq => hd.1 ⟨heq.symm, hm⟩⟩
  · rintro ⟨⟨hm, hp, hd⟩, hne⟩
    exact ⟨hm, hp, by simp [hd, Ne.symm hne]⟩

theorem fresh_poll : Fresh m (.poll n :: h) ↔ Fresh m h ∧ m ≠ n := by
  rw [fresh_iff, fresh_iff, polled_cons, dropped_cons]
  simp only [made, reduceCtorEq, false_and, false_or, DeskCommand.poll.injEq]
  constructor
  · rintro ⟨hm, hp, hd⟩
    rw [not_or] at hp
    exact ⟨⟨hm, hp.2, hd⟩, fun heq => hp.1 ⟨heq.symm, hm⟩⟩
  · rintro ⟨⟨hm, hp, hd⟩, hne⟩
    exact ⟨hm, by simp [hp, Ne.symm hne], hd⟩

theorem registered_poll_of_not_fresh (hn : ¬Fresh n h) :
    Registered id m (.poll n :: h) ↔ Registered id m h := by
  rw [registered_cons]
  refine or_iff_right_of_imp ?_
  rintro ⟨heq, hm, -⟩
  exact absurd (DeskCommand.poll.inj heq ▸ hm) hn

end

/-! ### Ids -/

-- The ids that were given.
structure Numbered (h : List DeskCommand) : Prop where
  below : ∀ e ∈ (after h).events, e.id < (after h).registry.nextId
  increasing : ((after h).events.map (·.id)).Pairwise (· < ·)
  announced (id n : Nat) : Registered id n h → id < (after h).registry.nextId ∧ Polled n h
  oneWait (id m n : Nat) : Registered id m h → Registered id n h → m = n
  oneId (id j n : Nat) : Registered id n h → Registered j n h → id = j

-- What the registry holds of them.
structure Answerable (h : List DeskCommand) : Prop where
  ascending : (after h).registry.waiting.Pairwise (· < ·)
  waiting (id : Nat) :
    id ∈ (after h).registry.waiting ↔ (∃ n, Registered id n h) ∧ ¬Resumed id h
  givenUp (id n : Nat) : Registered id n h → ¬Resumed id h →
    (id ∈ (after h).registry.givenUp ↔ Dropped n h)
  givenUpBelow : ∀ id ∈ (after h).registry.givenUp, id < (after h).registry.nextId
  answers (id : Nat) (v : String) : (id, v) ∈ (after h).registry.answers
    ↔ Delivered id v h ∧ ∃ n, Registered id n h ∧ ¬Dropped n h ∧ ¬Completed n h
  oneAnswer : ((after h).registry.answers.map (·.1)).Nodup
  delivered (id : Nat) (v : String) : Delivered id v h → Resumed id h
  completed (id n : Nat) : Completed n h → Registered id n h → Resumed id h
  completedPolled (n : Nat) : Completed n h → Polled n h

theorem numbered_nil : Numbered [] where
  below := by simp [after, new]
  increasing := by simp [after, new]
  announced _ _ := False.elim
  oneWait _ _ _ := False.elim
  oneId _ _ _ := False.elim

theorem answerable_nil : Answerable [] where
  ascending := by simp [after, new, Registry.new]
  waiting := by simp [after, new, Registry.new, Registered, Happened]
  givenUp _ _ := False.elim
  givenUpBelow := by simp [after, new, Registry.new]
  answers := by simp [after, new, Registry.new, Delivered, Happened]
  oneAnswer := by simp [after, new, Registry.new]
  delivered _ _ := False.elim
  completed _ _ := False.elim
  completedPolled _ := False.elim

section

variable {h : List DeskCommand} {c : DeskCommand} {id n : Nat} {v : String}

/-! ### Numbering -/

-- A command that announces no wait.
theorem Numbered.unannounced (hk : Numbered h)
    (hevents : (after (c :: h)).events = (after h).events)
    (hnext : (after h).registry.nextId ≤ (after (c :: h)).registry.nextId)
    (hregistered : ∀ id n, Registered id n (c :: h) ↔ Registered id n h) : Numbered (c :: h) where
  below := by
    rw [hevents]
    exact fun e he => Nat.lt_of_lt_of_le (hk.below e he) hnext
  increasing := hevents ▸ hk.increasing
  announced id n hn := by
    obtain ⟨hlt, hpolled⟩ := hk.announced id n ((hregistered id n).mp hn)
    exact ⟨Nat.lt_of_lt_of_le hlt hnext, .inr hpolled⟩
  oneWait id m n := by simpa only [hregistered] using hk.oneWait id m n
  oneId id j n := by simpa only [hregistered] using hk.oneId id j n

theorem Numbered.unregistered (hk : Numbered h) (hfresh : Fresh n h) : ¬Registered id n h :=
  fun hn => hfresh.not_polled (hk.announced id n hn).2

theorem Numbered.unused (hk : Numbered h) : ¬Registered (after h).registry.nextId n h :=
  fun hn => Nat.lt_irrefl _ (hk.announced _ n hn).1

theorem Numbered.unresumed (hk : Numbered h) : ¬Resumed (after h).registry.nextId h := fun hid => by
  obtain ⟨m, hm⟩ := hid.exists_registered
  exact hk.unused hm

-- A wait that is announced under the next id.
theorem Numbered.heard (hk : Numbered h) {cell prompt : String} (hfresh : Fresh n h)
    (hnext : (after (.poll n :: h)).registry.nextId = (after h).registry.nextId + 1)
    (hevents : (after (.poll n :: h)).events
      = (after h).events ++ [⟨(after h).registry.nextId, cell, prompt⟩])
    (hregistered : ∀ id m, Registered id m (.poll n :: h)
      ↔ (id = (after h).registry.nextId ∧ m = n) ∨ Registered id m h) :
    Numbered (.poll n :: h) := by
  constructor
  case below =>
    rw [hevents, hnext]
    intro e he
    obtain he | rfl := by simpa using he
    · exact Nat.lt_succ_of_lt (hk.below e he)
    · exact Nat.lt_succ_self _
  case increasing =>
    rw [hevents, List.map_append, List.pairwise_append]
    refine ⟨hk.increasing, List.pairwise_singleton _ _, ?_⟩
    intro id hid j hj
    obtain ⟨e, he, rfl⟩ := List.mem_map.mp hid
    obtain rfl : j = (after h).registry.nextId := by simpa using hj
    exact hk.below e he
  case announced =>
    intro id m hm
    rw [hnext]
    obtain ⟨rfl, rfl⟩ | hm := (hregistered id m).mp hm
    · exact ⟨Nat.lt_succ_self _, .inl ⟨rfl, hfresh.made⟩⟩
    · obtain ⟨hlt, hpolled⟩ := hk.announced id m hm
      exact ⟨Nat.lt_succ_of_lt hlt, .inr hpolled⟩
  case oneWait =>
    intro id m m' hm hm'
    obtain ⟨hid, hmn⟩ | hm := (hregistered id m).mp hm <;>
      obtain ⟨hid', hmn'⟩ | hm' := (hregistered id m').mp hm'
    · rw [hmn, hmn']
    · exact absurd (hid ▸ hm') hk.unused
    · exact absurd (hid' ▸ hm) hk.unused
    · exact hk.oneWait id m m' hm hm'
  case oneId =>
    intro id j m hm hm'
    obtain ⟨hid, hmn⟩ | hm := (hregistered id m).mp hm <;>
      obtain ⟨hj, hmn'⟩ | hm' := (hregistered j m).mp hm'
    · rw [hid, hj]
    · exact absurd (hmn ▸ hm') (hk.unregistered hfresh)
    · exact absurd (hmn' ▸ hm) (hk.unregistered hfresh)
    · exact hk.oneId id j m hm hm'

/-! ### Answers -/

-- A command that registers nothing, resumes nothing and ends no wait that may still be answered.
theorem Answerable.idle (hk : Answerable h)
    (hnext : (after h).registry.nextId ≤ (after (c :: h)).registry.nextId)
    (hwaiting : (after (c :: h)).registry.waiting = (after h).registry.waiting)
    (hgivenUp : (after (c :: h)).registry.givenUp = (after h).registry.givenUp)
    (hanswers : (after (c :: h)).registry.answers = (after h).registry.answers)
    (hregistered : ∀ id n, Registered id n (c :: h) ↔ Registered id n h)
    (hresumed : ∀ id, Resumed id (c :: h) ↔ Resumed id h)
    (hdelivered : ∀ id v, Delivered id v (c :: h) ↔ Delivered id v h)
    (hcompleted : ∀ n, Completed n (c :: h) ↔ Completed n h)
    (hdropped : ∀ id n, Registered id n h → ¬Completed n h → (Dropped n (c :: h) ↔ Dropped n h)) :
    Answerable (c :: h) where
  ascending := hwaiting ▸ hk.ascending
  waiting id := by simpa only [hwaiting, hregistered, hresumed] using hk.waiting id
  givenUp id n := by
    rw [hregistered, hresumed, hgivenUp]
    intro hn hopen
    have hnot : ¬Completed n h := fun hcompleted => hopen (hk.completed id n hcompleted hn)
    rw [hdropped id n hn hnot]
    exact hk.givenUp id n hn hopen
  answers id v := by
    rw [hanswers, hk.answers, hdelivered]
    refine and_congr_right fun _ => exists_congr fun n => ?_
    rw [hregistered, hcompleted]
    constructor
    · rintro ⟨hn, hd, hc⟩
      exact ⟨hn, fun h => hd ((hdropped id n hn hc).mp h), hc⟩
    · rintro ⟨hn, hd, hc⟩
      exact ⟨hn, fun h => hd ((hdropped id n hn hc).mpr h), hc⟩
  oneAnswer := hanswers ▸ hk.oneAnswer
  delivered id v := by simpa only [hdelivered, hresumed] using hk.delivered id v
  completed id n := by simpa only [hcompleted, hregistered, hresumed] using hk.completed id n
  completedPolled n hn := .inr (hk.completedPolled n ((hcompleted n).mp hn))
  givenUpBelow := by
    rw [hgivenUp]
    exact fun id hid => Nat.lt_of_lt_of_le (hk.givenUpBelow id hid) hnext

-- A resumption that takes an id out of those that wait.
theorem Answerable.resumed (hk : Answerable h) (hn : Registered id n h)
    (hopen : ¬Resumed id h) {answers : List (Nat × String)}
    (hregistry : (after (.resume id v :: h)).registry
      = { (after h).registry with waiting := (after h).registry.waiting.erase id, answers })
    (hanswers : ∀ j w, (j, w) ∈ answers ↔ Delivered j w (.resume id v :: h)
      ∧ ∃ m, Registered j m h ∧ ¬Dropped m h ∧ ¬Completed m h)
    (hone : (answers.map (·.1)).Nodup) : Answerable (.resume id v :: h) := by
  have hregistered (j m : Nat) : Registered j m (.resume id v :: h) ↔ Registered j m h := by
    simp [registered_cons]
  have hdropped (m : Nat) : Dropped m (.resume id v :: h) ↔ Dropped m h := by simp [dropped_cons]
  have hcompleted (m : Nat) : Completed m (.resume id v :: h) ↔ Completed m h := by
    simp [completed_cons]
  have hresumed (j : Nat) : Resumed j (.resume id v :: h) ↔ j = id ∨ Resumed j h := by
    rw [resumed_cons]
    constructor
    · rintro (⟨⟨w, hw⟩, -⟩ | hj)
      · exact .inl (DeskCommand.resume.inj hw).1.symm
      · exact .inr hj
    · rintro (rfl | hj)
      · exact .inl ⟨⟨v, rfl⟩, n, hn⟩
      · exact .inr hj
  have hnodup : (after h).registry.waiting.Nodup := hk.ascending.imp Nat.ne_of_lt
  constructor
  case ascending =>
    rw [hregistry]
    exact hk.ascending.sublist List.erase_sublist
  case waiting =>
    intro j
    simp only [hregistry, hnodup.mem_erase_iff, hk.waiting, hregistered, hresumed]
    tauto
  case givenUp =>
    intro j m hm hj
    rw [hresumed, not_or] at hj
    rw [hregistry, hdropped]
    exact hk.givenUp j m ((hregistered j m).mp hm) hj.2
  case answers => simpa only [hregistry, hregistered, hdropped, hcompleted] using hanswers
  case oneAnswer => simpa only [hregistry] using hone
  case delivered =>
    intro j w hw
    rw [hresumed]
    obtain ⟨heq, -⟩ | hw := hw
    · exact .inl (DeskCommand.resume.inj heq).1.symm
    · exact .inr (hk.delivered j w hw)
  case completed =>
    intro j m hm hj
    exact .inr (hk.completed j m ((hcompleted m).mp hm) ((hregistered j m).mp hj))
  case completedPolled => exact fun m hm => .inr (hk.completedPolled m ((hcompleted m).mp hm))
  case givenUpBelow => simpa only [hregistry] using hk.givenUpBelow

-- The answers that are left when the wait under an id has ended.
theorem Answerable.mem_filter_answers (hk : Answerable h) (hids : Numbered h)
    (hn : Registered id n h) {j : Nat} {w : String} :
    (j, w) ∈ (after h).registry.answers.filter (·.1 ≠ id) ↔ Delivered j w h
      ∧ ∃ m, Registered j m h ∧ ¬Dropped m h ∧ ¬Completed m h ∧ m ≠ n := by
  rw [List.mem_filter, hk.answers]
  simp only [ne_eq, decide_not, Bool.not_eq_eq_eq_not, Bool.not_true, decide_eq_false_iff_not]
  constructor
  · rintro ⟨⟨hw, m, hm, hd, hc⟩, hne⟩
    refine ⟨hw, m, hm, hd, hc, ?_⟩
    rintro rfl
    exact hne (hids.oneId j id m hm hn)
  · rintro ⟨hw, m, hm, hd, hc, hne⟩
    refine ⟨⟨hw, m, hm, hd, hc⟩, ?_⟩
    rintro rfl
    exact hne (hids.oneWait j m n hm hn)

-- A wait that is dropped while it may still be answered.
theorem Answerable.dropped (hk : Answerable h) (hids : Numbered h)
    (hn : Registered id n h)
    (hregistry : (after (.drop n :: h)).registry = (after h).registry.giveUp id) :
    Answerable (.drop n :: h) := by
  have hregistered (j m : Nat) : Registered j m (.drop n :: h) ↔ Registered j m h := by
    simp [registered_cons]
  have hresumed (j : Nat) : Resumed j (.drop n :: h) ↔ Resumed j h := by simp [resumed_cons]
  have hdelivered (j : Nat) (w : String) : Delivered j w (.drop n :: h) ↔ Delivered j w h := by
    simp [delivered_cons]
  have hcompleted (m : Nat) : Completed m (.drop n :: h) ↔ Completed m h := by simp [completed_cons]
  have hlt : n < (made h).length := (hids.announced id n hn).2.lt
  have hdropped (m : Nat) : Dropped m (.drop n :: h) ↔ m = n ∨ Dropped m h := by
    rw [dropped_cons]
    refine or_congr_left ⟨fun heq => (DeskCommand.drop.inj heq.1).symm, ?_⟩
    rintro rfl
    exact ⟨rfl, hlt⟩
  constructor
  case ascending => simpa only [hregistry, Registry.giveUp] using hk.ascending
  case waiting =>
    simpa only [hregistry, Registry.giveUp, hregistered, hresumed] using hk.waiting
  case givenUp =>
    intro j m hm hj
    rw [hregistered] at hm
    rw [hresumed] at hj
    rw [hregistry, Registry.giveUp, List.mem_cons, hdropped, hk.givenUp j m hm hj]
    refine or_congr_left ⟨?_, ?_⟩
    · rintro rfl
      exact hids.oneWait j m n hm hn
    · rintro rfl
      exact hids.oneId j id m hm hn
  case answers =>
    intro j w
    rw [hregistry, Registry.giveUp, hk.mem_filter_answers hids hn, hdelivered]
    refine and_congr_right fun _ => exists_congr fun m => ?_
    rw [hregistered, hdropped, hcompleted]
    tauto
  case oneAnswer =>
    rw [hregistry]
    exact hk.oneAnswer.sublist (List.filter_sublist.map _)
  case delivered => simpa only [hdelivered, hresumed] using hk.delivered
  case completed => simpa only [hcompleted, hregistered, hresumed] using hk.completed
  case completedPolled => exact fun m hm => .inr (hk.completedPolled m ((hcompleted m).mp hm))
  case givenUpBelow =>
    rw [hregistry]
    exact List.forall_mem_cons.mpr ⟨(hids.announced id n hn).1, hk.givenUpBelow⟩

-- A wait that completes with its answer.
theorem Answerable.ready (hk : Answerable h) (hids : Numbered h) (hn : Registered id n h)
    (hv : (id, v) ∈ (after h).registry.answers) (hanswer : answer h (.poll n) = .poll (.ready v))
    (hregistry : (after (.poll n :: h)).registry = { (after h).registry with
      answers := (after h).registry.answers.filter (·.1 ≠ id) })
    (hfresh : ¬Fresh n h) : Answerable (.poll n :: h) := by
  have hregistered (j m : Nat) : Registered j m (.poll n :: h) ↔ Registered j m h :=
    registered_poll_of_not_fresh hfresh
  have hresumed (j : Nat) : Resumed j (.poll n :: h) ↔ Resumed j h := by simp [resumed_cons]
  have hdelivered (j : Nat) (w : String) : Delivered j w (.poll n :: h) ↔ Delivered j w h := by
    simp [delivered_cons]
  have hdropped (m : Nat) : Dropped m (.poll n :: h) ↔ Dropped m h := by simp [dropped_cons]
  have hcompleted (m : Nat) : Completed m (.poll n :: h) ↔ m = n ∨ Completed m h := by
    rw [completed_cons]
    refine or_congr_left ⟨fun heq => (DeskCommand.poll.inj heq.1).symm, ?_⟩
    rintro rfl
    exact ⟨rfl, v, hanswer⟩
  constructor
  case ascending => simpa only [hregistry] using hk.ascending
  case waiting => simpa only [hregistry, hregistered, hresumed] using hk.waiting
  case givenUp => simpa only [hregistry, hregistered, hresumed, hdropped] using hk.givenUp
  case answers =>
    intro j w
    rw [hregistry, hk.mem_filter_answers hids hn, hdelivered]
    refine and_congr_right fun _ => exists_congr fun m => ?_
    rw [hregistered, hdropped, hcompleted]
    tauto
  case oneAnswer =>
    rw [hregistry]
    exact hk.oneAnswer.sublist (List.filter_sublist.map _)
  case delivered => simpa only [hdelivered, hresumed] using hk.delivered
  case completed =>
    intro j m hm hj
    rw [hregistered] at hj
    rw [hresumed]
    obtain rfl | hm := (hcompleted m).mp hm
    · obtain rfl := hids.oneId j id m hj hn
      exact hk.delivered j v ((hk.answers j v).mp hv).1
    · exact hk.completed j m hm hj
  case completedPolled =>
    intro m hm
    obtain rfl | hm := (hcompleted m).mp hm
    · exact .inr (hids.announced id m hn).2
    · exact .inr (hk.completedPolled m hm)
  case givenUpBelow => simpa only [hregistry] using hk.givenUpBelow

-- A wait that is announced under the next id.
theorem Answerable.heard (hk : Answerable h) (hids : Numbered h) (hfresh : Fresh n h)
    (hregistry : (after (.poll n :: h)).registry = { (after h).registry with
      nextId := (after h).registry.nextId + 1
      waiting := (after h).registry.waiting ++ [(after h).registry.nextId] })
    (hregistered : ∀ id m, Registered id m (.poll n :: h)
      ↔ (id = (after h).registry.nextId ∧ m = n) ∨ Registered id m h)
    (hcompleted : ∀ m, Completed m (.poll n :: h) ↔ Completed m h) : Answerable (.poll n :: h) := by
  have hresumed (j : Nat) : Resumed j (.poll n :: h) ↔ Resumed j h := by simp [resumed_cons]
  have hdelivered (j : Nat) (w : String) : Delivered j w (.poll n :: h) ↔ Delivered j w h := by
    simp [delivered_cons]
  have hdropped (m : Nat) : Dropped m (.poll n :: h) ↔ Dropped m h := by simp [dropped_cons]
  constructor
  case ascending =>
    rw [hregistry, List.pairwise_append]
    refine ⟨hk.ascending, List.pairwise_singleton _ _, ?_⟩
    intro id hid j hj
    obtain ⟨⟨m, hm⟩, -⟩ := (hk.waiting id).mp hid
    rw [List.mem_singleton.mp hj]
    exact (hids.announced id m hm).1
  case waiting =>
    intro id
    simp only [hregistry, List.mem_append, List.mem_singleton, hk.waiting, hregistered, hresumed]
    constructor
    · rintro (⟨⟨m, hm⟩, hopen⟩ | rfl)
      · exact ⟨⟨m, .inr hm⟩, hopen⟩
      · exact ⟨⟨n, .inl ⟨rfl, rfl⟩⟩, hids.unresumed⟩
    · rintro ⟨⟨m, ⟨rfl, -⟩ | hm⟩, hopen⟩
      · exact .inr rfl
      · exact .inl ⟨⟨m, hm⟩, hopen⟩
  case givenUp =>
    intro id m hm hid
    rw [hregistry, hdropped]
    obtain ⟨rfl, rfl⟩ | hm := (hregistered id m).mp hm
    · refine iff_of_false (fun hgiven => ?_) hfresh.not_dropped
      exact Nat.lt_irrefl _ (hk.givenUpBelow _ hgiven)
    · exact hk.givenUp id m hm ((hresumed id).not.mp hid)
  case answers =>
    intro id w
    rw [hregistry, hk.answers, hdelivered]
    refine and_congr_right fun hw => exists_congr fun m => ?_
    rw [hregistered, hdropped, hcompleted]
    refine and_congr_left fun _ => (or_iff_right_of_imp ?_).symm
    rintro ⟨rfl, -⟩
    exact absurd (hk.delivered _ w hw) hids.unresumed
  case oneAnswer => simpa only [hregistry] using hk.oneAnswer
  case delivered => simpa only [hdelivered, hresumed] using hk.delivered
  case completed =>
    intro id m hm hid
    rw [hcompleted] at hm
    rw [hresumed]
    obtain ⟨-, rfl⟩ | hid := (hregistered id m).mp hid
    · exact absurd (hk.completedPolled m hm) hfresh.not_polled
    · exact hk.completed id m hm hid
  case completedPolled => exact fun m hm => .inr (hk.completedPolled m ((hcompleted m).mp hm))
  case givenUpBelow =>
    rw [hregistry]
    exact fun id hid => Nat.lt_succ_of_lt (hk.givenUpBelow id hid)

end

end NoteCell.Desk
