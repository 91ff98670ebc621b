import Mathlib.Data.List.Nodup
import NoteCell.Proofs.Suspension.Ids

/-!
What a desk answers, from what has happened at it. Each wait that is polled while the host listens
is announced under an id of its own, the id can be answered once, and the answer reaches that wait.
-/
namespace NoteCell.Desk

/-! ### Waits -/

structure WaitsKept (h : List DeskCommand) : Prop where
  length : (after h).waits.length = (made h).length
  fresh (n : Nat) (cell prompt : String) : (after h).waits[n]? = some (.fresh cell prompt)
    ↔ Fresh n h ∧ (made h)[n]? = some (cell, prompt)
  registered (n id : Nat) : (after h).waits[n]? = some (.registered id)
    ↔ Registered id n h ∧ ¬Dropped n h ∧ ¬Completed n h

section

variable {h : List DeskCommand} {c : DeskCommand} {n : Nat}

-- Commands that touch no wait.
theorem WaitsKept.untouched (hk : WaitsKept h) (hwaits : (after (c :: h)).waits = (after h).waits)
    (hmade : made (c :: h) = made h) (hpoll : ∀ n, c ≠ .poll n) (hdrop : ∀ n, c ≠ .drop n) :
    WaitsKept (c :: h) where
  length := by rw [hwaits, hmade, hk.length]
  fresh n cell prompt := by
    rw [hwaits, hk.fresh, fresh_cons hpoll hdrop, hmade, fresh_iff]
  registered n id := by
    rw [hwaits, hk.registered, registered_cons, dropped_cons, completed_cons]
    simp [hpoll, hdrop]

-- A command that ends a wait, or finds none.
theorem WaitsKept.ended (hk : WaitsKept h)
    (hwaits : (after (c :: h)).waits = (after h).waits.set n .gone) (hmade : made (c :: h) = made h)
    (hfresh : ∀ m, Fresh m (c :: h) ↔ Fresh m h ∧ m ≠ n)
    (hregistered : ∀ m id, (Registered id m (c :: h) ∧ ¬Dropped m (c :: h) ∧ ¬Completed m (c :: h))
      ↔ (Registered id m h ∧ ¬Dropped m h ∧ ¬Completed m h) ∧ m ≠ n) : WaitsKept (c :: h) where
  length := by rw [hwaits, List.length_set, hmade, hk.length]
  fresh m cell prompt := by
    rw [hwaits, List.getElem?_set, hfresh, hmade]
    split
    case isTrue heq => split <;> simp [heq]
    case isFalse hne => simp [hk.fresh, Ne.symm hne]
  registered m id := by
    rw [hwaits, List.getElem?_set, hregistered]
    split
    case isTrue heq => split <;> simp [heq]
    case isFalse hne => simp [hk.registered, Ne.symm hne]

end

/-! ### Commands -/

structure Kept (h : List DeskCommand) : Prop where
  present : (after h).registry.hostPresent = true ↔ .hangUp ∉ h
  waits : WaitsKept h
  numbered : Numbered h
  ids : Answerable h

theorem kept_nil : Kept [] where
  present := by simp [after, new, Registry.new]
  waits :=
    { length := rfl
      fresh n cell prompt := by simp [after, new, made]
      registered n id := by simp [after, new, Registered, Happened] }
  numbered := numbered_nil
  ids := answerable_nil

section

variable {h : List DeskCommand}

theorem poll_of_heard {n : Nat} {cell prompt : String}
    (hwait : (after h).waits[n]? = some (.fresh cell prompt))
    (hpresent : (after h).registry.hostPresent = true) :
    let id := (after h).registry.nextId
    (after h).poll n = (.pending, { (after h).setWait n (.registered id) with
      registry := { (after h).registry with
        nextId := id + 1, waiting := (after h).registry.waiting ++ [id] }
      events := (after h).events ++ [⟨id, cell, prompt⟩] }) := by
  simp [Desk.poll, hwait, pollFresh, Registry.register, hpresent]

namespace Kept

theorem suspend (hk : Kept h) (cell prompt : String) : Kept (.suspend cell prompt :: h) where
  present := by simpa [after, run] using hk.present
  waits :=
    { length := by simp [after, run, made, hk.waits.length]
      fresh n cell' prompt' := by
        rw [fresh_cons (by simp) (by simp)]
        simp only [after, run, made, List.getElem?_append, hk.waits.length]
        split
        case isTrue hn =>
          rw [hk.waits.fresh]
          exact ⟨fun h => ⟨⟨by simp; omega, h.1.not_polled, h.1.not_dropped⟩, h.2⟩,
            fun h => ⟨⟨hn, h.1.2.1, h.1.2.2⟩, h.2⟩⟩
        case isFalse hn =>
          have hpolled : ¬Polled n h := fun h => hn h.lt
          have hdropped : ¬Dropped n h := fun h => hn h.lt
          simp only [hpolled, hdropped, not_false_eq_true, and_true, List.length_append]
          by_cases hlast : n = (made h).length
          · simp [hlast]
          · have hpos : n - (made h).length ≠ 0 := by omega
            simp [hpos]
      registered n id := by
        simp only [registered_cons, dropped_cons, completed_cons, reduceCtorEq, false_and, false_or]
        rw [← hk.waits.registered]
        simp only [after, run, List.getElem?_append, hk.waits.length]
        split
        case isTrue => rfl
        case isFalse hn =>
          have hnone : (after h).waits[n]? = none := by
            simpa [hk.waits.length] using hn
          rw [hnone, List.getElem?_singleton]
          split <;> simp }
  numbered := hk.numbered.unannounced rfl (Nat.le_refl _) (by simp [registered_cons])
  ids := by
    apply hk.ids.idle (Nat.le_refl _) rfl rfl rfl <;>
      simp [registered_cons, resumed_cons, delivered_cons, completed_cons, dropped_cons]

theorem hangUp (hk : Kept h) : Kept (.hangUp :: h) where
  present := by simp [after, run, Registry.hangUp]
  waits := hk.waits.untouched rfl rfl (by simp) (by simp)
  numbered := hk.numbered.unannounced rfl (Nat.le_refl _) (by simp [registered_cons])
  ids := by
    apply hk.ids.idle (Nat.le_refl _) rfl rfl rfl <;>
      simp [registered_cons, resumed_cons, delivered_cons, completed_cons, dropped_cons]

-- A resumption of an id that is not waiting.
theorem resume_unknown (hk : Kept h) {id : Nat} (v : String)
    (hid : id ∉ (after h).registry.waiting) : Kept (.resume id v :: h) := by
  have hanswer : answer h (.resume id v) = .resumed (.error (.unknown id)) := by
    rw [answer_resume, Registry.resume, if_neg hid]
  have hstate : after (.resume id v :: h) = after h := by
    simp only [after, run, Registry.resume, if_neg hid]
  have hregistered (j n : Nat) : Registered j n (.resume id v :: h) ↔ Registered j n h := by
    simp [registered_cons]
  refine ⟨?_, hk.waits.untouched (by rw [hstate]) rfl (by simp) (by simp), ?_, ?_⟩
  · rw [hstate, hk.present]
    simp
  · exact hk.numbered.unannounced (by rw [hstate]) (Nat.le_of_eq (by rw [hstate])) hregistered
  · refine hk.ids.idle (Nat.le_of_eq (by rw [hstate])) (by rw [hstate]) (by rw [hstate])
      (by rw [hstate]) hregistered ?_ ?_ ?_ ?_
    · intro j
      rw [resumed_cons]
      refine or_iff_right_of_imp ?_
      rintro ⟨⟨w, hw⟩, hregistered⟩
      obtain ⟨rfl, rfl⟩ := DeskCommand.resume.inj hw
      by_contra hopen
      exact hid ((hk.ids.waiting id).mpr ⟨hregistered, hopen⟩)
    · intro j w
      rw [delivered_cons]
      refine or_iff_right_of_imp ?_
      rintro ⟨heq, hok⟩
      rw [hanswer] at hok
      cases hok
    · simp [completed_cons]
    · simp [dropped_cons]

-- A resumption of an id that is waiting.
theorem resume_waiting (hk : Kept h) {id : Nat} (v : String)
    (hid : id ∈ (after h).registry.waiting) : Kept (.resume id v :: h) := by
  obtain ⟨⟨n, hn⟩, hopen⟩ := (hk.ids.waiting id).mp hid
  have hregistry : (after (.resume id v :: h)).registry = ((after h).registry.resume id v).2 := rfl
  have hanswer := answer_resume h id v
  rw [Registry.resume, if_pos hid] at hregistry hanswer
  dsimp only at hregistry hanswer
  have hregistered (j n : Nat) : Registered j n (.resume id v :: h) ↔ Registered j n h := by
    simp [registered_cons]
  refine ⟨?_, hk.waits.untouched rfl rfl (by simp) (by simp), ?_, ?_⟩
  · have hhost : DeskCommand.hangUp ∉ .resume id v :: h ↔ .hangUp ∉ h := by simp
    rw [hregistry, hhost, ← hk.present]
    split <;> rfl
  · exact hk.numbered.unannounced rfl (Nat.le_of_eq (by rw [hregistry]; split <;> rfl)) hregistered
  · split at hregistry
    case isTrue hgivenUp =>
      rw [if_pos hgivenUp] at hanswer
      refine hk.ids.resumed hn hopen hregistry ?_ hk.ids.oneAnswer
      intro j w
      rw [hk.ids.answers, delivered_cons, hanswer]
      simp
    case isFalse hheld =>
      rw [if_neg hheld] at hanswer
      have hundelivered (w : String) : (id, w) ∉ (after h).registry.answers := fun hw =>
        hopen (hk.ids.delivered id w ((hk.ids.answers id w).mp hw).1)
      have hwait : ¬Dropped n h ∧ ¬Completed n h :=
        ⟨fun hd => hheld ((hk.ids.givenUp id n hn hopen).mpr hd),
          fun hc => hopen (hk.ids.completed id n hc hn)⟩
      refine hk.ids.resumed hn hopen hregistry ?_ ?_
      · intro j w
        rw [List.mem_append, hk.ids.answers, List.mem_singleton, delivered_cons, hanswer]
        constructor
        · rintro (⟨hdelivered, hm⟩ | heq)
          · exact ⟨.inr hdelivered, hm⟩
          · obtain ⟨rfl, rfl⟩ := Prod.mk.inj heq
            exact ⟨.inl ⟨rfl, rfl⟩, n, hn, hwait⟩
        · rintro ⟨⟨hw, -⟩ | hdelivered, hm⟩
          · obtain ⟨rfl, rfl⟩ := DeskCommand.resume.inj hw
            exact .inr rfl
          · exact .inl ⟨hdelivered, hm⟩
      · rw [List.map_append, List.nodup_append]
        refine ⟨hk.ids.oneAnswer, by simp, ?_⟩
        intro j hj j' hj'
        obtain rfl : j' = id := by simpa using hj'
        obtain ⟨⟨_, w⟩, hw, rfl⟩ := List.mem_map.mp hj
        rintro rfl
        exact hundelivered w hw

theorem drop (hk : Kept h) (n : Nat) : Kept (.drop n :: h) := by
  have hpresent : DeskCommand.hangUp ∉ .drop n :: h ↔ .hangUp ∉ h := by simp
  have hregistered (j m : Nat) : Registered j m (.drop n :: h) ↔ Registered j m h := by
    simp [registered_cons]
  have hwaits : (after (.drop n :: h)).waits = (after h).waits.set n .gone := by
    simp only [after, run, Desk.drop]
    split <;> rfl
  have hended : WaitsKept (.drop n :: h) := by
    refine hk.waits.ended hwaits rfl (fun m => fresh_drop) fun m id => ?_
    rw [dropped_cons]
    simp only [registered_cons, completed_cons, reduceCtorEq, false_and, false_or,
      DeskCommand.drop.injEq]
    constructor
    · rintro ⟨hm, hd, hc⟩
      rw [not_or] at hd
      refine ⟨⟨hm, hd.2, hc⟩, ?_⟩
      rintro rfl
      exact hd.1 ⟨rfl, (hk.numbered.announced id m hm).2.lt⟩
    · rintro ⟨⟨hm, hd, hc⟩, hne⟩
      exact ⟨hm, by simp [hd, Ne.symm hne], hc⟩
  by_cases hwait : ∃ id, (after h).waits[n]? = some (.registered id)
  case pos =>
    obtain ⟨id, hwait⟩ := hwait
    have hregistry : (after (.drop n :: h)).registry = (after h).registry.giveUp id := by
      simp only [after, run, Desk.drop, hwait]
    have hn := ((hk.waits.registered n id).mp hwait).1
    have hevents : (after (.drop n :: h)).events = (after h).events := by
      simp only [after, run, Desk.drop, hwait]
      rfl
    refine ⟨?_, hended, ?_, hk.ids.dropped hk.numbered hn hregistry⟩
    · rw [hregistry, hpresent]
      exact hk.present
    · exact hk.numbered.unannounced hevents (Nat.le_of_eq (by rw [hregistry]; rfl)) hregistered
  case neg =>
    have hstate : after (.drop n :: h) = (after h).setWait n .gone := by
      simp only [after, run, Desk.drop]
      split
      case h_1 id hid => exact absurd ⟨id, hid⟩ hwait
      case h_2 => rfl
    have hnext : (after h).registry.nextId = (after (.drop n :: h)).registry.nextId := by
      rw [hstate]
      rfl
    refine ⟨?_, hended, ?_, ?_⟩
    · rw [hstate, hpresent]
      exact hk.present
    · exact hk.numbered.unannounced (by rw [hstate]; rfl) (Nat.le_of_eq hnext) hregistered
    · refine hk.ids.idle (Nat.le_of_eq hnext) (by rw [hstate]; rfl) (by rw [hstate]; rfl)
        (by rw [hstate]; rfl) hregistered ?_ ?_ ?_ ?_
      · simp [resumed_cons]
      · simp [delivered_cons]
      · simp [completed_cons]
      · intro id m hm hc
        rw [dropped_cons]
        refine or_iff_right_of_imp ?_
        rintro ⟨heq, -⟩
        obtain rfl := DeskCommand.drop.inj heq
        by_contra hd
        exact hwait ⟨id, (hk.waits.registered _ id).mpr ⟨hm, hd, hc⟩⟩

-- A wait polled for the first time, when the host has left.
theorem poll_unheard (hk : Kept h) {n : Nat} {cell prompt : String}
    (hwait : (after h).waits[n]? = some (.fresh cell prompt))
    (hpresent : (after h).registry.hostPresent = false) : Kept (.poll n :: h) := by
  have hleft : .hangUp ∈ h := by
    by_contra hnot
    simp [hk.present.mpr hnot] at hpresent
  have hfresh := ((hk.waits.fresh n cell prompt).mp hwait).1
  have hregister : (after h).registry.register cell prompt
      = (.error .hostGone,
        { (after h).registry with nextId := (after h).registry.nextId + 1 }) := by
    simp [Registry.register, hpresent]
  have hpoll : (after h).poll n = (.failed .hostGone, { (after h).setWait n .gone with
      registry := { (after h).registry with nextId := (after h).registry.nextId + 1 } }) := by
    simp only [Desk.poll, hwait, pollFresh, hregister]
  have hanswer := answer_poll h n
  have hstate : after (.poll n :: h) = ((after h).poll n).2 := rfl
  rw [hpoll] at hanswer hstate
  have hregistered (id m : Nat) : Registered id m (.poll n :: h) ↔ Registered id m h := by
    rw [registered_cons]
    exact or_iff_right_of_imp fun hm => absurd hleft hm.2.2.1
  have hcompleted (m : Nat) : Completed m (.poll n :: h) ↔ Completed m h := by
    simp [completed_cons, hanswer]
  have hdropped (m : Nat) : Dropped m (.poll n :: h) ↔ Dropped m h := by simp [dropped_cons]
  constructor
  case present => simpa [hstate] using hk.present
  case waits =>
    refine hk.waits.ended (by rw [hstate]; rfl) rfl (fun m => fresh_poll) fun m id => ?_
    rw [hregistered, hdropped, hcompleted]
    refine (and_iff_left_of_imp fun hm => ?_).symm
    rintro rfl
    exact hk.numbered.unregistered hfresh hm.1
  case numbered =>
    exact hk.numbered.unannounced (by rw [hstate]; rfl) (by rw [hstate]; exact Nat.le_succ _)
      hregistered
  case ids =>
    refine hk.ids.idle (by rw [hstate]; exact Nat.le_succ _) (by rw [hstate])
      (by rw [hstate]) (by rw [hstate]) hregistered ?_ ?_ hcompleted fun _ m _ _ => hdropped m
    · simp [resumed_cons]
    · simp [delivered_cons]

-- A wait polled for the first time, when the host listens.
theorem poll_heard (hk : Kept h) {n : Nat} {cell prompt : String}
    (hwait : (after h).waits[n]? = some (.fresh cell prompt))
    (hpresent : (after h).registry.hostPresent = true) : Kept (.poll n :: h) := by
  have hfresh := ((hk.waits.fresh n cell prompt).mp hwait).1
  have hpoll := poll_of_heard hwait hpresent
  have hanswer := answer_poll h n
  have hstate : after (.poll n :: h) = ((after h).poll n).2 := rfl
  rw [hpoll] at hanswer hstate
  have hregistered (id m : Nat) : Registered id m (.poll n :: h)
      ↔ (id = (after h).registry.nextId ∧ m = n) ∨ Registered id m h := by
    rw [registered_cons, hstate]
    simp only [List.getLast?_concat, Option.map_some, Option.some.injEq, DeskCommand.poll.injEq]
    refine or_congr_left ⟨?_, ?_⟩
    · rintro ⟨rfl, -, -, rfl⟩
      exact ⟨rfl, rfl⟩
    · rintro ⟨rfl, rfl⟩
      exact ⟨rfl, hfresh, hk.present.mp hpresent, rfl⟩
  have hcompleted (m : Nat) : Completed m (.poll n :: h) ↔ Completed m h := by
    simp [completed_cons, hanswer]
  have hdropped (m : Nat) : Dropped m (.poll n :: h) ↔ Dropped m h := by simp [dropped_cons]
  constructor
  case present => simpa [hstate] using hk.present
  case waits =>
    constructor
    case length => simpa [hstate, setWait, made] using hk.waits.length
    case fresh =>
      intro m cell' prompt'
      rw [hstate, fresh_poll]
      simp only [setWait, List.getElem?_set, made]
      split
      case isTrue heq => split <;> simp [heq]
      case isFalse hne => simp [hk.waits.fresh, Ne.symm hne]
    case registered =>
      intro m id
      rw [hstate, hregistered, hdropped, hcompleted]
      simp only [setWait, List.getElem?_set]
      split
      case isTrue heq =>
        subst heq
        have hlt : n < (after h).waits.length := by rw [hk.waits.length]; exact hfresh.made
        have hnot : ¬Registered id n h := hk.numbered.unregistered hfresh
        have hopen : ¬Dropped n h ∧ ¬Completed n h :=
          ⟨hfresh.not_dropped, fun hc => hfresh.not_polled (hk.ids.completedPolled n hc)⟩
        simp [hlt, hnot, hopen, eq_comm]
      case isFalse hne => simp [hk.waits.registered, Ne.symm hne]
  case numbered => exact hk.numbered.heard hfresh (by rw [hstate]) (by rw [hstate]) hregistered
  case ids => exact hk.ids.heard hk.numbered hfresh (by rw [hstate]) hregistered hcompleted

-- A wait that is not polled for the first time and has no answer yet.
theorem poll_idle (hk : Kept h) {n : Nat} (hn : ¬Fresh n h)
    (hstate : after (.poll n :: h) = after h)
    (hanswer : ∀ v, answer h (.poll n) ≠ .poll (.ready v)) : Kept (.poll n :: h) := by
  have hregistered (j m : Nat) : Registered j m (.poll n :: h) ↔ Registered j m h :=
    registered_poll_of_not_fresh hn
  have hcompleted (m : Nat) : Completed m (.poll n :: h) ↔ Completed m h := by
    rw [completed_cons]
    exact or_iff_right_of_imp fun ⟨_, v, hv⟩ => absurd hv (hanswer v)
  have hdropped (m : Nat) : Dropped m (.poll n :: h) ↔ Dropped m h := by simp [dropped_cons]
  constructor
  case present =>
    rw [hstate, hk.present]
    simp
  case waits =>
    constructor
    case length => exact hstate ▸ hk.waits.length
    case fresh =>
      intro m cell prompt
      rw [hstate, hk.waits.fresh, fresh_poll]
      refine and_congr_left fun _ => (and_iff_left_of_imp fun hm => ?_).symm
      rintro rfl
      exact hn hm
    case registered =>
      intro m id
      rw [hstate, hk.waits.registered, hregistered, hdropped, hcompleted]
  case numbered =>
    exact hk.numbered.unannounced (by rw [hstate]) (Nat.le_of_eq (by rw [hstate])) hregistered
  case ids =>
    refine hk.ids.idle (Nat.le_of_eq (by rw [hstate])) (by rw [hstate]) (by rw [hstate])
      (by rw [hstate]) hregistered ?_ ?_ hcompleted fun _ m _ _ => hdropped m
    · simp [resumed_cons]
    · simp [delivered_cons]

-- A wait polled under its id.
theorem poll_registered (hk : Kept h) {n id : Nat}
    (hwait : (after h).waits[n]? = some (.registered id)) : Kept (.poll n :: h) := by
  obtain ⟨hn, hd, hc⟩ := (hk.waits.registered n id).mp hwait
  have hfresh : ¬Fresh n h := fun hfresh => hk.numbered.unregistered hfresh hn
  have hanswer := answer_poll h n
  cases hfind : (after h).registry.answers.find? (·.1 = id) with
  | none =>
    have hpoll : (after h).poll n = (.pending, after h) := by
      simp only [Desk.poll, hwait, pollRegistered, Registry.collect, hfind]
    rw [hpoll] at hanswer
    refine hk.poll_idle hfresh ?_ (by simp [hanswer])
    simp only [after, run, hpoll]
  | some found =>
    obtain ⟨j, v⟩ := found
    obtain rfl : j = id := by simpa using List.find?_some hfind
    have hv := List.mem_of_find?_eq_some hfind
    have hpoll : (after h).poll n = (.ready v, { (after h).setWait n .gone with
        registry := { (after h).registry with
          answers := (after h).registry.answers.filter (·.1 ≠ j) } }) := by
      simp only [Desk.poll, hwait, pollRegistered, Registry.collect, hfind]
    rw [hpoll] at hanswer
    have hstate : after (.poll n :: h) = ((after h).poll n).2 := rfl
    rw [hpoll] at hstate
    have hregistered (i m : Nat) : Registered i m (.poll n :: h) ↔ Registered i m h :=
      registered_poll_of_not_fresh hfresh
    have hdropped (m : Nat) : Dropped m (.poll n :: h) ↔ Dropped m h := by simp [dropped_cons]
    have hcompleted (m : Nat) : Completed m (.poll n :: h) ↔ n = m ∨ Completed m h := by
      simp [completed_cons, hanswer]
    refine ⟨?_, ?_, ?_, hk.ids.ready hk.numbered hn hv hanswer (by rw [hstate]) hfresh⟩
    · rw [hstate]
      simpa using hk.present
    · refine hk.waits.ended (by rw [hstate]; rfl) rfl (fun m => fresh_poll) fun m i => ?_
      rw [hregistered, hdropped, hcompleted]
      tauto
    · exact hk.numbered.unannounced (by rw [hstate]; rfl) (Nat.le_of_eq (by rw [hstate]))
        hregistered

theorem poll (hk : Kept h) (n : Nat) : Kept (.poll n :: h) := by
  by_cases hfresh : ∃ cell prompt, (after h).waits[n]? = some (.fresh cell prompt)
  case pos =>
    obtain ⟨cell, prompt, hwait⟩ := hfresh
    cases hpresent : (after h).registry.hostPresent
    case true => exact hk.poll_heard hwait hpresent
    case false => exact hk.poll_unheard hwait hpresent
  by_cases hregistered : ∃ id, (after h).waits[n]? = some (.registered id)
  case pos =>
    obtain ⟨id, hwait⟩ := hregistered
    exact hk.poll_registered hwait
  case neg =>
    have hpoll : (after h).poll n = (.gone, after h) := by
      rw [Desk.poll]
      split
      case h_1 cell prompt hwait => exact absurd ⟨cell, prompt, hwait⟩ hfresh
      case h_2 id hwait => exact absurd ⟨id, hwait⟩ hregistered
      all_goals rfl
    refine hk.poll_idle (fun hn => ?_) ?_ ?_
    · obtain ⟨⟨cell, prompt⟩, hmade⟩ := hn.exists_made
      exact hfresh ⟨cell, prompt, (hk.waits.fresh n cell prompt).mpr ⟨hn, hmade⟩⟩
    · simp only [after, run, hpoll]
    · simp [answer_poll, hpoll]

end Kept

theorem kept (h : List DeskCommand) : Kept h := by
  induction h
  case nil => exact kept_nil
  case cons c h ih =>
    cases c
    case suspend cell prompt => exact ih.suspend cell prompt
    case poll n => exact ih.poll n
    case resume id v =>
      by_cases hid : id ∈ (after h).registry.waiting
      · exact ih.resume_waiting v hid
      · exact ih.resume_unknown v hid
    case drop n => exact ih.drop n
    case hangUp => exact ih.hangUp

end

/-! ### The law of a desk -/

-- What a desk answers after a history. A wait lives until it is dropped or has completed.
structure Lawful (h : List DeskCommand) : Prop where
  -- The ids of the events ascend, so none is used twice; each stands for one wait.
  increasing : ((after h).events.map (·.id)).Pairwise (· < ·)
  oneWait (id m n : Nat) : Registered id m h → Registered id n h → m = n
  oneId (id j n : Nat) : Registered id n h → Registered j n h → id = j
  -- The first poll of a wait announces it as long as the host listens; nothing else does.
  announces (n : Nat) : Fresh n h → .hangUp ∉ h → ∃ id cell prompt,
    (made h)[n]? = some (cell, prompt) ∧ (∀ e ∈ (after h).events, e.id < id)
      ∧ (after (.poll n :: h)).events = (after h).events ++ [⟨id, cell, prompt⟩]
      ∧ Registered id n (.poll n :: h)
  silent (c : DeskCommand) : (∀ n, c = .poll n → Fresh n h → .hangUp ∈ h) →
    (after (c :: h)).events = (after h).events
  resume_ok (id : Nat) (v : String) : answer h (.resume id v) = .resumed (.ok ())
    ↔ ∃ n, Registered id n h ∧ ¬Resumed id h ∧ ¬Dropped n h ∧ ¬Completed n h
  resume_abandoned (id : Nat) (v : String) :
    answer h (.resume id v) = .resumed (.error (.abandoned id))
      ↔ ∃ n, Registered id n h ∧ ¬Resumed id h ∧ Dropped n h
  resume_unknown (id : Nat) (v : String) :
    answer h (.resume id v) = .resumed (.error (.unknown id))
      ↔ ¬∃ n, Registered id n h ∧ ¬Resumed id h
  ready (n : Nat) (v : String) : answer h (.poll n) = .poll (.ready v)
    ↔ ∃ id, Registered id n h ∧ Delivered id v h ∧ ¬Dropped n h ∧ ¬Completed n h
  failed (n : Nat) (e : SuspensionError) : answer h (.poll n) = .poll (.failed e)
    ↔ e = .hostGone ∧ Fresh n h ∧ .hangUp ∈ h
  ascending : (after h).registry.waiting.Pairwise (· < ·)
  pending (id : Nat) :
    id ∈ (after h).registry.waiting ↔ (∃ n, Registered id n h) ∧ ¬Resumed id h

section

variable {h : List DeskCommand}

theorem resume_eq (id : Nat) (v : String) : answer h (.resume id v)
    = if id ∈ (after h).registry.waiting then
        .resumed (if id ∈ (after h).registry.givenUp then .error (.abandoned id) else .ok ())
      else .resumed (.error (.unknown id)) := by
  rw [answer_resume, Registry.resume]
  split
  · dsimp only
    split <;> rfl
  · rfl

theorem Kept.resume_ok (hk : Kept h) (id : Nat) (v : String) :
    answer h (.resume id v) = .resumed (.ok ())
      ↔ ∃ n, Registered id n h ∧ ¬Resumed id h ∧ ¬Dropped n h ∧ ¬Completed n h := by
  rw [resume_eq]
  constructor
  · intro hok
    split at hok
    case isFalse => cases hok
    case isTrue hid =>
      split at hok
      case isTrue => cases hok
      case isFalse hheld =>
        obtain ⟨⟨n, hn⟩, hopen⟩ := (hk.ids.waiting id).mp hid
        refine ⟨n, hn, hopen, fun hd => ?_, fun hc => hopen (hk.ids.completed id n hc hn)⟩
        exact hheld ((hk.ids.givenUp id n hn hopen).mpr hd)
  · rintro ⟨n, hn, hopen, hd, -⟩
    rw [if_pos ((hk.ids.waiting id).mpr ⟨⟨n, hn⟩, hopen⟩),
      if_neg fun hgiven => hd ((hk.ids.givenUp id n hn hopen).mp hgiven)]

theorem Kept.resume_abandoned (hk : Kept h) (id : Nat) (v : String) :
    answer h (.resume id v) = .resumed (.error (.abandoned id))
      ↔ ∃ n, Registered id n h ∧ ¬Resumed id h ∧ Dropped n h := by
  rw [resume_eq]
  constructor
  · intro habandoned
    split at habandoned
    case isFalse => cases habandoned
    case isTrue hid =>
      split at habandoned
      case isFalse => cases habandoned
      case isTrue hgiven =>
        obtain ⟨⟨n, hn⟩, hopen⟩ := (hk.ids.waiting id).mp hid
        exact ⟨n, hn, hopen, (hk.ids.givenUp id n hn hopen).mp hgiven⟩
  · rintro ⟨n, hn, hopen, hd⟩
    rw [if_pos ((hk.ids.waiting id).mpr ⟨⟨n, hn⟩, hopen⟩),
      if_pos ((hk.ids.givenUp id n hn hopen).mpr hd)]

theorem Kept.resume_unknown_iff (hk : Kept h) (id : Nat) (v : String) :
    answer h (.resume id v) = .resumed (.error (.unknown id))
      ↔ ¬∃ n, Registered id n h ∧ ¬Resumed id h := by
  rw [resume_eq, exists_and_right, ← hk.ids.waiting]
  split
  case isTrue hid =>
    refine iff_of_false ?_ (not_not.mpr hid)
    split <;> simp
  case isFalse hid => exact iff_of_true rfl hid

theorem collect_eq_some {r : Registry} (hone : (r.answers.map (·.1)).Nodup) {id : Nat}
    {v : String} : (r.collect id).1 = some v ↔ (id, v) ∈ r.answers := by
  rw [Registry.collect]
  cases hfind : r.answers.find? (·.1 = id) with
  | none =>
    refine iff_of_false (by simp) fun hmem => ?_
    simpa using List.find?_eq_none.mp hfind _ hmem
  | some found =>
    obtain ⟨j, w⟩ := found
    obtain rfl : j = id := by simpa using List.find?_some hfind
    have hw := List.mem_of_find?_eq_some hfind
    constructor
    · rintro ⟨⟩
      exact hw
    · intro hv
      have heq : (j, w) = (j, v) := List.inj_on_of_nodup_map hone hw hv rfl
      exact congrArg some (Prod.mk.inj heq).2

theorem Kept.ready (hk : Kept h) (n : Nat) (v : String) : answer h (.poll n) = .poll (.ready v)
    ↔ ∃ id, Registered id n h ∧ Delivered id v h ∧ ¬Dropped n h ∧ ¬Completed n h := by
  have hcollect (id : Nat) (hn : Registered id n h) :
      ((after h).registry.collect id).1 = some v
        ↔ Delivered id v h ∧ ¬Dropped n h ∧ ¬Completed n h := by
    rw [collect_eq_some hk.ids.oneAnswer, hk.ids.answers]
    refine and_congr_right fun _ => ⟨?_, fun hopen => ⟨n, hn, hopen⟩⟩
    rintro ⟨m, hm, hopen⟩
    exact hk.numbered.oneWait id m n hm hn ▸ hopen
  rw [answer_poll, Desk.poll]
  split
  case h_1 cell prompt hwait =>
    obtain ⟨hfresh, -⟩ := (hk.waits.fresh n cell prompt).mp hwait
    refine iff_of_false ?_ fun ⟨id, hn, _⟩ => hk.numbered.unregistered hfresh hn
    rw [pollFresh]
    split <;> simp
  case h_2 id hwait =>
    obtain ⟨hn, hopen⟩ := (hk.waits.registered n id).mp hwait
    trans ((after h).registry.collect id).1 = some v
    · rw [pollRegistered]
      split <;> simp_all
    · rw [hcollect id hn]
      refine ⟨fun h => ⟨id, hn, h⟩, fun ⟨j, hj, h⟩ => ?_⟩
      exact hk.numbered.oneId j id n hj hn ▸ h
  all_goals
    rename_i hwait
    refine iff_of_false (by simp) fun ⟨id, hn, _, hopen⟩ => ?_
    rw [(hk.waits.registered n id).mpr ⟨hn, hopen⟩] at hwait
    cases hwait

theorem Kept.failed (hk : Kept h) (n : Nat) (e : SuspensionError) :
    answer h (.poll n) = .poll (.failed e) ↔ e = .hostGone ∧ Fresh n h ∧ .hangUp ∈ h := by
  rw [answer_poll, Desk.poll]
  split
  case h_1 cell prompt hwait =>
    obtain ⟨hfresh, -⟩ := (hk.waits.fresh n cell prompt).mp hwait
    have hleft : .hangUp ∈ h ↔ (after h).registry.hostPresent = false := by
      rw [← Bool.not_eq_true, hk.present, not_not]
    rw [hleft, pollFresh, Registry.register]
    cases (after h).registry.hostPresent <;> simp [hfresh, eq_comm]
  case h_2 id hwait =>
    obtain ⟨hn, -⟩ := (hk.waits.registered n id).mp hwait
    refine iff_of_false ?_ fun h => hk.numbered.unregistered h.2.1 hn
    rw [pollRegistered]
    split <;> simp
  all_goals
    rename_i hwait
    refine iff_of_false (by simp) fun ⟨_, hfresh, _⟩ => ?_
    obtain ⟨⟨cell, prompt⟩, hmade⟩ := hfresh.exists_made
    rw [(hk.waits.fresh n cell prompt).mpr ⟨hfresh, hmade⟩] at hwait
    cases hwait

theorem Kept.announces (hk : Kept h) (n : Nat) (hfresh : Fresh n h) (hhost : .hangUp ∉ h) :
    ∃ id cell prompt, (made h)[n]? = some (cell, prompt) ∧ (∀ e ∈ (after h).events, e.id < id)
      ∧ (after (.poll n :: h)).events = (after h).events ++ [⟨id, cell, prompt⟩]
      ∧ Registered id n (.poll n :: h) := by
  obtain ⟨⟨cell, prompt⟩, hmade⟩ := hfresh.exists_made
  have hwait := (hk.waits.fresh n cell prompt).mpr ⟨hfresh, hmade⟩
  have hevents : (after (.poll n :: h)).events = ((after h).poll n).2.events := rfl
  rw [poll_of_heard hwait (hk.present.mpr hhost)] at hevents
  refine ⟨_, cell, prompt, hmade, hk.numbered.below, hevents, .inl ⟨rfl, hfresh, hhost, ?_⟩⟩
  rw [hevents, List.getLast?_concat]
  rfl

theorem Kept.silent (hk : Kept h) (c : DeskCommand)
    (hc : ∀ n, c = .poll n → Fresh n h → .hangUp ∈ h) :
    (after (c :: h)).events = (after h).events := by
  cases c
  case poll n =>
    change ((after h).poll n).2.events = _
    rw [Desk.poll]
    split
    case h_1 cell prompt hwait =>
      obtain ⟨hfresh, -⟩ := (hk.waits.fresh n cell prompt).mp hwait
      have habsent : (after h).registry.hostPresent = false := by
        rw [← Bool.not_eq_true, hk.present, not_not]
        exact hc n rfl hfresh
      simp [pollFresh, Registry.register, habsent, setWait]
    case h_2 id hwait =>
      rw [pollRegistered]
      split <;> rfl
    all_goals rfl
  case drop n =>
    change ((after h).drop n).events = _
    rw [Desk.drop]
    split <;> rfl
  all_goals rfl

end

theorem lawful (h : List DeskCommand) : Lawful h := by
  have hk := kept h
  constructor
  case increasing => exact hk.numbered.increasing
  case oneWait => exact hk.numbered.oneWait
  case oneId => exact hk.numbered.oneId
  case ascending => exact hk.ids.ascending
  case pending => exact hk.ids.waiting
  case resume_ok => exact hk.resume_ok
  case resume_abandoned => exact hk.resume_abandoned
  case resume_unknown => exact hk.resume_unknown_iff
  case announces => exact hk.announces
  case silent => exact hk.silent
  case ready => exact hk.ready
  case failed => exact hk.failed

end NoteCell.Desk
