import NoteCell.Proofs.Worker.Histories

/-!
A worker has one cell in hand at a time, and tells of the end of each cell it accepted once, in the
order in which they were accepted. What it cannot do it refuses by one message, and leaves it there.
-/
namespace NoteCell

namespace Message

-- The cell whose end is told.
def ending? : Message → Option String
  | executeCompleted cell _ _ => some cell
  | error cell _ _ _ => cell
  | _ => none

-- The cell whose value is told.
def valueOf? : Message → Option String
  | executeResult cell _ => cell
  | _ => none

-- How the end of a cell is told, apart from its value.
def ofEnd (cell : String) : CellResult → Message
  | .success _ out err => .executeCompleted cell out err
  | .failure reason out err => .error (some cell) reason out err

variable {cell : String} {r : CellResult}

theorem ofResult_eq (cell : String) (r : CellResult) :
    ofResult cell r = (r.value?.map (executeResult (some cell))).toList ++ [ofEnd cell r] := by
  cases r <;> rfl

theorem endings_ofResult : (ofResult cell r).filterMap ending? = [cell] := by
  obtain ⟨_ | _, _, _⟩ | _ := r <;> rfl

end Message

theorem Notice.Sent.result? {n : Notice} (h : n.Sent) : n.result? = none := by
  cases h <;> rfl

theorem Notice.Sent.messages {n : Notice} (h : n.Sent) :
    ∀ m ∈ n.messages, m.ending? = none ∧ m.valueOf? = none := by
  cases h <;> simp [Notice.messages, Message.ending?, Message.valueOf?]

theorem Notice.results_of_sent {sent : List Notice} (h : ∀ n ∈ sent, n.Sent) :
    sent.filterMap result? = [] :=
  List.filterMap_eq_nil_iff.mpr fun n hn => (h n hn).result?

namespace Occasion

-- The cells whose end is told of on an occasion, other than by refusing a request.
def endings (o : Occasion) : List String :=
  match o.event with
  | .line _ => []
  | _ => o.posts.filterMap Message.ending?

-- What a worker does on an occasion.
structure Lawful (o : Occasion) : Prop where
  -- A run request is accepted when no cell is in hand.
  accepts {cell code : String} (h : o.asked? = some (.ok (.run cell code))) :
    o.accepted? = some cell ↔ o.before.inHand? = none
  -- Otherwise an error names its cell, and nothing else comes of it.
  refuses {cell code : String} (h : o.asked? = some (.ok (.run cell code)))
    (hbusy : o.before.inHand?.isSome) :
    o.after = o.before.post (.refusal (some cell) Worker.busyReason)
  -- Nothing but an error comes of what is no request, nor of an answer that nobody waits for.
  rejects {e : JsonError} (h : o.asked? = some (.error e)) :
    o.after = o.before.post (.refusal none ("invalid request: " ++ e.text))
  fails {id : Nat} {value : String} {e : SuspensionError}
    (h : o.asked? = some (.ok (.resume id value)))
    (herror : (o.before.session.deliver id value).1 = .error e) :
    o.after = o.before.post (.refusal none e.message)
  -- A cell that is accepted is in hand until its end is told.
  hands : o.before.inHand?.toList ++ o.accepted?.toList = o.endings ++ o.after.inHand?.toList
  -- The result of a cell is held back until its end is told.
  results : o.before.ended.toList ++ o.told.filterMap Notice.result?
    = o.concluded?.toList ++ o.after.ended.toList
  -- The value of a cell comes directly before the end.
  concludes {cell : String} {r : CellResult} (h : o.concluded? = some (cell, r)) :
    o.posts = (r.value?.map (Message.executeResult (some cell))).toList ++ [.ofEnd cell r]
  -- No values or ends are told elsewhere.
  quiet (h : o.concluded? = none) {m : Message} (hm : m ∈ o.posts) : m.valueOf? = none
    ∧ ∀ cell, m.ending? = some cell → ∃ code, o.asked? = some (.ok (.run cell code))

variable {o : Occasion} {cell : String}

theorem line_of_asked? {request : Except JsonError Request} (h : o.asked? = some request) :
    ∃ text, o.event = .line text ∧ Worker.asked? text = some request := by
  rw [asked?] at h
  split at h
  · exact ⟨_, ‹_›, h⟩
  · cases h

theorem accepted?_eq_some : o.accepted? = some cell
    ↔ (∃ code, o.asked? = some (.ok (.run cell code))) ∧ o.posts = [] := by
  rw [accepted?]
  split
  · rename_i hasked
    simp [hasked, and_comm]
  · rename_i hother
    simp only [reduceCtorEq, false_iff, not_and]
    rintro ⟨code, hasked⟩
    exact absurd hasked (hother cell code)

theorem concluded?_eq_some {result : CellResult} : o.concluded? = some (cell, result)
    ↔ o.event = .conclude ∧ o.before.ended = some (cell, result) := by
  rw [concluded?]
  split
  case h_1 hevent => simp [hevent]
  case h_2 hother => exact ⟨nofun, fun h => absurd h.1 hother⟩

end Occasion

namespace Worker

variable {w w' : Worker} {told : List Notice} {posts : List Message} {r : Registry} {c : String}
  {e : WorkerEvent}

/-! ### One occasion -/

theorem Goes.inHand? (h : Goes w r c told posts w') : w'.inHand? = some c := by
  cases h with
  | on _ _ _ hf hcell => simp [Worker.inHand?, hf, hcell]
  | asks _ _ _ _ hf hcell => simp [Worker.inHand?, hf, hcell]
  | ends _ _ _ _ hf => simp [Worker.inHand?, hf]

theorem Goes.results (h : Goes w r c told posts w') (hended : w.ended = none) :
    told.filterMap Notice.result? = w'.ended.toList := by
  cases h with
  | on hsent => simp [Notice.results_of_sent hsent, hended]
  | asks _ hsent => simp [Notice.results_of_sent hsent, hended, Notice.result?]
  | ends _ hsent => simp [Notice.results_of_sent hsent, Notice.result?]

theorem Goes.quiet (h : Goes w r c told posts w') {m : Message} (hm : m ∈ posts) :
    m.ending? = none ∧ m.valueOf? = none := by
  have hquiet {sent : List Notice} (hsent : ∀ n ∈ sent, n.Sent)
      (hm : m ∈ sent.flatMap Notice.messages) : m.ending? = none ∧ m.valueOf? = none := by
    obtain ⟨n, hn, hm⟩ := List.mem_flatMap.mp hm
    exact (hsent n hn).messages m hm
  cases h with
  | on hsent => exact hquiet hsent hm
  | asks _ hsent => exact hquiet hsent hm
  | ends _ hsent => exact hquiet hsent hm

-- No wait is given up, so that an answer fails only if nobody waits for it.
theorem error_of_deliver {id : Nat} {value : String} {e : SuspensionError} (hw : w.Steady)
    (h : (w.session.deliver id value).1 = .error e) :
    id ∉ w.session.registry.waiting ∧ e = .unknown id := by
  simp only [Session.deliver, Registry.resume, hw.givenUp, List.not_mem_nil, if_false] at h
  split at h
  · cases h
  · exact ⟨‹_›, (Except.error.inj h).symm⟩

-- What comes of a line.
theorem Moves.line {text : String} (h : Moves w (.line text) told posts w') :
    match asked? text with
    | some (.ok (.run cell _)) => w.inHand?.isSome ∧ posts ≠ []
        ∧ w' = w.post (.refusal (some cell) busyReason) ∨ w.inHand? = none ∧ posts = []
    | some (.ok (.resume id _)) => id ∉ w.session.registry.waiting →
        w' = w.post (.refusal none (SuspensionError.unknown id).message)
    | some (.error e) => w' = w.post (.refusal none ("invalid request: " ++ e.text))
    | _ => True := by
  cases h with
  | ignores h => rw [h]; trivial
  | rejects h => rw [h]
  | greets h => rw [h]; trivial
  | refuses h hbusy =>
    rw [h]
    exact .inl ⟨hbusy, List.cons_ne_nil _ _, rfl⟩
  | accepts h hidle =>
    rw [h]
    exact .inr ⟨hidle, rfl⟩
  | resumes h hwaiting =>
    rw [h]
    exact fun hunknown => absurd hwaiting hunknown
  | fails h =>
    rw [h]
    exact fun _ => rfl
  | skips h => simp at h

theorem Moves.hands (h : Moves w e told posts w') (hw : w.Steady) :
    let o : Occasion := ⟨w, e, told, posts, w'⟩
    w.inHand?.toList ++ o.accepted?.toList = o.endings ++ w'.inHand?.toList := by
  dsimp only
  cases h with
  | accepts h hidle hgoes =>
    simp [Occasion.accepted?, Occasion.asked?, Occasion.endings, h, hidle, hgoes.inHand?]
  | goes hf _ hgoes =>
    have hquiet : posts.filterMap Message.ending? = [] :=
      List.filterMap_eq_nil_iff.mpr fun m hm => (hgoes.quiet hm).1
    rw [hgoes.inHand?]
    simp [Occasion.accepted?, Occasion.asked?, Occasion.endings, inHand?, hf, hquiet]
  | concludes h =>
    have hidle := hw.inFlight_of_ended h
    simp [Occasion.accepted?, Occasion.asked?, Occasion.endings, inHand?, h, hidle,
      Message.endings_ofResult]
  | announces h =>
    simp [Occasion.accepted?, Occasion.asked?, Occasion.endings, inHand?, Message.ofEvent,
      Message.ending?]
  | skips h =>
    obtain ⟨rfl, -⟩ | ⟨rfl, -⟩ | ⟨rfl, -⟩ := h
    all_goals simp [Occasion.accepted?, Occasion.asked?, Occasion.endings]
  | _ => simp [Occasion.accepted?, Occasion.asked?, Occasion.endings, inHand?, post, *]

theorem Moves.results (h : Moves w e told posts w') (hw : w.Steady) :
    let o : Occasion := ⟨w, e, told, posts, w'⟩
    w.ended.toList ++ told.filterMap Notice.result? = o.concluded?.toList ++ w'.ended.toList := by
  dsimp only
  cases h with
  | accepts h hidle hgoes =>
    have hnone := (inHand?_eq_none.mp hidle).2
    simp [Occasion.concluded?, hgoes.results hnone, hnone]
  | goes hf _ hgoes =>
    have hnone := hw.ended (by rw [hf]; rfl)
    simp [Occasion.concluded?, hgoes.results hnone, hnone]
  | skips h =>
    obtain ⟨rfl, -⟩ | ⟨rfl, hnone⟩ | ⟨rfl, -⟩ := h
    all_goals simp [Occasion.concluded?, *]
  | _ => simp [Occasion.concluded?, post]

theorem Moves.posts_of_ended (h : Moves w .conclude told posts w') {cell : String}
    {result : CellResult} (hended : w.ended = some (cell, result)) :
    posts = Message.ofResult cell result := by
  cases h with
  | concludes h =>
    obtain ⟨rfl, rfl⟩ := Prod.mk.inj (Option.some.inj (h.symm.trans hended))
    rfl
  | skips h => simp [hended] at h

theorem Moves.quiet (h : Moves w e told posts w') {m : Message} (hm : m ∈ posts) :
    let o : Occasion := ⟨w, e, told, posts, w'⟩
    o.concluded? = none → m.valueOf? = none
      ∧ ∀ cell, m.ending? = some cell → ∃ code, o.asked? = some (.ok (.run cell code)) := by
  intro o hconcluded
  cases h with
  | goes _ _ hgoes =>
    obtain ⟨hending, hvalue⟩ := hgoes.quiet hm
    exact ⟨hvalue, fun cell hcell => by cases hending.symm.trans hcell⟩
  | concludes h => cases h.symm.trans hconcluded
  | refuses h =>
    obtain rfl := List.mem_singleton.mp hm
    refine ⟨rfl, fun cell hcell => ?_⟩
    obtain rfl := Option.some.inj hcell
    exact ⟨_, h⟩
  | rejects | greets | fails | announces =>
    obtain rfl := List.mem_singleton.mp hm
    exact ⟨rfl, nofun⟩
  | _ => cases hm

theorem Moves.lawful_occasion (h : Moves w e told posts w') (hw : w.Steady) :
    Occasion.Lawful ⟨w, e, told, posts, w'⟩ where
  accepts {cell code} hasked := by
    obtain ⟨text, rfl, htext⟩ := Occasion.line_of_asked? hasked
    have hline := h.line
    rw [htext] at hline
    rw [Occasion.accepted?_eq_some]
    obtain ⟨hbusy, hposts, -⟩ | ⟨hidle, rfl⟩ := hline
    · simp [hposts, Option.isSome_iff_ne_none.mp hbusy]
    · exact ⟨fun _ => hidle, fun _ => ⟨⟨code, hasked⟩, rfl⟩⟩
  refuses {cell code} hasked hbusy := by
    obtain ⟨text, rfl, htext⟩ := Occasion.line_of_asked? hasked
    have hline := h.line
    rw [htext] at hline
    obtain ⟨-, -, hpost⟩ | ⟨hidle, -⟩ := hline
    · exact hpost
    · exact absurd hidle (Option.isSome_iff_ne_none.mp hbusy)
  rejects {e} hasked := by
    obtain ⟨text, rfl, htext⟩ := Occasion.line_of_asked? hasked
    have hline := h.line
    rwa [htext] at hline
  fails {id value e} hasked herror := by
    obtain ⟨text, rfl, htext⟩ := Occasion.line_of_asked? hasked
    have hline := h.line
    rw [htext] at hline
    obtain ⟨hunknown, rfl⟩ := error_of_deliver hw herror
    exact hline hunknown
  hands := h.hands hw
  results := h.results hw
  concludes {cell result} hconcluded := by
    have ⟨hevent, hended⟩ := Occasion.concluded?_eq_some.mp hconcluded
    obtain rfl : e = .conclude := hevent
    rw [← Message.ofResult_eq]
    exact h.posts_of_ended hended
  quiet hconcluded {m} hm := h.quiet hm hconcluded

/-! ### All occasions -/

-- What a worker has done, and where it is.
structure Orderly (past : List Occasion) (w : Worker) : Prop where
  -- A worker is idle, runs a cell, or holds back the result of one.
  place : [w.isIdle, w.session.isBusy, w.ended.isSome].count true = 1
  occasions : ∀ o ∈ past, o.Lawful
  posted : w.posted = past.flatMap Occasion.posts
  -- The ends of all accepted cells but the one in hand were told, in the order of acceptance.
  hands : past.filterMap Occasion.accepted? = past.flatMap Occasion.endings ++ w.inHand?.toList
  -- So were the results that the session gave.
  results : past.flatMap (·.told.filterMap Notice.result?)
    = past.filterMap Occasion.concluded? ++ w.ended.toList
  -- When the input ends, all that was posted is written.
  shutDown : w.shutDown.written = w.posted

theorem Steady.place (hw : w.Steady) :
    [w.isIdle, w.session.isBusy, w.ended.isSome].count true = 1 := by
  have hended := hw.ended
  rw [isIdle, Session.isBusy]
  cases hf : w.session.inFlight with
  | none => cases w.ended <;> rfl
  | some f =>
    rw [hended (by rw [hf]; rfl)]
    rfl

theorem orderly_new (options : WorkerOptions) : Orderly [] (new options) where
  place := (steady_new options).place
  occasions := List.forall_mem_nil _
  posted := rfl
  hands := rfl
  results := rfl
  shutDown := written_shutDown _

theorem Orderly.step {past : List Occasion} (h : Orderly past w) (hw : w.Steady)
    (e : WorkerEvent) : Orderly (past ++ [w.occasion e]) (w.step e) := by
  have hmoves := moves_occasion hw e
  have hlawful := hmoves.lawful_occasion hw
  refine ⟨(hmoves.steady hw).place, ?_, ?_, ?_, ?_, written_shutDown _⟩
  · exact List.forall_mem_append.mpr ⟨h.occasions, List.forall_mem_singleton.mpr hlawful⟩
  · rw [hmoves.posted, h.posted]
    simp
  · have hhands := h.hands
    rw [List.filterMap_eq_flatMap_toList] at hhands ⊢
    exact flatMap_snoc hhands hlawful.hands
  · have hresults := h.results
    rw [List.filterMap_eq_flatMap_toList] at hresults ⊢
    exact flatMap_snoc hresults hlawful.results

theorem orderly_run (options : WorkerOptions) (events : List WorkerEvent) :
    Orderly ((new options).history events) ((new options).run events) := by
  induction events using List.reverseRecOn with
  | nil => exact orderly_new options
  | append_singleton events e ih =>
    rw [history_snoc, run_snoc]
    exact ih.step ((steady_new options).run events) e

end Worker
end NoteCell
