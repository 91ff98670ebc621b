import NoteCell.Proofs.Worker.Histories

/-!
What a cell produces goes different ways to the host: texts and images at once, waits and the end of
the cell through queues of their own. It still arrives in the order in which it was produced, as
long as the host answers only what it was asked.
-/
namespace NoteCell

-- The wait that is announced.
def Message.wait? : Message → Option Nat
  | inputRequest id _ _ => some id
  | _ => none

theorem Message.waits_ofResult {cell : String} {r : CellResult} :
    (ofResult cell r).filterMap wait? = [] := by
  obtain ⟨_ | _, _, _⟩ | _ := r <;> rfl

theorem Notice.waits_of_sent {sent : List Notice} (hsent : ∀ n ∈ sent, n.Sent) :
    (sent.flatMap messages).filterMap Message.wait? = [] := by
  refine List.filterMap_eq_nil_iff.mpr fun m hm => ?_
  obtain ⟨n, hn, hm⟩ := List.mem_flatMap.mp hm
  cases hsent n hn <;> rw [List.mem_singleton.mp hm] <;> rfl

namespace Occasion

variable (o : Occasion)

-- What the cell in flight produced for the host.
def produced : List Message := o.told.flatMap Notice.messages

-- The answer to a line belongs to no cell, and anything else to the latest.
def owner (latest : Nat) : Option Nat :=
  match o.event with
  | .line _ => none
  | _ => some latest

-- The wait that a line answered.
def answered? : Option Nat :=
  match o.asked? with
  | some (.ok (.resume id _)) => some id
  | _ => none

-- What was answered had been asked: its announcement had been written.
def Patient : Prop := ∀ id ∈ o.answered?, id ∈ o.before.written.filterMap Message.wait?

instance : Decidable o.Patient :=
  inferInstanceAs (Decidable (∀ id ∈ o.answered?, id ∈ o.before.written.filterMap Message.wait?))

end Occasion

namespace Worker

/-! ### Owners -/

-- Occasions, each with the number of cells that had been accepted by then.
def numbered (latest : Nat) : List Occasion → List (Nat × Occasion)
  | [] => []
  | o :: past =>
    let latest := latest + o.accepted?.toList.length
    (latest, o) :: numbered latest past

def latest (past : List Occasion) : Nat := (past.filterMap Occasion.accepted?).length

-- All that was posted, with the number of the cell that it belongs to.
def owned (past : List Occasion) : List (Option Nat × Message) :=
  (numbered 0 past).flatMap fun (n, o) => o.posts.map (o.owner n, ·)

-- All that was produced, with the number of the cell that produced it.
def produced (past : List Occasion) : List (Option Nat × Message) :=
  (numbered 0 past).flatMap fun (n, o) => o.produced.map (some n, ·)

-- The messages of one cell.
def messagesOf (n : Nat) (messages : List (Option Nat × Message)) : List Message :=
  (messages.filter (·.1 = some n)).map (·.2)

variable {w w' : Worker} {told : List Notice} {posts : List Message} {r : Registry} {c : String}
  {e : WorkerEvent} {past : List Occasion}

theorem numbered_snoc (n : Nat) (past : List Occasion) (o : Occasion) :
    numbered n (past ++ [o]) = numbered n past ++ [(n + latest (past ++ [o]), o)] := by
  induction past generalizing n with
  | nil => simp [numbered, latest, List.filterMap_eq_flatMap_toList]
  | cons first past ih =>
    have hlatest : latest ((first :: past) ++ [o])
        = first.accepted?.toList.length + latest (past ++ [o]) := by
      simp [latest, List.filterMap_eq_flatMap_toList]
    rw [hlatest, List.cons_append, numbered, numbered, ih, ← Nat.add_assoc]
    rfl

/-! ### One occasion -/

-- At most one wait is held back. It is that of the cell in flight, and was not answered, since it
-- was not announced.
structure Waiting (w : Worker) : Prop where
  waits : w.waits = [] ∨ ∃ e f, w.waits = [e] ∧ w.session.inFlight = some f
    ∧ f.suspension = some e.id ∧ e.id < w.session.registry.nextId
    ∧ e.id ∉ w.posted.filterMap Message.wait?
  known : ∀ id ∈ w.posted.filterMap Message.wait?, id < w.session.registry.nextId
  answers : w.session.registry.answers.map (·.1) ⊆ w.posted.filterMap Message.wait?

theorem waiting_new (options : WorkerOptions) : (new options).Waiting where
  waits := .inl rfl
  known := List.forall_mem_nil _
  answers := List.nil_subset _

theorem Waiting.waits_of_idle (hw : w.Waiting) (hidle : w.session.inFlight = none) :
    w.waits = [] := by
  obtain hnil | ⟨e, f, -, hf, -⟩ := hw.waits
  · exact hnil
  · cases hidle.symm.trans hf

-- A cell that goes on has no wait that is held back.
theorem Waiting.waits_of_goes {f : InFlight} (hw : w.Waiting) (hf : w.session.inFlight = some f)
    (hanswer : ∀ id, f.suspension = some id → id ∈ w.session.registry.answers.map (·.1)) :
    w.waits = [] := by
  obtain hnil | ⟨e, f', -, hf', hwaits, -, hunposted⟩ := hw.waits
  · exact hnil
  · obtain rfl := Option.some.inj (hf.symm.trans hf')
    exact absurd (hw.answers (hanswer e.id hwaits)) hunposted

-- Messages other than announcements change nothing.
theorem Waiting.post (hw : w.Waiting) {ms : List Message} (hms : ms.filterMap Message.wait? = [])
    (hposted : w'.posted = w.posted ++ ms) (hsession : w'.session = w.session)
    (hwaits : w'.waits = w.waits) : w'.Waiting := by
  have hsame : w'.posted.filterMap Message.wait? = w.posted.filterMap Message.wait? := by
    rw [hposted, List.filterMap_append, hms, List.append_nil]
  constructor
  all_goals rw [hsession, hsame]
  · rw [hwaits]
    exact hw.waits
  · exact hw.known
  · exact hw.answers

theorem Goes.waiting (h : Goes w w.session.registry c told posts w') (hw : w.Waiting)
    (hwaits : w.waits = []) : w'.Waiting := by
  have hsame (hposts : posts.filterMap Message.wait? = []) :
      w'.posted.filterMap Message.wait? = w.posted.filterMap Message.wait? := by
    rw [h.posted, List.filterMap_append, hposts, List.append_nil]
  have hknown {r : Registry} (hr : w.session.registry.Onward r) :
      ∀ id ∈ w.posted.filterMap Message.wait?, id < r.nextId := fun id hid =>
    (hw.known id hid).trans_le hr.nextId
  have hanswers {r : Registry} (hr : w.session.registry.Onward r) :
      r.answers.map (·.1) ⊆ w.posted.filterMap Message.wait? :=
    fun id hid => hw.answers (List.map_subset _ hr.answers hid)
  cases h with
  | on hsent _ hr =>
    have hsame := hsame (Notice.waits_of_sent hsent)
    exact ⟨.inl hwaits, hsame ▸ hknown hr, hsame ▸ hanswers hr⟩
  | asks e hsent _ hr hf _ hsuspension hfresh hused =>
    have hsame := hsame (Notice.waits_of_sent hsent)
    refine ⟨.inr ⟨e, _, by simp [hwaits], hf, hsuspension, hused, ?_⟩, hsame ▸ hknown hr,
      hsame ▸ hanswers hr⟩
    rw [hsame]
    exact fun hid => Nat.not_lt_of_le hfresh (hw.known e.id hid)
  | ends _ hsent _ hr =>
    have hsame := hsame (Notice.waits_of_sent hsent)
    exact ⟨.inl hwaits, hsame ▸ hknown hr, hsame ▸ hanswers hr⟩

theorem Moves.waiting (h : Moves w e told posts w') (hw : w.Waiting)
    (hpatient : Occasion.Patient ⟨w, e, told, posts, w'⟩) : w'.Waiting := by
  have hposted := h.posted
  cases h with
  | accepts _ hidle hgoes =>
    exact hgoes.waiting hw (hw.waits_of_idle (inHand?_eq_none.mp hidle).1)
  | goes hf hanswer hgoes => exact hgoes.waiting hw (hw.waits_of_goes hf hanswer)
  | @resumes text value id h =>
    have hasked : id ∈ w.written.filterMap Message.wait? :=
      hpatient id (by simp [Occasion.answered?, Occasion.asked?, h])
    have hmem : id ∈ w.posted.filterMap Message.wait? := by
      rw [Worker.posted, List.filterMap_append]
      exact List.mem_append_left _ hasked
    refine ⟨hw.waits, hw.known, ?_⟩
    rw [List.map_append]
    exact List.append_subset.mpr ⟨hw.answers, List.cons_subset.mpr ⟨hmem, List.nil_subset _⟩⟩
  | @announces e waits h =>
    obtain hnil | ⟨e', f, hwaits, -, -, hused, -⟩ := hw.waits
    · cases h.symm.trans hnil
    · obtain ⟨rfl, rfl⟩ := List.cons.inj (h.symm.trans hwaits)
      constructor
      all_goals rw [hposted, List.filterMap_append]
      · exact .inl rfl
      · refine List.forall_mem_append.mpr ⟨hw.known, ?_⟩
        simpa [Message.ofEvent, Message.wait?] using hused
      · exact fun id hid => List.mem_append_left _ (hw.answers hid)
  | concludes h => exact hw.post Message.waits_ofResult hposted rfl rfl
  | _ => exact hw.post rfl hposted rfl rfl

/-! ### Queues -/

theorem pending_eq_nil : w.pending = [] ↔ w.waits = [] ∧ w.ended = none := by
  have hofResult (cell : String) (result : CellResult) : Message.ofResult cell result ≠ [] := by
    cases result <;> simp [Message.ofResult]
  cases hended : w.ended <;> simp [pending, hended, hofResult]

theorem Goes.ledger (h : Goes w r c told posts w') (hpending : w.pending = []) :
    told.flatMap Notice.messages = posts ++ w'.pending := by
  obtain ⟨hwaits, hended⟩ := pending_eq_nil.mp hpending
  cases h with
  | on => simp [pending, hwaits, hended]
  | asks => simp [pending, hwaits, hended, Notice.messages]
  | ends => simp [pending, hwaits, Notice.messages]

theorem Waiting.pending_of_inHand? (hw : w.Waiting) (hidle : w.inHand? = none) :
    w.pending = [] := by
  obtain ⟨hf, hended⟩ := inHand?_eq_none.mp hidle
  exact pending_eq_nil.mpr ⟨hw.waits_of_idle hf, hended⟩

@[simp] theorem filter_owned_some (n : Nat) (ms : List Message) :
    (ms.map (some n, ·)).filter (·.1.isSome) = ms.map (some n, ·) := by
  simp [List.filter_map, Function.comp_def]

@[simp] theorem filter_owned_none (ms : List Message) :
    (ms.map ((none : Option Nat), ·)).filter (·.1.isSome) = [] := by
  simp [List.filter_map, Function.comp_def]

-- What a cell has produced is posted, or held back behind what is held back already.
theorem Moves.ledger (h : Moves w e told posts w') (hsteady : w.Steady) (hw : w.Waiting)
    (n : Nat) :
    let o : Occasion := ⟨w, e, told, posts, w'⟩
    let latest := n + o.accepted?.toList.length
    w.pending.map (some n, ·) ++ o.produced.map (some latest, ·)
      = (o.posts.map (o.owner latest, ·)).filter (·.1.isSome)
        ++ w'.pending.map (some latest, ·) := by
  dsimp only
  cases h with
  | accepts _ hidle hgoes =>
    have hpending := hw.pending_of_inHand? hidle
    have hledger := hgoes.ledger hpending
    rw [Occasion.produced, hledger, hpending]
    rfl
  | goes hf hanswer hgoes =>
    have hpending : w.pending = [] := pending_eq_nil.mpr
      ⟨hw.waits_of_goes hf hanswer, hsteady.ended (by rw [hf]; rfl)⟩
    have hledger := hgoes.ledger hpending
    simp [Occasion.produced, hledger, hpending, Occasion.accepted?, Occasion.asked?, Occasion.owner]
  | announces h =>
    simp [Occasion.produced, Occasion.accepted?, Occasion.asked?, Occasion.owner, pending, h]
  | concludes h =>
    have hwaits := hw.waits_of_idle (hsteady.inFlight_of_ended h)
    simp [Occasion.produced, Occasion.accepted?, Occasion.asked?, Occasion.owner, pending, h,
      hwaits]
  | skips h =>
    obtain ⟨rfl, -⟩ | ⟨rfl, -⟩ | ⟨rfl, -⟩ := h
    all_goals simp [Occasion.produced, Occasion.accepted?, Occasion.asked?]
  | _ =>
    simp [Occasion.produced, Occasion.accepted?, Occasion.asked?, Occasion.owner, pending, post, *]

/-! ### All occasions -/

-- Everything posted has its owner, and what belongs to cells is what they produced, apart from what
-- is held back.
structure Causal (past : List Occasion) (w : Worker) : Prop where
  waiting : w.Waiting
  posted : (owned past).map (·.2) = w.posted
  order : produced past
    = (owned past).filter (·.1.isSome) ++ w.pending.map (some (latest past), ·)

theorem Causal.step (h : Causal past w) (hw : w.Steady) (hpatient : (w.occasion e).Patient) :
    Causal (past ++ [w.occasion e]) (w.step e) := by
  have hmoves := moves_occasion hw e
  have hlatest : latest (past ++ [w.occasion e])
      = latest past + (w.occasion e).accepted?.toList.length := by
    simp [latest, List.filterMap_eq_flatMap_toList]
  have hnumbered := numbered_snoc 0 past (w.occasion e)
  rw [Nat.zero_add] at hnumbered
  refine ⟨hmoves.waiting h.waiting hpatient, ?_, ?_⟩
  · rw [owned, hnumbered, List.flatMap_append, List.map_append, hmoves.posted, ← h.posted]
    simp [owned, Function.comp_def]
  · have horder := h.order
    rw [produced, owned, List.filter_flatMap] at horder ⊢
    rw [hnumbered]
    refine flatMap_snoc horder ?_
    rw [hlatest]
    exact hmoves.ledger hw h.waiting (latest past)

theorem causal_run (options : WorkerOptions) (events : List WorkerEvent)
    (hpatient : ∀ o ∈ (new options).history events, o.Patient) :
    Causal ((new options).history events) ((new options).run events) := by
  induction events using List.reverseRecOn with
  | nil => exact ⟨waiting_new options, rfl, rfl⟩
  | append_singleton events e ih =>
    rw [history_snoc] at hpatient ⊢
    rw [run_snoc]
    obtain ⟨hbefore, hlast⟩ := List.forall_mem_append.mp hpatient
    exact (ih hbefore).step ((steady_new options).run events) (List.forall_mem_singleton.mp hlast)

-- What was written of each cell, and would be if the input ended, by what the cell has produced.
structure Faithful (past : List Occasion) (w : Worker) : Prop where
  written : ((owned past).take w.written.length).map (·.2) = w.written
  shutDown : (owned past).map (·.2) = w.shutDown.written
  -- What was written of a cell comes in the order in which it was produced, with nothing left out.
  order (n : Nat) :
    messagesOf n ((owned past).take w.written.length) <+: messagesOf n (produced past)
  ending (n : Nat) : messagesOf n (owned past) <+: messagesOf n (produced past)
  -- When nothing is held back or left to write, all was written.
  complete (n : Nat) (hpending : w.pending = []) (houtbox : w.outbox = []) :
    messagesOf n ((owned past).take w.written.length) = messagesOf n (produced past)

theorem messagesOf_append (n : Nat) (messages more : List (Option Nat × Message)) :
    messagesOf n (messages ++ more) = messagesOf n messages ++ messagesOf n more := by
  simp [messagesOf]

theorem messagesOf_filter (n : Nat) (messages : List (Option Nat × Message)) :
    messagesOf n (messages.filter (·.1.isSome)) = messagesOf n messages := by
  rw [messagesOf, messagesOf, List.filter_filter]
  congr 1
  refine List.filter_congr fun p _ => ?_
  cases p.1 <;> simp

theorem Causal.messagesOf_prefix (h : Causal past w) (n : Nat) :
    messagesOf n (owned past) <+: messagesOf n (produced past) := by
  rw [h.order, messagesOf_append, messagesOf_filter]
  exact List.prefix_append ..

-- The messages of each cell arrive in the order in which the cell produced them, whatever happens
-- to the worker in whatever order, as long as the host answers only what it was asked.
theorem faithful_run (options : WorkerOptions) (events : List WorkerEvent)
    (hpatient : ∀ o ∈ (new options).history events, o.Patient) :
    Faithful ((new options).history events) ((new options).run events) := by
  have hcausal := causal_run options events hpatient
  generalize (new options).history events = past at hcausal
  generalize (new options).run events = w at hcausal
  have htake : (owned past).take w.written.length <+: owned past := List.take_prefix ..
  constructor
  case written => rw [List.map_take, hcausal.posted, posted, List.take_left]
  case shutDown => rw [written_shutDown, hcausal.posted]
  case order => exact fun n => ((htake.filter _).map _).trans (hcausal.messagesOf_prefix n)
  case ending => exact hcausal.messagesOf_prefix
  case complete =>
    intro n hpending houtbox
    have hall : (owned past).take w.written.length = owned past := by
      refine List.take_of_length_le ?_
      rw [← List.length_map (f := Prod.snd), hcausal.posted, posted, houtbox, List.append_nil]
    rw [hall, hcausal.order, hpending, List.map_nil, List.append_nil, messagesOf_filter]

-- A cell sends a text, asks, is answered, and has a value.
theorem faithful_run_answered :
    let events : List WorkerEvent := [
      .line (Request.run "c" "import host\nhost.text('a')\ninput('x')").encode.text,
      .progress 100, .write, .announce, .write,
      .line (Request.resume 0 "b").encode.text, .progress 100, .conclude, .write, .write]
    let past := (new .standard).history events
    (∀ o ∈ past, o.Patient) ∧ (messagesOf 1 (produced past)).length = 4
      ∧ Faithful past ((new .standard).run events) := by
  intro events past
  have hpatient : ∀ o ∈ past, o.Patient := by decide +kernel
  exact ⟨hpatient, by decide +kernel, faithful_run _ _ hpatient⟩

end Worker
end NoteCell
