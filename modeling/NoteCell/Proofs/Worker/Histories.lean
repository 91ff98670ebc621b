import NoteCell.Proofs.Session.Sequels
import NoteCell.Worker.Service

/-!
What can happen to a worker, one thing at a time, and histories of such things: what was posted each
time, and the cell that is in hand.
-/
namespace NoteCell

-- What has come in is what went out and what is left.
theorem flatMap_snoc {α β : Type} {past : List α} {a : α} {received given : α → List β}
    {left left' : List β} (h : past.flatMap received = past.flatMap given ++ left)
    (ha : left ++ received a = given a ++ left') :
    (past ++ [a]).flatMap received = (past ++ [a]).flatMap given ++ left' := by
  simp [h, List.append_assoc, ha]

-- How a notice is told to the host.
def Notice.messages : Notice → List Message
  | hostText text => [.stdout text]
  | hostImage data => [.executeResult none (.image data)]
  | request e => [.ofEvent e]
  | result cell r => Message.ofResult cell r

theorem OutputTarget.clear_of_writes {t : OutputTarget} {sink : Nat} (h : t.writes sink = []) :
    t.clear sink = t := by
  have hsinks : t.sinks.modify sink (fun _ => #[]) = t.sinks := by
    refine Array.ext (Array.size_modify ..) fun i hi hi' => ?_
    rw [Array.getElem_modify]
    split
    case isTrue heq =>
      subst heq
      have hempty : t.sinks.getD sink #[] = #[] := Array.toList_eq_nil_iff.mp h
      rwa [Array.getD_eq_getD_getElem?, Array.getElem?_eq_getElem hi', Option.getD_some,
        eq_comm] at hempty
    case isFalse => rfl
  rw [clear, hsinks]

namespace Worker

/-! ### Messages and cells in hand -/

section

variable (w : Worker)

-- All messages so far, in order.
def posted : List Message := w.written ++ w.outbox

-- Messages that the worker holds back.
def pending : List Message :=
  w.waits.map Message.ofEvent ++ w.ended.elim [] fun (cell, r) => Message.ofResult cell r

-- The cell that was taken on and was not told of yet.
def inHand? : Option String := (w.session.inFlight.map InFlight.cell).or (w.ended.map (·.1))

-- What a line asks for, unless it is blank.
def asked? (line : String) : Option (Except JsonError Request) :=
  if line.toList.all CharClass.isBlank then none else some (Request.decode line)

-- What the session tells the worker on an event.
def told : WorkerEvent → List Notice
  | .line text =>
    match asked? text with
    | some (.ok (.run cell code)) =>
      if w.isIdle then
        ((w.session.begin? reprFormatter cell (w.prepared code)).map (·.1)).getD []
      else []
    | _ => []
  | .progress fuel => (w.session.progress fuel reprFormatter).1
  | _ => []

end

variable {w w' : Worker} {told sent : List Notice} {posts : List Message} {s : Session}
  {r : Registry} {c : String} {e : WorkerEvent}

theorem isIdle_iff : w.isIdle ↔ w.inHand? = none := by
  simp [isIdle, inHand?, Session.isBusy]

theorem inHand?_eq_none : w.inHand? = none ↔ w.session.inFlight = none ∧ w.ended = none := by
  simp [inHand?]

theorem receive_eq (w : Worker) (line : String) : w.receive line =
    match asked? line with
    | none => w
    | some (.ok request) => w.handle request
    | some (.error e) => w.post (.refusal none ("invalid request: " ++ e.text)) := by
  rw [receive, asked?]
  split
  · rfl
  · cases Request.decode line <;> rfl

/-! ### Cells that go on -/

-- A worker after its session has gone on with a cell, by what the session tells and what is posted.
inductive Goes (w : Worker) (r : Registry) (c : String) :
    List Notice → List Message → Worker → Prop where
  | on {sent : List Notice} {s : Session} {f : InFlight} (hsent : ∀ n ∈ sent, n.Sent)
    (hs : s.Homed []) (hr : r.Onward s.registry) (hf : s.inFlight = some f) (hcell : f.cell = c) :
    Goes w r c sent (sent.flatMap Notice.messages)
      { w with session := s, outbox := w.outbox ++ sent.flatMap Notice.messages }
  | asks {sent : List Notice} {s : Session} {f : InFlight} (e : SuspendEvent)
    (hsent : ∀ n ∈ sent, n.Sent) (hs : s.Homed []) (hr : r.Onward s.registry)
    (hf : s.inFlight = some f) (hcell : f.cell = c) (hwaits : f.suspension = some e.id)
    (hfresh : r.nextId ≤ e.id) (hused : e.id < s.registry.nextId) :
    Goes w r c (sent ++ [.request e]) (sent.flatMap Notice.messages)
      { w with
        session := s
        outbox := w.outbox ++ sent.flatMap Notice.messages
        waits := w.waits ++ [e] }
  | ends {sent : List Notice} {s : Session} (result : CellResult) (hsent : ∀ n ∈ sent, n.Sent)
    (hs : s.Homed []) (hr : r.Onward s.registry) (hf : s.inFlight = none) :
    Goes w r c (sent ++ [.result c result]) (sent.flatMap Notice.messages)
      { w with
        session := s
        outbox := w.outbox ++ sent.flatMap Notice.messages
        ended := some (c, result) }

theorem foldl_hear_of_sent (hsent : ∀ n ∈ sent, n.Sent) :
    sent.foldl hear w = { w with outbox := w.outbox ++ sent.flatMap Notice.messages } := by
  induction sent generalizing w
  case nil => simp
  case cons n sent ih =>
    obtain ⟨hn, hsent⟩ := List.forall_mem_cons.mp hsent
    rw [List.foldl_cons, ih hsent]
    cases hn <;> simp [hear, post, Notice.messages]

-- Nothing is written outside of cells.
theorem take_of_homed (hs : s.Homed []) :
    w.take told s = told.foldl hear { w with session := s } := by
  simp only [take, hs.writes_root, OutputTarget.clear_of_writes hs.writes_root,
    List.filterMap_nil, List.append_nil]

theorem goes_take (h : Session.Sequel r c (told, s)) (hs : s.Homed []) :
    ∃ posts, Goes w r c told posts (w.take told s) := by
  rw [take_of_homed hs]
  cases h with
  | on hsent hr hf hcell =>
    rw [foldl_hear_of_sent hsent]
    exact ⟨_, .on hsent hs hr hf hcell⟩
  | asks e hsent hr hf hcell hwaits hfresh hused =>
    rw [List.foldl_append, foldl_hear_of_sent hsent]
    exact ⟨_, .asks e hsent hs hr hf hcell hwaits hfresh hused⟩
  | ends result hsent hr hf =>
    rw [List.foldl_append, foldl_hear_of_sent hsent]
    exact ⟨_, .ends result hsent hs hr hf⟩

theorem Goes.posts_eq_nil (h : Goes w r c told posts w') (hsilent : ∀ n ∈ told, ¬n.Sent) :
    posts = [] := by
  have hnil {sent : List Notice} (hsent : ∀ n ∈ sent, n.Sent) (hmem : sent ⊆ told) :
      sent.flatMap Notice.messages = [] := by
    cases sent with
    | nil => rfl
    | cons n _ =>
      exact absurd (hsent n List.mem_cons_self) (hsilent n (hmem List.mem_cons_self))
  cases h with
  | on hsent => exact hnil hsent fun _ => id
  | asks _ hsent => exact hnil hsent (List.subset_append_left ..)
  | ends _ hsent => exact hnil hsent (List.subset_append_left ..)

theorem goes_begin? {source : String}
    (h : w.session.begin? reprFormatter c source = some (told, s)) (hs : s.Homed []) :
    Goes w w.session.registry c told [] (w.take told s) := by
  obtain ⟨posts, hgoes⟩ := goes_take (w := w) (Session.sequel_begin? h) hs
  have hposts := hgoes.posts_eq_nil (Session.not_sent_of_begin? h)
  rwa [hposts] at hgoes

/-! ### Steps -/

-- What holds of a worker at all times. No wait is given up before the worker shuts down.
structure Steady (w : Worker) : Prop where
  homed : w.session.Homed []
  givenUp : w.session.registry.givenUp = []
  ended : w.session.inFlight.isSome → w.ended = none

theorem Steady.inFlight_of_ended {cell : String} {result : CellResult} (hw : w.Steady)
    (h : w.ended = some (cell, result)) : w.session.inFlight = none := by
  by_contra hsome
  cases h.symm.trans (hw.ended (Option.isSome_iff_ne_none.mpr hsome))

-- What can happen to a worker, with what its session tells it and what it posts.
inductive Moves (w : Worker) :
    WorkerEvent → List Notice → List Message → Worker → Prop where
  | ignores {text : String} (h : asked? text = none) : Moves w (.line text) [] [] w
  | rejects {text : String} {e : JsonError} (h : asked? text = some (.error e)) :
    Moves w (.line text) [] [.refusal none ("invalid request: " ++ e.text)]
      (w.post (.refusal none ("invalid request: " ++ e.text)))
  | greets {text : String} (h : asked? text = some (.ok .greet)) :
    Moves w (.line text) [] [.initialized] (w.post .initialized)
  | refuses {text cell code : String} (h : asked? text = some (.ok (.run cell code)))
    (hbusy : w.inHand?.isSome) : Moves w (.line text) [] [.refusal (some cell) busyReason]
      (w.post (.refusal (some cell) busyReason))
  | accepts {text cell code : String} {told : List Notice} {w' : Worker}
    (h : asked? text = some (.ok (.run cell code))) (hidle : w.inHand? = none)
    (hgoes : Goes w w.session.registry cell told [] w') : Moves w (.line text) told [] w'
  | resumes {text value : String} {id : Nat} (h : asked? text = some (.ok (.resume id value)))
    (hwaiting : id ∈ w.session.registry.waiting) :
    Moves w (.line text) [] [] { w with session := { w.session with
      registry := { w.session.registry with
        waiting := w.session.registry.waiting.erase id
        answers := w.session.registry.answers ++ [(id, value)] } } }
  | fails {text value : String} {id : Nat} (h : asked? text = some (.ok (.resume id value)))
    (hwaiting : id ∉ w.session.registry.waiting) :
    Moves w (.line text) [] [.refusal none (SuspensionError.unknown id).message]
      (w.post (.refusal none (SuspensionError.unknown id).message))
  | rests {fuel : Nat} (h : w.session.inFlight = none) : Moves w (.progress fuel) [] [] w
  | stays {fuel id : Nat} {f : InFlight} (hf : w.session.inFlight = some f)
    (hwaits : f.suspension = some id) (hanswer : id ∉ w.session.registry.answers.map (·.1)) :
    Moves w (.progress fuel) [] [] w
  | goes {fuel : Nat} {f : InFlight} {told : List Notice} {posts : List Message} {w' : Worker}
    (hf : w.session.inFlight = some f)
    (hanswer : ∀ id, f.suspension = some id → id ∈ w.session.registry.answers.map (·.1))
    (hgoes : Goes w w.session.registry f.cell told posts w') :
    Moves w (.progress fuel) told posts w'
  | announces {e : SuspendEvent} {waits : List SuspendEvent} (h : w.waits = e :: waits) :
    Moves w .announce [] [.ofEvent e] { w with waits, outbox := w.outbox ++ [.ofEvent e] }
  | concludes {cell : String} {result : CellResult} (h : w.ended = some (cell, result)) :
    Moves w .conclude [] (Message.ofResult cell result)
      { w with ended := none, outbox := w.outbox ++ Message.ofResult cell result }
  | writes {m : Message} {outbox : List Message} (h : w.outbox = m :: outbox) :
    Moves w .write [] [] { w with outbox, written := w.written ++ [m] }
  | skips {e : WorkerEvent} (h : e = .announce ∧ w.waits = [] ∨ e = .conclude ∧ w.ended = none
      ∨ e = .write ∧ w.outbox = []) : Moves w e [] [] w

theorem moves_receive (hw : w.Steady) (text : String) :
    ∃ posts, Moves w (.line text) (w.told (.line text)) posts (w.receive text) := by
  rw [receive_eq, Worker.told]
  cases h : asked? text with
  | none => exact ⟨_, .ignores h⟩
  | some outcome =>
    cases outcome with
    | error e => exact ⟨_, .rejects h⟩
    | ok request =>
      cases request with
      | greet => exact ⟨_, .greets h⟩
      | run cell code =>
        dsimp only [handle, start]
        split
        case isTrue hidle =>
          have hfree := isIdle_iff.mp hidle
          have hnone := (inHand?_eq_none.mp hfree).1
          obtain ⟨⟨told, s⟩, hbegin⟩ := Option.isSome_iff_exists.mp
            (Session.begin?_isSome hnone reprFormatter cell (w.prepared code))
          rw [hbegin]
          exact ⟨_, .accepts h hfree (goes_begin? hbegin (hw.homed.begin? hbegin))⟩
        case isFalse hbusy =>
          refine ⟨_, .refuses h (Option.isSome_iff_ne_none.mpr fun hfree => hbusy ?_)⟩
          exact isIdle_iff.mpr hfree
      | resume id value =>
        dsimp only [handle, resume, Session.deliver, Registry.resume]
        by_cases hwaiting : id ∈ w.session.registry.waiting
        · have hkept : id ∉ w.session.registry.givenUp := hw.givenUp ▸ List.not_mem_nil
          simp only [hwaiting, if_true, hkept, if_false]
          exact ⟨_, .resumes h hwaiting⟩
        · simp only [hwaiting, if_false]
          exact ⟨_, .fails h hwaiting⟩

theorem moves_progress (hw : w.Steady) (fuel : Nat) :
    ∃ posts, Moves w (.progress fuel) (w.told (.progress fuel)) posts (w.progress fuel) := by
  rw [Worker.told, progress]
  have hself : w.take [] w.session = w := take_of_homed hw.homed
  cases hf : w.session.inFlight with
  | none =>
    rw [Session.progress_of_idle hf]
    dsimp only
    rw [hself]
    exact ⟨_, .rests hf⟩
  | some f =>
    by_cases hanswer : ∀ id, f.suspension = some id → id ∈ w.session.registry.answers.map (·.1)
    · obtain ⟨posts, hgoes⟩ := goes_take (w := w) (Session.sequel_progress hf) hw.homed.progress
      exact ⟨posts, .goes hf hanswer hgoes⟩
    · push Not at hanswer
      obtain ⟨id, hwaits, hanswer⟩ := hanswer
      rw [Session.progress_of_waiting hf hwaits hanswer]
      dsimp only
      rw [hself]
      exact ⟨_, .stays hf hwaits hanswer⟩

theorem moves_step (hw : w.Steady) (e : WorkerEvent) :
    ∃ posts, Moves w e (w.told e) posts (w.step e) := by
  cases e with
  | line text => exact moves_receive hw text
  | progress fuel => exact moves_progress hw fuel
  | announce =>
    rw [step, announce]
    split
    · exact ⟨_, .skips (.inl ⟨rfl, ‹_›⟩)⟩
    · exact ⟨_, .announces ‹_›⟩
  | conclude =>
    rw [step, conclude]
    split
    · exact ⟨_, .skips (.inr (.inl ⟨rfl, ‹_›⟩))⟩
    · exact ⟨_, .concludes ‹_›⟩
  | write =>
    rw [step, write]
    split
    · exact ⟨_, .skips (.inr (.inr ⟨rfl, ‹_›⟩))⟩
    · exact ⟨_, .writes ‹_›⟩

theorem Goes.steady (h : Goes w w.session.registry c told posts w')
    (hgivenUp : w.session.registry.givenUp = []) (hended : w.ended = none) : w'.Steady := by
  cases h with
  | on _ hs hr _ _ => exact ⟨hs, hr.givenUp.trans hgivenUp, fun _ => hended⟩
  | asks _ _ hs hr _ _ _ _ _ => exact ⟨hs, hr.givenUp.trans hgivenUp, fun _ => hended⟩
  | ends _ _ hs hr hf =>
    refine ⟨hs, hr.givenUp.trans hgivenUp, fun hsome => ?_⟩
    rw [hf] at hsome
    cases hsome

theorem Moves.steady (h : Moves w e told posts w') (hw : w.Steady) : w'.Steady := by
  cases h
  case accepts hidle hgoes =>
    exact hgoes.steady hw.givenUp (inHand?_eq_none.mp hidle).2
  case goes hf _ hgoes => exact hgoes.steady hw.givenUp (hw.ended (by rw [hf]; rfl))
  case resumes => exact ⟨hw.homed.congr rfl rfl, hw.givenUp, hw.ended⟩
  case concludes => exact ⟨hw.homed, hw.givenUp, fun _ => rfl⟩
  all_goals exact ⟨hw.homed, hw.givenUp, hw.ended⟩

theorem Goes.posted (h : Goes w r c told posts w') : w'.posted = w.posted ++ posts := by
  cases h
  all_goals exact (List.append_assoc ..).symm

theorem Moves.posted (h : Moves w e told posts w') : w'.posted = w.posted ++ posts := by
  cases h
  case accepts hgoes => exact hgoes.posted
  case goes hgoes => exact hgoes.posted
  case writes hm => simp [Worker.posted, hm]
  all_goals simp [Worker.posted, post]

theorem steady_new (options : WorkerOptions) : (new options).Steady :=
  ⟨Session.homed_new true, rfl, nofun⟩

theorem Steady.run (hw : w.Steady) (events : List WorkerEvent) : (w.run events).Steady := by
  induction events generalizing w
  case nil => exact hw
  case cons e events ih =>
    obtain ⟨posts, hmoves⟩ := moves_step hw e
    exact ih (hmoves.steady hw)

end Worker

/-! ### Occasions -/

-- One thing that happened to a worker, with what the session told then and what was posted.
structure Occasion where
  before : Worker
  event : WorkerEvent
  told : List Notice
  posts : List Message
  after : Worker

namespace Occasion

variable (o : Occasion)

-- What a line asked for.
def asked? : Option (Except JsonError Request) :=
  match o.event with
  | .line text => Worker.asked? text
  | _ => none

-- The cell of a run request that was not refused.
def accepted? : Option String :=
  match o.asked? with
  | some (.ok (.run cell _)) => if o.posts.isEmpty then some cell else none
  | _ => none

-- The cell that was told of as ended.
def concluded? : Option (String × CellResult) :=
  match o.event with
  | .conclude => o.before.ended
  | _ => none

end Occasion

namespace Worker

variable {w : Worker}

def occasion (w : Worker) (e : WorkerEvent) : Occasion :=
  ⟨w, e, w.told e, (w.step e).posted.drop w.posted.length, w.step e⟩

-- What happens to a worker, in order.
def history (w : Worker) : List WorkerEvent → List Occasion
  | [] => []
  | e :: events => w.occasion e :: (w.step e).history events

theorem history_snoc (w : Worker) (events : List WorkerEvent) (e : WorkerEvent) :
    w.history (events ++ [e]) = w.history events ++ [(w.run events).occasion e] := by
  induction events generalizing w
  case nil => rfl
  case cons first events ih => exact congrArg _ (ih _)

theorem run_snoc (w : Worker) (events : List WorkerEvent) (e : WorkerEvent) :
    w.run (events ++ [e]) = (w.run events).step e :=
  List.foldl_append

theorem written_shutDown (w : Worker) : w.shutDown.written = w.posted := by
  obtain ⟨options, session, waits, ended, outbox, written⟩ := w
  simp only [shutDown]
  generalize session.drop = session
  induction outbox generalizing written with
  | nil => exact (List.append_nil written).symm
  | cons m outbox ih =>
    refine (ih (written ++ [m])).trans ?_
    simp [posted]

theorem moves_occasion (hw : w.Steady) (e : WorkerEvent) :
    Moves w e (w.occasion e).told (w.occasion e).posts (w.step e) := by
  obtain ⟨posts, hmoves⟩ := moves_step hw e
  have hposts : (w.occasion e).posts = posts := by
    rw [occasion, hmoves.posted, List.drop_left]
  rwa [hposts]

end Worker
end NoteCell
