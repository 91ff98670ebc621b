import NoteCell.Proofs.Blocking.Hosted
import NoteCell.Proofs.Blocking.Simulation

/-!
A cell that asks directly under the blocking reading, and a session that runs the text with its
suspension points. The outside gets to know the same of both, unless a statement has nothing to
leave: then the text is refused before it runs.
-/
namespace NoteCell

/-! ### Machines -/

def NodeInfo.blank (_ : NodeInfo) : NodeInfo := ⟨0, .unknown, 0⟩

namespace Machine

variable {m m' n : Machine}

-- The second machine runs the trees of the first with their suspension points, which may have other
-- ids and places.
def Mirrors (m m' : Machine) : Prop :=
  ∃ n, m.Suspends n ∧ m'.mapInfo NodeInfo.blank = n.mapInfo NodeInfo.blank

theorem blockingStep_of_isHalted (h : m.isHalted) : m.blockingStep = m := by
  have hquiet : m.callsInput = false := by
    obtain ⟨control, frames, context, world⟩ := m
    cases control
    case waiting | ended => rfl
    all_goals cases h
  rw [blockingStep_of_not_callsInput hquiet, step_of_isHalted h]

theorem Suspends.answer {cell prompt : String} (h : m.Suspends n)
    (hm : m.control = .waiting cell prompt) (text : String) :
    (m.drained.answer text).Suspends (n.drained.answer text) := by
  obtain rfl := h.eq_changed (by rw [isEnded, hm])
  exact suspends_changed ⟨⟨h.safe.heap, h.safe.frames⟩, trivial⟩

namespace Mirrors

theorem control (h : m.Mirrors m') : m'.control.mapInfo NodeInfo.blank
    = (m.control.changed .suspended).mapInfo NodeInfo.blank := by
  obtain ⟨n, hn, hm'⟩ := h
  rw [← hn.control]
  exact congrArg Machine.control hm'

theorem world (h : m.Mirrors m') : m'.world.mapBodies Stmt.bare
    = (m.world.mapBodies (Stmt.suspended "input")).mapBodies Stmt.bare := by
  obtain ⟨n, hn, hm'⟩ := h
  rw [← hn.world]
  exact congrArg Machine.world hm'

theorem isHalted_eq (h : m.Mirrors m') : m'.isHalted = m.isHalted := by
  obtain ⟨n, hn, hm'⟩ := h
  have hcontrol := hn.control
  rw [← m'.isHalted_mapInfo, hm', n.isHalted_mapInfo, isHalted, hcontrol, isHalted]
  cases m.control <;> rfl

theorem control_eq (h : m.Mirrors m') (hm : m.isHalted) : m'.control = m.control := by
  have hcontrol := h.control
  obtain ⟨control, _, _, _⟩ := m
  obtain ⟨control', _, _, _⟩ := m'
  cases control
  case waiting | ended =>
    cases control' <;> cases hcontrol
    rfl
  all_goals cases hm

theorem goes (h : m.Mirrors m') (hm : m.isHalted = false) :
    ∃ k j, (blockingStep^[k + 1] m).Mirrors (step^[j + 1] m') := by
  obtain ⟨n, hn, hm'⟩ := h
  obtain ⟨k, j, hgoes⟩ := hn.rejoins hm
  have hcommutes : Function.Semiconj (mapInfo NodeInfo.blank) step step := mapInfo_step
  refine ⟨k, j, _, hgoes, ?_⟩
  rw [hcommutes.iterate_right, hcommutes.iterate_right, hm']

end Mirrors

theorem matching_mirrors : Matching blockingStep step Mirrors where
  still _ := blockingStep_of_isHalted
  still' _ := step_of_isHalted
  halted := Mirrors.isHalted_eq
  control := Mirrors.control_eq
  effects h := World.mk.inj h.world |>.2.1
  goes := Mirrors.goes
  answer text h hm := by
    obtain ⟨n, hn, hm'⟩ := h
    exact ⟨_, hn.answer hm text, congrArg (fun m => m.drained.answer text) hm'⟩

theorem mirrors_start {body body' : List Stmt} (hbody : ∀ s ∈ body, s.Safe .direct .none)
    (hbare : body'.map Stmt.bare = (body.map (Stmt.suspended "input")).map Stmt.bare)
    (cell : String) (hasHost : Bool) :
    (start body cell ⟨.empty, [], hasHost⟩).Mirrors (start body' cell ⟨.empty, [], hasHost⟩) := by
  refine ⟨_, suspends_changed (safe_start hbody cell Heap.safe_empty), ?_⟩
  have hempty (f : Stmt → Stmt) :
      World.mapBodies f ⟨.empty, [], hasHost⟩ = ⟨.empty, [], hasHost⟩ := by
    simp [World.mapBodies, Heap.mapBodies, Heap.empty]
  have hstart : changed .suspended (start body cell ⟨.empty, [], hasHost⟩)
      = start (body.map (Stmt.suspended "input")) cell ⟨.empty, [], hasHost⟩ :=
    congrArg (Machine.mk _ _ _) ((World.changed_ofStmt _ _).trans (hempty _))
  have hcell : Frame.mapInfo NodeInfo.blank (.cell body')
      = .mapInfo NodeInfo.blank (.cell (body.map (Stmt.suspended "input"))) :=
    congrArg Frame.cell hbare
  rw [hstart]
  simp only [start, mapInfo, List.map_cons, hcell]

end Machine

/-! ### Sessions -/

-- The second heap has the suspension points of functions too, whatever their ids and places.
structure Heap.Suspends (h h' : Heap) : Prop where
  bodies : h'.mapBodies Stmt.bare = (h.mapBodies (Stmt.suspended "input")).mapBodies Stmt.bare
  globals (name : String) : h'.binding? Heap.globals name = h.binding? Heap.globals name

theorem Heap.suspends_of_bodies {h h' : Heap}
    (hbodies : h'.mapBodies Stmt.bare
      = (h.mapBodies (Stmt.suspended "input")).mapBodies Stmt.bare) : h.Suspends h' where
  bodies := hbodies
  globals name := by
    rw [← binding?_mapBodies (f := Stmt.bare) (h := h'), hbodies, binding?_mapBodies,
      binding?_mapBodies]

theorem Machine.Mirrors.heap {m m' : Machine} (h : m.Mirrors m') :
    m.world.heap.Suspends m'.world.heap :=
  Heap.suspends_of_bodies (congrArg World.heap h.world)

theorem Heap.Suspends.formatter_eq {formatter : HeapFormatter} (hf : formatter.Blind) {h h' : Heap}
    (hh : h.Suspends h') : formatter h' = formatter h := by
  rw [← hf Stmt.bare h', hh.bodies, hf, hf]

-- What the first run comes to, the second comes to from some fuel on, with a related heap.
def Refines (R : Heap → Heap → Prop) (run run' : Nat → Option (List Notice × Heap)) : Prop :=
  ∀ fuel told h, run fuel = some (told, h) →
    ∃ fuel' h', R h h' ∧ ∀ more, fuel' ≤ more → run' more = some (told, h')

-- The prompts of requests, and the output and the message of the result.
def Notice.texts : Notice → List String
  | .request e => [e.prompt]
  | .result _ (.success _ out err) => [out, err]
  | .result _ (.failure message out err) => [message, out, err]
  | _ => []

namespace Session

variable {source : String} {c c' : Cell} {formatter : HeapFormatter}

theorem bare_withSuspensions (hparse : parse source = .ok c)
    (hparse' : parse (withSuspensions "input" source) = .ok c') :
    c'.bare = suspendedShape "input" c.bare := by
  obtain ⟨t, ht, hbare⟩ := @transform_of_parse "input" source c hparse
  have hread := parse_text_of_transform hparse hbare
  rw [withSuspensions_of_transform ht] at hparse'
  rw [hparse'] at hread
  exact hread.2.trans hbare

theorem hosted?_of_stray {source : String} {stray : Stray} {offset fuel : Nat} {hasHost : Bool}
    {cell : String} {answers : List String} (hparse : parse source = .ok c)
    (hstray : c.stray? = some (stray, offset)) :
    hosted? fuel formatter hasHost cell answers source
      = some ([.result cell (.failure (stray.report source offset) "" "")], .empty) := by
  rw [hosted?, host?_of_runnable_error rfl (runnable_of_stray hparse hstray)]
  rfl

-- The text with suspension points comes to what the source comes to under the blocking reading. A
-- text with a stray statement is refused before it runs.
theorem hosted?_withSuspensions (hparse : parse source = .ok c) (hdirect : c.asksDirectly)
    (hparse' : parse (withSuspensions "input" source) = .ok c') (hf : formatter.Blind)
    (hasHost : Bool) (cell : String) (answers : List String) :
    let text := withSuspensions "input" source
    let blocking fuel := c.blocking? fuel formatter hasHost cell answers
    let hosted fuel := hosted? fuel formatter hasHost cell answers text
    match c.stray? with
    | none => Refines Heap.Suspends blocking hosted
      ∧ Refines (fun h' h => h.Suspends h') hosted blocking
    | some (stray, _) => ∃ offset, Misplaced text stray offset ∧ ∀ fuel,
      hosted fuel = some ([.result cell (.failure (stray.report text offset) "" "")], .empty) := by
  intro text blocking hosted
  have hbare := bare_withSuspensions hparse hparse'
  have hstrays := Cell.stray?_of_suspendedShape hbare
  cases hstray : c.stray? with
  | none =>
    have hstray' : c'.stray? = none := by simpa [hstray] using hstrays
    have hhosted (fuel : Nat) : hosted fuel
        = evaluated? Machine.step fuel formatter hasHost cell answers c'.body :=
      hosted?_of_runnable (runnable_of_no_stray hparse' hstray')
    have hstart := Machine.mirrors_start (Cell.safe_direct hparse hdirect hstray)
      (Cell.body_of_suspendedShape hbare) cell hasHost
    refine ⟨fun fuel told h hblocking => ?_, fun fuel told h' hrun => ?_⟩
    · obtain ⟨fuel', m, m', hm, rfl, hmore⟩ := Machine.matching_mirrors.evaluates hstart
        (fun _ _ hm => hm.heap.formatter_eq hf) hblocking
      exact ⟨fuel', m'.world.heap, hm.heap, fun more hle => (hhosted more).trans (hmore more hle)⟩
    · rw [hhosted] at hrun
      obtain ⟨fuel', m', m, hm, rfl, hmore⟩ := Machine.matching_mirrors.flip.evaluates hstart
        (fun _ _ hm => (hm.heap.formatter_eq hf).symm) hrun
      exact ⟨fuel', m.world.heap, hm.heap, hmore⟩
  | some found =>
    obtain ⟨stray, offset⟩ := found
    rw [hstray, Option.map_some, Option.map_eq_some_iff] at hstrays
    obtain ⟨⟨_, offset'⟩, hstray', rfl⟩ := hstrays
    exact ⟨offset', ⟨c', hparse', hstray'⟩, fun fuel => hosted?_of_stray hparse' hstray'⟩

-- Calls in a function, in an argument of a call and in an operand.
theorem hosted?_withSuspensions_asked :
    let source := "def ask(p):\n    return int(input(p))\nprint(ask(input()) + int(input('m')))"
    let text := withSuspensions "input" source
    let answers := ["n", "3", "4"]
    ∃ c c', parse source = .ok c ∧ c.asksDirectly ∧ parse text = .ok c' ∧ reprFormatter.Blind
      ∧ (c.blocking? 200 reprFormatter true "c" answers).map (·.1.flatMap Notice.texts)
        = some ["", "n", "m", "7\n", ""]
      ∧ Refines Heap.Suspends (fun fuel => c.blocking? fuel reprFormatter true "c" answers)
        (fun fuel => hosted? fuel reprFormatter true "c" answers text)
      ∧ Refines (fun h' h => h.Suspends h')
        (fun fuel => hosted? fuel reprFormatter true "c" answers text)
        (fun fuel => c.blocking? fuel reprFormatter true "c" answers) := by
  intro source text answers
  have hcell : (parse source).toOption.any (fun c => decide (c.asksDirectly ∧ c.stray? = none
      ∧ (c.blocking? 200 reprFormatter true "c" answers).map (·.1.flatMap Notice.texts)
        = some ["", "n", "m", "7\n", ""])) = true := by
    decide +kernel
  have htext : (parse text).toBool = true := by decide +kernel
  cases hparse : parse source with
  | error e => simp [hparse, Except.toOption] at hcell
  | ok c =>
    cases hparse' : parse text with
    | error e => simp [hparse', Except.toBool] at htext
    | ok c' =>
      rw [hparse] at hcell
      obtain ⟨hdirect, hstray, hrun⟩ := of_decide_eq_true hcell
      have hrefines := hosted?_withSuspensions hparse hdirect hparse' blind_reprFormatter true "c"
        answers
      simp only [hstray] at hrefines
      exact ⟨c, c', rfl, hdirect, rfl, blind_reprFormatter, hrun, hrefines⟩

-- The cell writes before it comes to the stray return. Its text is refused at once, with the place
-- that the return has there.
theorem hosted?_withSuspensions_misplaced :
    let source := "print('a')\n\n\nreturn"
    let text := withSuspensions "input" source
    ∃ c c', parse source = .ok c ∧ c.asksDirectly ∧ parse text = .ok c' ∧ reprFormatter.Blind
      ∧ (c.blocking? 100 reprFormatter true "c" []).map (·.1.flatMap Notice.texts)
        = some ["SyntaxError: 'return' outside function", "a\n", ""]
      ∧ (∀ fuel, (hosted? fuel reprFormatter true "c" [] text).map (·.1.flatMap Notice.texts)
        = some ["SyntaxError: 'return' outside function (line 2, column 1)", "", ""])
      ∧ ¬ Refines Heap.Suspends (fun fuel => c.blocking? fuel reprFormatter true "c" [])
        (fun fuel => hosted? fuel reprFormatter true "c" [] text) := by
  intro source text
  have hcell : (parse source).toOption.any (fun c => decide (c.asksDirectly
      ∧ (c.blocking? 100 reprFormatter true "c" []).map (·.1.flatMap Notice.texts)
        = some ["SyntaxError: 'return' outside function", "a\n", ""])) = true := by
    decide +kernel
  have htext : (parse text).toOption.any (fun c => decide (
      (c.stray?.map fun (stray, offset) => stray.report text offset)
        = some "SyntaxError: 'return' outside function (line 2, column 1)")) = true := by
    decide +kernel
  cases hparse : parse source with
  | error e => simp [hparse, Except.toOption] at hcell
  | ok c =>
    cases hparse' : parse text with
    | error e => simp [hparse', Except.toOption] at htext
    | ok c' =>
      rw [hparse] at hcell
      rw [hparse'] at htext
      obtain ⟨hdirect, hrun⟩ := of_decide_eq_true hcell
      have hreport := of_decide_eq_true htext
      cases hstray : c'.stray? with
      | none => simp [hstray] at hreport
      | some found =>
        have hhosted (fuel : Nat) :
            (hosted? fuel reprFormatter true "c" [] text).map (·.1.flatMap Notice.texts)
              = some ["SyntaxError: 'return' outside function (line 2, column 1)", "", ""] := by
          rw [hstray, Option.map_some, Option.some.injEq] at hreport
          rw [hosted?_of_stray hparse' hstray]
          simp [Notice.texts, hreport]
        refine ⟨c, c', rfl, hdirect, rfl, blind_reprFormatter, hrun, hhosted, fun hrefines => ?_⟩
        obtain ⟨⟨told, h⟩, hblocking, htold⟩ := Option.map_eq_some_iff.mp hrun
        obtain ⟨fuel, h', -, hmore⟩ := hrefines 100 told h hblocking
        have hmore := hmore fuel (Nat.le_refl fuel)
        have hboth := hhosted fuel
        simp only [hmore, Option.map_some] at hboth
        rw [Option.some.injEq] at hboth
        simp [hboth] at htold

end Session
end NoteCell
