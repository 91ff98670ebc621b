import NoteCell.Proofs.Grammar.Parsed
import NoteCell.Proofs.Machine.Moves
import NoteCell.Proofs.Session.Accounts
import NoteCell.Proofs.Tree.Shape

/-!
Two cells that run one after the other, and one cell with the statements of both. The first cell and
the long one go on alike until the statements of the first are used up; from there the long one goes
on like the second, with what had been written before. A source whose first part ends its last line
has the statements of both parts, and comes to what the two come to as cells.
-/
namespace NoteCell

open NoteCell.Action

namespace Action

variable {α : Type} {a : Action α}

theorem Plain.hasHost (ha : Plain a) (w : World) : (a.run.run w).2.hasHost = w.hasHost := by
  induction ha generalizing w
  case bind a k ha hk iha ihk =>
    have hw := iha w
    rw [run_bind]
    rcases hrun : a.run.run w with ⟨_ | x, w'⟩
    · rwa [hrun] at hw
    · rw [hrun] at hw
      exact (ihk x w').trans hw
  case getThen k hk hsame ih => exact ih w w
  case heapThen k hk hsame ih => exact ih w.heap w
  all_goals rfl

theorem Local.hasHost {scope : Nat} (ha : a.Local scope) (w : World) :
    (a.run.run w).2.hasHost = w.hasHost := by
  induction ha generalizing w
  case plain ha => exact ha.hasHost w
  case bind a k ha hk iha ihk =>
    have hw := iha w
    rw [run_bind]
    rcases hrun : a.run.run w with ⟨_ | x, w'⟩
    · rwa [hrun] at hw
    · rw [hrun] at hw
      exact (ihk x w').trans hw
  all_goals rfl

end Action

-- What nodes carry, and the names of cells, are left out.
def TreeChange.blank : TreeChange where
  expr := Expr.bare
  stmt := Stmt.bare
  cell _ := ""
  form_stmt s := s.form_mapInfo

def MachineChange.blank : MachineChange := .over .blank [] []

-- What lets a cell go on with its next statement.
def Control.goesOn : Control → Bool
  | give _ | flow .normal => true
  | _ => false

namespace Machine

variable {m m' : Machine}

theorem hasHost_enter {caller inner : Context} {f : Closure} {args : Arguments} {world w : World}
    (h : (enter caller f args).run.run world = (.ok inner, w)) : w.hasHost = world.hasHost := by
  rw [run_enter] at h
  split at h
  · cases h
  · split at h
    · cases h
    · rw [← (Prod.mk.inj h).2]
      rfl

theorem hasHost_move (h : m.Moves m') : m'.world.hasHost = m.world.hasHost := by
  cases h
  case inside h =>
    obtain ⟨-, -, ⟨α, a, ha, hworld⟩, -, -⟩ := h
    rw [hworld, ha.hasHost]
  case aborts hworld _ _ => rw [hworld]
  case returns hworld _ _ => rw [hworld]
  case enters f args hrun _ _ _ => exact hasHost_enter hrun
  case starts f args inner w hrun hworld _ _ _ _ =>
    rw [hworld]
    change w.hasHost = _
    exact hasHost_enter hrun
  case asks hworld _ _ _ _ =>
    rw [hworld]
    rfl
  case resumes hworld _ _ _ =>
    rw [hworld]
    rfl
  case reuses hworld _ _ _ _ =>
    rw [hworld]
    rfl

/-! ### What stands on a cell -/

-- A machine without the frame of its cell. What remains when it has ended does not matter.
structure Rooted (root : Context) (m : Machine) : Prop where
  cells : m.cells = 0
  unfinished : m.isFinished = false
  root : (∀ o, m.control ≠ .ended o) → (m.context :: m.callers).getLast? = some root

variable {root : Context}

theorem Rooted.move (hm : m.Rooted root) (hended : ∀ o, m.control ≠ .ended o)
    (h : m.Moves m') : m'.Rooted root := by
  have hroot := hm.root hended
  have hfailed (hcontrol : ∃ f, m'.control = .ended (.failed f)) (hcells : m'.cells ≤ m.cells) :
      m'.Rooted root := by
    obtain ⟨f, hcontrol⟩ := hcontrol
    refine ⟨Nat.eq_zero_of_le_zero (hm.cells ▸ hcells), ?_, fun hended => absurd hcontrol (hended _)⟩
    rw [isFinished, hcontrol]
  cases h
  case inside h =>
    obtain ⟨hcontext, hcallers, -, -, hcells⟩ := h
    rw [hm.cells, Nat.le_zero, Nat.add_eq_zero_iff] at hcells
    refine ⟨hcells.1, by simpa using hcells.2, fun _ => ?_⟩
    rwa [hcontext, hcallers]
  case aborts hcontrol hcells => exact hfailed hcontrol hcells
  case returns hcallers hworld hcontrol hcells =>
    obtain ⟨v, hcontrol⟩ := hcontrol
    refine ⟨hcells.trans hm.cells, by rw [isFinished, hcontrol], fun _ => ?_⟩
    rw [← hcallers] at hroot
    exact hroot
  case enters hcallers hcontrol hcells =>
    refine ⟨hcells.trans hm.cells, by rw [isFinished, hcontrol], fun _ => ?_⟩
    rw [hcallers]
    exact hroot
  case starts hcontext hcallers hcontrol hcells =>
    obtain ⟨v, hcontrol⟩ := hcontrol
    refine ⟨hcells.trans hm.cells, by rw [isFinished, hcontrol], fun _ => ?_⟩
    rwa [hcontext, hcallers]
  case asks hcontext hcallers hcontrol hcells =>
    refine ⟨hcells.trans hm.cells, by rw [isFinished, hcontrol], fun _ => ?_⟩
    rwa [hcontext, hcallers]
  case resumes hcallers hcontrol hcells =>
    refine ⟨hcells.trans hm.cells, by rw [isFinished, hcontrol], fun _ => ?_⟩
    rw [hcallers]
    exact hroot
  case reuses hcontrol hcells => exact hfailed hcontrol (Nat.le_of_eq hcells)

theorem Rooted.step (hm : m.Rooted root) (h : m.isHalted = false) : m.step.Rooted root :=
  hm.move (fun o ho => by simp [isHalted, ho] at h) (moves_step h)

/-! ### Statements of a cell -/

-- How the next statement of a cell is begun.
def begun (s : Stmt) : Control :=
  match s.form with
  | .expr e => .eval e
  | _ => .exec s

theorem nextStmt_cons (s : Stmt) (rest : List Stmt) :
    m.nextStmt (s :: rest) = ⟨begun s, .cell rest :: m.frames, m.context, m.world⟩ := by
  rw [nextStmt, begun]
  cases s.form <;> rfl

theorem begun_changed (t : TreeChange) (s : Stmt) : begun (t.stmt s) = (begun s).changed t := by
  rw [begun, begun, t.form_stmt]
  cases s.form <;> rfl

variable {t : TreeChange} {c : String} {world : World}

-- At the end of a statement a cell is back in its own context.
theorem Rooted.eq_of_bottom (hm : m.Rooted root) (hpassed : m.control.isPassed)
    (hframes : m.frames = []) : m.context = root := by
  have hroot := hm.root fun o ho => by simp [ho, Control.isPassed] at hpassed
  simpa [callers, hframes] using hroot

theorem rooted_begun (s : Stmt) (world : World) :
    Rooted root ⟨begun s, [], root, world⟩ := by
  refine ⟨rfl, ?_, fun _ => rfl⟩
  rw [isFinished, begun]
  cases s.form <;> rfl

theorem rooted_answer (hm : m.Rooted root) (hwaiting : m.isWaiting) (text : String) :
    (m.drained.answer text).Rooted root := by
  refine ⟨hm.cells, rfl, fun _ => hm.root fun o ho => ?_⟩
  simp [isWaiting, ho] at hwaiting

/-! ### The seam -/

-- Both go on with the next statement, but for what stands below.
theorem nextStmt_over (control : Control) (s : Stmt) (rest : List Stmt) :
    (changed (.over t [] []) ⟨control, [], root, world⟩).nextStmt ((s :: rest).map t.stmt)
      = changed (.over t [.cell (rest.map t.stmt)] []) ⟨begun s, [], root, world⟩ := by
  rw [List.map_cons, nextStmt_cons, begun_changed]
  rfl

theorem step_cell_cons {control : Control} (hgoes : control.goesOn) (s : Stmt) (rest : List Stmt) :
    step (changed (.over t [.cell ((s :: rest).map t.stmt)] []) ⟨control, [], root, world⟩)
      = changed (.over t [.cell (rest.map t.stmt)] []) ⟨begun s, [], root, world⟩ := by
  rw [← nextStmt_over control]
  cases control
  case give => rfl
  case flow f =>
    cases f
    case normal => rfl
    all_goals cases hgoes
  all_goals cases hgoes

theorem step_cell_nil {control : Control} (hgoes : control.goesOn) :
    ∃ v, step (changed (.over t [.cell (List.map t.stmt [])] []) ⟨control, [], root, world⟩)
      = ⟨.ended (.finished v), [], root.mapCell t.cell,
        world.changed (MachineChange.over t [] []).world⟩ := by
  cases control
  case give => exact ⟨_, rfl⟩
  case flow f =>
    cases f
    case normal => exact ⟨_, rfl⟩
    all_goals cases hgoes
  all_goals cases hgoes

theorem step_cell_of_not_goesOn {control : Control} (hpassed : control.isPassed)
    (hgoes : ¬control.goesOn) {rest : List Stmt} :
    ∃ f, (step (changed (.over t [.cell rest] []) ⟨control, [], root, world⟩)).control
      = .ended (.failed f) := by
  cases control
  case give => exact (hgoes rfl).elim
  case flow f =>
    cases f
    case normal => exact (hgoes rfl).elim
    all_goals exact ⟨_, rfl⟩
  all_goals cases hpassed

-- From the seam on a cell goes on like the second of the two, with what the first has written.
theorem yields_seam_iff (ht : ∀ e, t.Keeps e) {control : Control} {more : List Stmt}
    (hmore : more ≠ []) {answers : List String} {o : Outcome} {whole : Account} :
    ((changed (.over t [] []) ⟨control, [], ⟨Heap.globals, 0, c⟩, world⟩).nextStmt
        (more.map t.stmt)).Yields answers whole
      ↔ ∃ second, (changed (.over t [] []) (start more c ⟨world.heap, [], world.hasHost⟩)).Yields
          answers second
        ∧ whole = Account.andThen
          ⟨(world.changed (MachineChange.over t [] []).world).effects.reverse, [], o,
            (world.changed (MachineChange.over t [] []).world).heap⟩ second := by
  obtain ⟨s, more, rfl⟩ := List.exists_cons_of_ne_nil hmore
  let begin : Machine := start (s :: more) c ⟨world.heap, [], world.hasHost⟩
  have hstep : (changed (.over t [] []) ⟨control, [], ⟨Heap.globals, 0, c⟩, world⟩).nextStmt
      ((s :: more).map t.stmt) = begin.step.changed (.over t [] world.effects) := by
    have hbegin : begin.step = ⟨begun s, [.cell more], ⟨Heap.globals, 0, c⟩,
      ⟨world.heap, [], world.hasHost⟩⟩ := nextStmt_cons s more
    rw [nextStmt_over, hbegin]
    simp [Machine.changed, World.changed, MachineChange.world, MachineChange.over, Frame.changed]
  rw [hstep, yields_changed_iff ht]
  constructor
  · rintro ⟨a, ha, rfl⟩
    refine ⟨_, ((yields_step_iff rfl).mpr ha).changed ht [], ?_⟩
    simp [Account.changed, Account.andThen, World.changed, MachineChange.over, MachineChange.world]
  · rintro ⟨second, hsecond, rfl⟩
    obtain ⟨a, ha, rfl⟩ := (yields_changed_iff ht).mp hsecond
    refine ⟨a, (yields_step_iff rfl).mp ha, ?_⟩
    simp [Account.changed, Account.andThen, World.changed, MachineChange.over, MachineChange.world]

/-! ### Runs -/

-- What stands on the cell does not see what comes after it.
theorem step_over (ht : ∀ e, t.Keeps e) (hm : ¬(m.control.isPassed ∧ m.frames = []))
    (below : List Frame) :
    (m.changed (.over t below [])).step = m.step.changed (.over t below []) :=
  (changed_step (open_over ht fun hpassed hframes => (hm ⟨hpassed, hframes⟩).elim)).symm

theorem yields_joined_iff (ht : ∀ e, t.Keeps e) {more : List Stmt} (hmore : more ≠ [])
    {rest : List Stmt} {answers : List String} {first : Account} {v : Option Value}
    (hm : m.Rooted ⟨Heap.globals, 0, c⟩)
    (hfirst : (m.changed (.over t [.cell (rest.map t.stmt)] [])).Yields answers first)
    (hfinished : first.outcome = .finished v) (whole : Account) :
    (m.changed (.over t [.cell ((rest ++ more).map t.stmt)] [])).Yields answers whole
      ↔ ∃ second, Yields (start (more.map t.stmt) (t.cell c) ⟨first.heap, [], m.world.hasHost⟩)
          (answers.drop first.prompts.length) second
        ∧ whole = first.andThen second := by
  generalize hm' : m.changed (.over t [.cell (rest.map t.stmt)] []) = m' at hfirst
  induction hfirst generalizing m rest whole
  case ended m' answers o hended =>
    subst hm'
    obtain rfl : o = .finished v := hfinished
    have hunfinished := hm.unfinished
    simp [isFinished, ended_changed.mp hended] at hunfinished
  case step m' answers a hhalted ha ih =>
    subst hm'
    rw [isHalted_changed] at hhalted
    rw [yields_step_iff (isHalted_changed.trans hhalted)]
    by_cases hbottom : m.control.isPassed ∧ m.frames = []
    case neg =>
      rw [step_over ht hbottom, ← hasHost_move (moves_step hhalted)]
      exact ih (hm.step hhalted) hfinished whole (step_over ht hbottom _).symm
    case pos =>
      obtain ⟨hpassed, hframes⟩ := hbottom
      have hcontext := hm.eq_of_bottom hpassed hframes
      obtain ⟨control, frames, context, world⟩ := m
      obtain rfl : frames = [] := hframes
      obtain rfl : context = _ := hcontext
      have hgoes : control.goesOn := by
        by_contra hgoes
        obtain ⟨f, hf⟩ := step_cell_of_not_goesOn hpassed hgoes
        rw [yields_ended_iff hf] at ha
        subst ha
        cases hfinished
      cases rest with
      | nil =>
        obtain ⟨w, hw⟩ := step_cell_nil hgoes
        rw [hw, yields_ended_iff rfl] at ha
        subst ha
        obtain ⟨s, more, rfl⟩ := List.exists_cons_of_ne_nil hmore
        rw [List.nil_append, step_cell_cons hgoes, ← nextStmt_over control, yields_seam_iff ht hmore]
        exact Iff.rfl
      | cons s rest =>
        rw [List.cons_append, step_cell_cons hgoes]
        exact ih (rooted_begun s world) hfinished whole (step_cell_cons hgoes s rest).symm
  case turn m' cell prompt text answers a hwaiting ha ih =>
    subst hm'
    obtain ⟨waiter, hcontrol, rfl⟩ := waiting_changed.mp hwaiting
    have hm := rooted_answer hm (by rw [isWaiting, hcontrol]) text
    have hbelow (b : Account) := ih hm hfinished b rfl
    rw [yields_turn_iff (waiting_changed.mpr ⟨waiter, hcontrol, rfl⟩)]
    constructor
    · rintro ⟨b, hb, rfl⟩
      obtain ⟨second, hsecond, rfl⟩ := (hbelow b).mp hb
      refine ⟨second, hsecond, ?_⟩
      simp [Account.andThen, Machine.changed, World.changed, MachineChange.world, MachineChange.over]
    · rintro ⟨second, hsecond, rfl⟩
      refine ⟨_, (hbelow _).mpr ⟨second, hsecond, rfl⟩, ?_⟩
      simp [Account.andThen, Machine.changed, World.changed, MachineChange.world, MachineChange.over]

/-! ### Cells -/

section

variable {body body₁ body₂ : List Stmt} {h : Heap} {hasHost : Bool} {answers : List String}
  {first whole second : Account}

theorem keeps_blank (e : Expr) : TreeChange.blank.Keeps e := e.form_mapInfo

theorem yields_blank_iff (body : List Stmt) (c : String) {a : Account} :
    (start (body.map Stmt.bare) "" ⟨h.mapWork .blank, [], hasHost⟩).Yields answers a
      ↔ ∃ b, (start body c ⟨h, [], hasHost⟩).Yields answers b ∧ b.changed .blank = a := by
  have hstart : (start body c ⟨h, [], hasHost⟩).changed .blank
      = start (body.map Stmt.bare) "" ⟨h.mapWork .blank, [], hasHost⟩ := rfl
  rw [← hstart]
  exact yields_changed_iff keeps_blank

theorem joins_iff :
    whole.Joins first second ↔ whole.changed .blank = (first.changed .blank).andThen
      (second.changed .blank) := by
  simp only [Account.changed, Account.andThen, Account.mk.injEq]
  constructor
  · rintro ⟨heffects, hprompts, houtcome, hheap⟩
    exact ⟨heffects, hprompts, houtcome, hheap⟩
  · rintro ⟨heffects, hprompts, houtcome, hheap⟩
    exact ⟨heffects, hprompts, houtcome, hheap⟩

-- The statements of two cells, run as one, come to what the two come to, and to nothing else.
theorem joins_of_bodies (hbody : body.map Stmt.bare = (body₁ ++ body₂).map Stmt.bare)
    (hne : body₂ ≠ []) {c₁ : String} {v : Option Value}
    (hfirst : (start body₁ c₁ ⟨h, [], hasHost⟩).Yields answers first)
    (hfinished : first.outcome = .finished v) (c₂ c : String) :
    (∀ second, (start body₂ c₂ ⟨first.heap, [], hasHost⟩).Yields
        (answers.drop first.prompts.length) second →
      ∃ whole, (start body c ⟨h, [], hasHost⟩).Yields answers whole ∧ whole.Joins first second)
    ∧ ∀ whole, (start body c ⟨h, [], hasHost⟩).Yields answers whole →
      ∃ second, (start body₂ c₂ ⟨first.heap, [], hasHost⟩).Yields
        (answers.drop first.prompts.length) second ∧ whole.Joins first second := by
  let root : Machine := ⟨.flow .normal, [], ⟨Heap.globals, 0, ""⟩, ⟨h, [], hasHost⟩⟩
  have hroot : root.Rooted ⟨Heap.globals, 0, ""⟩ := ⟨rfl, rfl, fun _ => rfl⟩
  have hblank := (yields_blank_iff body₁ c₁).mpr ⟨first, hfirst, rfl⟩
  have hjoined (a : Account) :
      (start (body.map Stmt.bare) "" ⟨h.mapWork .blank, [], hasHost⟩).Yields answers a
        ↔ ∃ b, (start (body₂.map Stmt.bare) "" ⟨first.heap.mapWork .blank, [], hasHost⟩).Yields
            (answers.drop first.prompts.length) b ∧ a = (first.changed .blank).andThen b := by
    rw [hbody]
    exact yields_joined_iff (m := root) keeps_blank hne hroot hblank hfinished a
  constructor
  · intro second hsecond
    obtain ⟨whole, hwhole, heq⟩ := (yields_blank_iff body c).mp
      ((hjoined _).mpr ⟨_, (yields_blank_iff body₂ c₂).mpr ⟨second, hsecond, rfl⟩, rfl⟩)
    exact ⟨whole, hwhole, joins_iff.mpr heq⟩
  · intro whole hwhole
    obtain ⟨b, hb, heq⟩ := (hjoined _).mp ((yields_blank_iff body c).mpr ⟨whole, hwhole, rfl⟩)
    obtain ⟨second, hsecond, rfl⟩ := (yields_blank_iff body₂ c₂).mp hb
    exact ⟨second, hsecond, joins_iff.mpr heq⟩

end

end Machine

/-! ### Sources -/

-- What two cells come to, the second on the heap that the first leaves, is what one comes to, if the
-- first of them succeeds. That goes for any heap and for any answers of the host.
def Cell.RunsAs (whole first second : Cell) : Prop :=
  ∀ (name name₁ name₂ : String) (h : Heap) (hasHost : Bool) (answers : List String) (a : Account)
    (v : Option Value), (Machine.start first.body name₁ ⟨h, [], hasHost⟩).Yields answers a →
    a.outcome = .finished v →
      (∀ b, (Machine.start second.body name₂ ⟨a.heap, [], hasHost⟩).Yields
          (answers.drop a.prompts.length) b →
        ∃ w, (Machine.start whole.body name ⟨h, [], hasHost⟩).Yields answers w ∧ w.Joins a b)
      ∧ ∀ w, (Machine.start whole.body name ⟨h, [], hasHost⟩).Yields answers w →
        ∃ b, (Machine.start second.body name₂ ⟨a.heap, [], hasHost⟩).Yields
          (answers.drop a.prompts.length) b ∧ w.Joins a b

section

variable {whole first second : Cell}

theorem Cell.runsAs (hne : second.body ≠ [])
    (h : whole.body.map (Stmt.mapInfo .anonymous)
      = (first.body ++ second.body).map (Stmt.mapInfo .anonymous)) : whole.RunsAs first second := by
  have hbare (ss : List Stmt) : (ss.map (Stmt.mapInfo .anonymous)).map Stmt.bare = ss.map Stmt.bare := by
    rw [List.map_map]
    exact List.map_congr_left fun s _ => s.bare_mapInfo
  intro name name₁ name₂ heap hasHost answers a v ha hv
  exact Machine.joins_of_bodies (by rw [← hbare, h, hbare]) hne ha hv name₂ name

theorem Cell.stray?_append (h : whole.body.map (Stmt.mapInfo .anonymous)
      = (first.body ++ second.body).map (Stmt.mapInfo .anonymous)) :
    whole.stray? = none ↔ first.stray? = none ∧ second.stray? = none := by
  have hstray := Cell.stray?_of_mapInfo (c := ⟨first.body ++ second.body, 0⟩) h
  rw [← Option.map_eq_none_iff (f := Prod.fst), hstray, Option.map_eq_none_iff, stray?,
    List.findSome?_append, Option.or_eq_none_iff]
  rfl

end

-- The concatenation of two sources.
theorem parse_append_runsAs {s t : String} {cs ct : Cell} (hs : EndsInLineFeed s)
    (hcs : parse s = .ok cs) (hct : parse t = .ok ct) (hne : ct.body ≠ []) :
    ∃ c, parse (s ++ t) = .ok c
      ∧ c.body.map (Stmt.mapInfo .anonymous) = (cs.body ++ ct.body).map (Stmt.mapInfo .anonymous)
      ∧ (c.stray? = none ↔ cs.stray? = none ∧ ct.stray? = none) ∧ c.RunsAs cs ct := by
  obtain ⟨c, hc, hbody⟩ := parse_append hs hcs hct hne
  exact ⟨c, hc, hbody, Cell.stray?_append hbody, Cell.runsAs hne hbody⟩

-- The first source ends inside of a function, and the second asks the host.
theorem parse_append_runsAs_ask :
    let s := "def ask(p):\n  return input(p)\n"
    let t := "x = await ask('n')\nx\n"
    ∃ cs ct c first second whole, parse s = .ok cs ∧ parse t = .ok ct ∧ EndsInLineFeed s
      ∧ ct.body ≠ [] ∧ parse (s ++ t) = .ok c ∧ c.stray? = none
      ∧ (Machine.start cs.body "1" ⟨.empty, [], true⟩).Yields ["b"] first
      ∧ first.outcome = .finished none
      ∧ (Machine.start ct.body "2" ⟨first.heap, [], true⟩).Yields ["b"] second
      ∧ second.prompts = ["n"] ∧ second.outcome = .finished (some (.str "b"))
      ∧ (Machine.start c.body "1" ⟨.empty, [], true⟩).Yields ["b"] whole
      ∧ whole.Joins first second := by
  intro s t
  let firstRun (cs : Cell) : List Turn × Machine :=
    (Machine.start cs.body "1" ⟨.empty, [], true⟩).converse Machine.step 50 ["b"]
  let secondRun (first : List Turn × Machine) (ct : Cell) : List Turn × Machine :=
    (Machine.start ct.body "2" ⟨first.2.world.heap, [], true⟩).converse Machine.step 50 ["b"]
  have hcells : (parse s).toOption.any (fun cs => (parse t).toOption.any fun ct => decide
      (ct.body.length = 2 ∧ cs.stray? = none ∧ ct.stray? = none
        ∧ (firstRun cs).1.length = 0
        ∧ (firstRun cs).2.control.outcome? = some (.finished none)
        ∧ (secondRun (firstRun cs) ct).1.map (·.prompt) = ["n"]
        ∧ (secondRun (firstRun cs) ct).2.control.outcome?
          = some (.finished (some (.str "b"))))) = true := by
    decide +kernel
  have hs : EndsInLineFeed s := by decide +kernel
  clear_value s t
  cases hcs : parse s with
  | error e => simp [hcs, Except.toOption] at hcells
  | ok cs =>
    cases hct : parse t with
    | error e => simp [hct, Except.toOption] at hcells
    | ok ct =>
      simp only [hcs, hct, Except.toOption, Option.any_some, decide_eq_true_eq] at hcells
      obtain ⟨first, hfirstRun⟩ : ∃ run, firstRun cs = run := ⟨_, rfl⟩
      obtain ⟨second, hsecondRun⟩ : ∃ run, secondRun first ct = run := ⟨_, rfl⟩
      rw [hfirstRun, hsecondRun] at hcells
      obtain ⟨hlength, hcstray, htstray, hquiet, hfirst, hprompts, hsecond⟩ := hcells
      have hne : ct.body ≠ [] := List.ne_nil_of_length_eq_add_one hlength
      have hdrop : ["b"].drop (first.1.map (·.prompt)).length = ["b"] := by
        rw [List.length_map, hquiet]
        rfl
      have hyields := Machine.yields_of_converse hfirstRun hfirst
      have hyields' := Machine.yields_of_converse hsecondRun hsecond
      obtain ⟨c, hc, -, hstray, hruns⟩ := parse_append_runsAs hs hcs hct hne
      obtain ⟨whole, hwhole, hjoins⟩ :=
        (hruns "1" "1" "2" .empty true ["b"] _ none hyields rfl).1 _ (hdrop.symm ▸ hyields')
      exact ⟨cs, ct, c, _, _, whole, rfl, rfl, hs, hne, hc, hstray.mpr ⟨hcstray, htstray⟩, hyields,
        rfl, hyields', hprompts, rfl, hwhole, hjoins⟩

end NoteCell
