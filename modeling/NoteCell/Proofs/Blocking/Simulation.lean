import Mathlib.Logic.Function.Iterate
import NoteCell.Proofs.Blocking.Conversations
import NoteCell.Proofs.Machine.Changes
import NoteCell.Proofs.Safety.States
import NoteCell.Proofs.Suspension.Shape

/-!
Cells that ask directly: they mention `input` only as what a call is of, never bind it, and await
nothing. A machine that runs such a cell under the blocking reading, and one that runs it with its
suspension points, go on alike from one call of `input` to the next: the second awaits what the call
gives, while the first waits at once.
-/
namespace NoteCell

def Usage.direct : Usage where
  held := False
  form form := form.isAwait = false ∧ ∀ o ∈ form.operands, o.isInput = false
  operand h o ho hinput := by simp [h.2 o ho] at hinput

-- Whether a node awaits nothing, does not bind `input`, and mentions it only as what it calls.
def Node.asksDirectly : Node → Bool
  | .expr e => !e.form.isAwait && e.form.operands.all (!·.isInput)
  | .stmt s => !s.form.binders.contains "input" && s.form.exprs.all (!·.isInput)

def Cell.asksDirectly (c : Cell) : Bool := c.nodes.all Node.asksDirectly

namespace Expr

variable {e : Expr}

theorem proper_direct (h : ∀ n ∈ e.nodes, (Node.expr n).asksDirectly) : e.Proper .direct := by
  induction e using childrenInduction
  case h info form ih =>
    rw [nodes_node] at h
    obtain ⟨hroot, hbelow⟩ := List.forall_mem_cons.mp h
    refine .node (by simpa [Node.asksDirectly, Usage.direct, Expr.form] using hroot) fun c hc => ?_
    exact ih c hc fun n hn => hbelow n (List.mem_flatMap.mpr ⟨c, hc, hn⟩)

-- Only calls of `input` are changed otherwise than in their parts.
theorem form_suspended (h : e.Proper .direct) : (e.suspended "input" false).form
    = if e.calls "input" then
        .await (node e.info (e.form.map (suspended "input" false)))
      else e.form.map (suspended "input" false) := by
  have hawait : e.form.isAwait = false := h.form.1
  obtain ⟨info, form⟩ := e
  rw [Expr.form] at hawait
  rw [suspended_node, hawait]
  simp only [Bool.not_false, Bool.true_and, Bool.false_or]
  cases (node info form).calls "input" <;> rfl

theorem SafeTarget.not_calls {u : Usage} (h : e.SafeTarget u) : e.calls "input" = false := by
  by_contra hcalls
  rw [Bool.not_eq_false] at hcalls
  obtain ⟨func, args, keywords, hform, -⟩ := calls_iff.mp hcalls
  have hassign := h.assignable
  obtain ⟨info, form⟩ := e
  obtain rfl : form = .call func args keywords := hform
  simp [unassignable?] at hassign

end Expr

namespace Stmt

variable {s : Stmt}

theorem Safe.augTarget {u : Usage} {around : Surroundings} (h : s.Safe u around)
    {target value : Expr} {op : BinaryOp} (hform : s.form = .augAssign target op value) :
    target.SafeTarget u := by
  have hregular := h.regular
  have hexpr : target ∈ s.form.exprs := by
    rw [hform]
    exact List.mem_cons_self
  rw [hform] at hregular
  exact ⟨h.expr hexpr, Expr.unassignable?_of_isPlace hregular⟩

theorem all_direct (hregular : s.All fun _ form => form.Regular)
    (h : ∀ n ∈ s.nodes, n.asksDirectly) :
    s.All fun _ form => form.Regular ∧ (∀ e ∈ form.exprs, e.Safe .direct)
      ∧ ("input" ∈ form.binders → Usage.direct.held) := by
  induction hregular
  case node info form here _ ih =>
    rw [nodes_node] at h
    obtain ⟨hroot, hbelow⟩ := List.forall_mem_cons.mp h
    obtain ⟨hexprs, hstmts⟩ := List.forall_mem_append.mp hbelow
    simp only [Node.asksDirectly, Stmt.form, Bool.and_eq_true, Bool.not_eq_true',
      List.all_eq_true] at hroot
    refine .node ⟨here, fun e he => ⟨?_, fun hinput => ?_⟩, fun hbinds => ?_⟩ fun t ht => ?_
    · refine Expr.proper_direct fun n hn => ?_
      exact hexprs _ (List.mem_map_of_mem (List.mem_flatMap.mpr ⟨e, he, hn⟩))
    · exact Bool.false_ne_true ((hroot.2 e he).symm.trans hinput)
    · simp [hbinds] at hroot
    · exact ih t ht fun n hn => hstmts n (List.mem_flatMap.mpr ⟨t, ht, hn⟩)

end Stmt

theorem Cell.safe_direct {source : String} {c : Cell} (hparse : parse source = .ok c)
    (h : c.asksDirectly) (hs : c.stray? = none) : ∀ s ∈ c.body, s.Safe .direct .none := by
  intro s hmem
  refine ⟨Stmt.all_direct (regular_of_parse hparse s hmem) fun n hn => ?_, ?_⟩
  · exact List.all_eq_true.mp h n (List.mem_flatMap.mpr ⟨s, hmem, hn⟩)
  · exact List.findSome?_eq_none_iff.mp hs s hmem

/-! ### Suspension points -/

def TreeChange.suspended : TreeChange where
  expr := Expr.suspended "input" false
  stmt := Stmt.suspended "input"
  cell := id
  form_stmt s := by
    obtain ⟨info, form⟩ := s
    rw [Stmt.suspended_node]
    rfl

theorem Cell.body_of_suspendedShape {c c' : Cell} (h : c'.bare = suspendedShape "input" c.bare) :
    c'.body.map Stmt.bare = (c.body.map (Stmt.suspended "input")).map Stmt.bare := by
  rw [List.map_map]
  exact h.trans (suspendedShape_bare c.body)

-- No statement becomes a stray one, and none ceases to be one.
theorem Cell.stray?_of_suspendedShape {c c' : Cell}
    (h : c'.bare = suspendedShape "input" c.bare) :
    c'.stray?.map Prod.fst = c.stray?.map Prod.fst := by
  let d : Cell := { c with body := c.body.map (Stmt.suspended "input") }
  exact (stray?_of_mapInfo (c := d) (body_of_suspendedShape h)).trans
    (Stmt.strays_map TreeChange.suspended.form_stmt c.body)

theorem TreeChange.keeps_suspended {e : Expr} (h : e.Proper .direct)
    (hcalls : e.calls "input" = false) : TreeChange.suspended.Keeps e := by
  have hform := Expr.form_suspended h
  rwa [hcalls, if_neg Bool.false_ne_true] at hform

theorem TreeChange.keeps_target {e : Expr} (h : e.SafeTarget .direct) :
    TreeChange.suspended.Keeps e :=
  keeps_suspended h.safe.proper h.not_calls

/-! ### Machines -/

-- The frame of a call of `input` stands on that of its await.
def suspendedFrames : List Frame → List Frame
  | [] => []
  | frame :: rest =>
    let below :=
      if frame.callee? = some (.builtin .input) then .operands [] [] .await :: suspendedFrames rest
      else suspendedFrames rest
    frame.changed .suspended :: below

def MachineChange.suspended : MachineChange where
  trees := .suspended
  frames := suspendedFrames
  written := []
  frames_cons frame rest h := by simp [suspendedFrames, h]

theorem keepsOn_suspended {frame : Frame} {rest : List Frame}
    (h : frame.callee? ≠ some (.builtin .input)) :
    MachineChange.suspended.KeepsOn rest frame := by
  simp [MachineChange.KeepsOn, MachineChange.suspended, suspendedFrames, h]

namespace Machine

def isEnded (m : Machine) : Bool :=
  match m.control with
  | .ended _ => true
  | _ => false

-- The second machine runs the trees of the first with their suspension points. Frames that are left
-- when it has ended do not matter.
structure Suspends (m m' : Machine) : Prop where
  safe : m.Safe .direct
  control : m'.control = m.control.changed .suspended
  context : m'.context = m.context
  world : m'.world = m.world.mapBodies (Stmt.suspended "input")
  frames : m.isEnded = false → m'.frames = suspendedFrames m.frames

variable {m m' : Machine} {control : Control} {frames : List Frame} {context : Context}
  {world : World}

theorem suspends_changed (h : m.Safe .direct) : m.Suspends (m.changed .suspended) :=
  ⟨h, rfl, rfl, World.changed_ofStmt _ m.world, fun _ => rfl⟩

theorem Suspends.eq_changed (h : m.Suspends m') (hended : m.isEnded = false) :
    m' = m.changed .suspended := by
  obtain ⟨control, frames, context, world⟩ := m'
  obtain ⟨-, rfl, rfl, hworld, hframes⟩ := h
  obtain rfl := hframes hended
  rw [← World.changed_ofStmt] at hworld
  subst hworld
  rfl

/-! ### Calls of `input` -/

theorem blockingStep_of_not_callsInput (h : m.callsInput = false) : m.blockingStep = m.step := by
  rw [blockingStep, h]

theorem giveBy_error {a : Action Value} {f : Failure} {w : World}
    (h : a.run.run m.world = (.error f, w)) :
    m.giveBy a = ⟨.ended (.failed f), m.frames, m.context, w⟩ := by
  rw [giveBy, act, h]

theorem giveBy_ok {a : Action Value} {v : Value} {w : World}
    (h : a.run.run m.world = (.ok v, w)) : m.giveBy a = ⟨.give v, m.frames, m.context, w⟩ := by
  rw [giveBy, act, h]
  rfl

-- A call that has all its values, of which the callee came first.
theorem step_calls {v : Value} {done : List Value} {positional : Nat} {keywords : List String}
    {values : List Value} (hvalues : (v :: done).reverse = .builtin .input :: values) :
    step ⟨.give v, .operands done [] (.call positional keywords) :: frames, context, world⟩
      = giveBy ⟨.give v, frames, context, world⟩ (Builtins.call .input
        ⟨values.take positional, keywords.zip (values.drop positional)⟩) := by
  show perform _ (v :: done).reverse _ = _
  rw [hvalues]
  rfl

-- What a call of `input` gives is a coroutine that asks the host.
theorem run_input {args : Arguments} {x : Value} {w w' : World}
    (h : (Builtins.call .input args).run.run w = (.ok x, w')) : ∃ id prompt heap,
      x = .coroutine id ∧ w' = { w with heap } ∧ (heap.coroutine id).work = .input prompt := by
  have hlift {α : Type} (a : Attempt α) : (Action.lift a).run.run w = (a, w) := rfl
  rw [Builtins.call, Builtins.withoutKeywords, Action.run_bind, hlift] at h
  cases hkeywords : args.noKeywords Builtin.input.name with
  | error f =>
    rw [hkeywords] at h
    cases h
  | ok =>
    simp only [hkeywords] at h
    rw [Builtins.input, Action.run_bind, hlift] at h
    cases hprompt : args.optional "input" with
    | error f =>
      rw [hprompt] at h
      cases h
    | ok prompt =>
      simp only [hprompt] at h
      cases h
      refine ⟨_, prompt.elim "" w.heap.text, _, rfl, rfl, ?_⟩
      simp [Heap.coroutine, Array.getD_eq_getD_getElem?]

theorem await_of_work {id : Nat} {prompt : String} {heap : Heap}
    (h : (heap.coroutine id).work = .input prompt) : ∃ heap',
      await ⟨control, frames, context, { world with heap }⟩ (.coroutine id)
        = ⟨.waiting context.cell prompt, frames, context, { world with heap := heap' }⟩ := by
  refine ⟨{ heap with coroutines :=
    heap.coroutines.modify id fun c => { c with work := .spent } }, ?_⟩
  simp only [await, act, Action.takeWork, Action.run_make, h]

-- A call of `input` that succeeds waits for the host, and has the next answer for its value.
theorem blockingStep_of_callsInput {x : Value} (hinput : m.callsInput)
    (hok : m.step.control = .give x) : ∃ prompt heap,
      m.blockingStep = ⟨.waiting m.context.cell prompt, m.frames.tail, m.context,
        { m.world with heap }⟩
      ∧ ∀ text, m.blockingStep.answer text = ⟨.give (.str text), m.frames.tail, m.context,
        { m.world with heap }⟩ := by
  obtain ⟨control, frames, context, world⟩ := m
  have hcalls := hinput
  simp only [callsInput] at hcalls
  split at hcalls
  case h_2 => cases hcalls
  case h_1 v done positional keywords frames =>
    obtain ⟨rest, hrest⟩ := List.getLast?_eq_some_iff.mp (of_decide_eq_true hcalls)
    have hvalues : (v :: done).reverse = .builtin .input :: rest.reverse := by simp [hrest]
    let args : Arguments :=
      ⟨rest.reverse.take positional, keywords.zip (rest.reverse.drop positional)⟩
    rw [step_calls hvalues] at hok
    cases hresult : (Builtins.call .input args).run.run world with
    | mk outcome w =>
      cases outcome with
      | error f =>
        rw [giveBy_error hresult] at hok
        cases hok
      | ok x =>
        obtain ⟨id, prompt, heap, rfl, rfl, hwork⟩ := run_input hresult
        obtain ⟨heap', hawait⟩ := await_of_work hwork
        have hwaits : blockingStep
            ⟨.give v, .operands done [] (.call positional keywords) :: frames, context, world⟩
            = ⟨.waiting context.cell prompt, frames, context, { world with heap := heap' }⟩ := by
          rw [blockingStep, hinput, step_calls hvalues, giveBy_ok hresult]
          exact hawait
        exact ⟨prompt, heap', hwaits, fun text => congrArg (answer · text) hwaits⟩

-- The call gives its value to the await, or fails.
theorem suspends_perform {v : Value} {done : List Value} {positional : Nat} {keywords : List String}
    (hground : Grounded .direct ⟨.give v, frames, context, world⟩)
    (htaken : (Operation.call positional keywords).Taken .direct (v :: done))
    (hinput : (v :: done).getLast? = some (.builtin .input)) :
    ∃ j, (blockingStep ⟨.give v, .operands done [] (.call positional keywords) :: frames, context,
        world⟩).Suspends
      (step^[j + 1] ⟨.give v, .operands done [] (.call positional keywords)
        :: .operands [] [] .await :: suspendedFrames frames, context,
          world.changed MachineChange.suspended.world⟩) := by
  obtain ⟨rest, hrest⟩ := List.getLast?_eq_some_iff.mp hinput
  have hvalues : (v :: done).reverse = .builtin .input :: rest.reverse := by simp [hrest]
  have hcallee : (Operation.call positional keywords).Taken .direct
      (.builtin .input :: rest.reverse).reverse := by
    rwa [← hvalues, List.reverse_reverse]
  have hargs := hcallee.callee.2
  let args : Arguments :=
    ⟨rest.reverse.take positional, keywords.zip (rest.reverse.drop positional)⟩
  have hsafe :
      (giveBy ⟨.give v, frames, context, world⟩ (Builtins.call .input args)).Safe .direct :=
    hground.performCall positional keywords (.inr rfl) hargs
  have hrun := ((Builtins.plain_call .input args).follows MachineChange.suspended.world).run_changed
    world
  have hcalls : callsInput
      ⟨.give v, .operands done [] (.call positional keywords) :: frames, context, world⟩ := by
    simpa [callsInput] using hinput
  cases hresult : (Builtins.call .input args).run.run world with
  | mk outcome w =>
    rw [hresult] at hrun
    cases outcome with
    | error f =>
      refine ⟨0, ?_⟩
      rw [giveBy_error hresult] at hsafe
      rw [blockingStep, hcalls, Function.iterate_one, step_calls hvalues, step_calls hvalues,
        giveBy_error hresult, giveBy_error hrun]
      exact ⟨hsafe, rfl, rfl, World.changed_ofStmt _ _, fun hended => by cases hended⟩
    | ok x =>
      refine ⟨1, ?_⟩
      rw [giveBy_ok hresult] at hsafe
      rw [blockingStep, hcalls, Function.iterate_succ_apply, Function.iterate_one,
        step_calls hvalues, step_calls hvalues, giveBy_ok hresult, giveBy_ok hrun]
      have hawait := changed_await (c := .suspended) (m := ⟨.give x, frames, context, w⟩) x
      have hchanged := suspends_changed (hsafe.toGrounded.await x)
      rw [hawait] at hchanged
      exact hchanged

theorem suspends_call {v : Value} {done : List Value} {rest : List Expr} {positional : Nat}
    {keywords : List String} (hground : Grounded .direct ⟨.give v, frames, context, world⟩)
    (htaken : (Operation.call positional keywords).Taken .direct (v :: done))
    (hrest : ∀ e ∈ rest, e.Safe .direct)
    (hinput : (v :: done).getLast? = some (.builtin .input)) :
    ∃ j, (blockingStep ⟨.give v, .operands done rest (.call positional keywords) :: frames, context,
        world⟩).Suspends
      (step^[j + 1] ⟨.give v, .operands done (rest.map (Expr.suspended "input" false))
        (.call positional keywords) :: .operands [] [] .await :: suspendedFrames frames, context,
          world.changed MachineChange.suspended.world⟩) := by
  cases rest with
  | nil => exact suspends_perform hground htaken hinput
  | cons e rest =>
    obtain ⟨he, hrest⟩ := List.forall_mem_cons.mp hrest
    have hsafe := hground.operand htaken he hrest trivial
    refine ⟨0, ?_⟩
    rw [blockingStep_of_not_callsInput rfl]
    refine ⟨hsafe, rfl, rfl, World.changed_ofStmt _ _, fun _ => ?_⟩
    have hcallee : (Frame.operands (v :: done) rest (.call positional keywords)).callee?
        = some (.builtin .input) := hinput
    simp only [step, giveTo, operand, push, evaluate, suspendedFrames, hcallee, if_pos]
    rfl

theorem binding?_input (hm : Grounded .direct ⟨control, frames, context, world⟩) :
    world.heap.binding? context.scope "input" = none := by
  cases hv : world.heap.binding? context.scope "input" with
  | none => rfl
  | some v => exact ((hm.heap.binding? hv).1 rfl).elim

theorem step_input {e : Expr} (hform : e.form = .name "input")
    (hfree : world.heap.binding? context.scope "input" = none) :
    step ⟨.eval e, frames, context, world⟩
      = ⟨.give (.builtin .input), frames, context, world⟩ := by
  rw [step, eval, hform]
  simp only [readName, lookup, hfree]
  rfl

theorem step_call {e func : Expr} {args : List Expr} {keywords : List (String × Expr)}
    (hform : e.form = .call func args keywords) :
    step ⟨.eval e, frames, context, world⟩
      = ⟨.eval func, .operands [] (args ++ keywords.map (·.2))
          (.call args.length (keywords.map (·.1))) :: frames, context, world⟩ := by
  rw [step, eval, hform]
  rfl

theorem step_await {e operand : Expr} (hform : e.form = .await operand) :
    step ⟨.eval e, frames, context, world⟩
      = ⟨.eval operand, .operands [] [] .await :: frames, context, world⟩ := by
  rw [step, eval, hform]
  rfl

theorem rejoins_eval_call {e : Expr} (h : Safe .direct ⟨.eval e, frames, context, world⟩)
    (hcalls : e.calls "input") :
    ∃ k j, (blockingStep^[k + 1] ⟨.eval e, frames, context, world⟩).Suspends
      (step^[j + 1] (changed .suspended ⟨.eval e, frames, context, world⟩)) := by
  obtain ⟨func, args, keywords, hform, hinput⟩ := Expr.calls_iff.mp hcalls
  have hfunc : func.form = .name "input" := Expr.isInput_iff.mp hinput
  have hproper : e.Proper .direct := h.control.proper
  have hoperands : ∀ o ∈ args ++ keywords.map (·.2), o.Safe .direct := by
    intro o ho
    refine hproper.operand ?_
    rwa [hform]
  have hfunc' : (func.suspended "input" false).form = .name "input" := by
    have hchild : func.Proper .direct := hproper.child (by rw [hform]; exact List.mem_cons_self)
    have hnot : func.calls "input" = false := by
      obtain ⟨info, form⟩ := func
      obtain rfl : form = .name "input" := hfunc
      rfl
    rw [Expr.form_suspended hchild, hnot, hfunc]
    rfl
  have hawait : (e.suspended "input" false).form
      = .await (.node e.info (.call (func.suspended "input" false)
        (args.map (Expr.suspended "input" false))
        (keywords.map fun p => (p.1, p.2.suspended "input" false)))) := by
    rw [Expr.form_suspended hproper, if_pos hcalls, hform]
    rfl
  have hfree := binding?_input h.toGrounded
  have hfree' : (world.changed MachineChange.suspended.world).heap.binding? context.scope "input"
      = none :=
    (Heap.binding?_mapWork ..).trans hfree
  have hquiet (e : Expr) (frames : List Frame) :
      blockingStep ⟨.eval e, frames, context, world⟩ = step ⟨.eval e, frames, context, world⟩ := rfl
  have hground : Grounded .direct ⟨.give (.builtin .input), frames, context, world⟩ :=
    ⟨h.heap, h.frames⟩
  have htaken : (Operation.call args.length (keywords.map (·.1))).Taken .direct
      [.builtin .input] :=
    ⟨.inr ⟨rfl, rfl⟩, trivial⟩
  obtain ⟨j, hj⟩ := suspends_call hground htaken hoperands rfl
  refine ⟨2, j + 3, ?_⟩
  rw [Function.iterate_succ_apply, hquiet, step_call hform, Function.iterate_succ_apply, hquiet,
    step_input hfunc hfree, Function.iterate_one]
  have hcall : (Expr.node e.info (.call (func.suspended "input" false)
      (args.map (Expr.suspended "input" false))
      (keywords.map fun p => (p.1, p.2.suspended "input" false)))).form = _ := rfl
  have hsuspended : step^[3] (changed .suspended ⟨.eval e, frames, context, world⟩)
      = ⟨.give (.builtin .input),
          .operands [] ((args ++ keywords.map (·.2)).map (Expr.suspended "input" false))
            (.call args.length (keywords.map (·.1)))
          :: .operands [] [] .await :: suspendedFrames frames, context,
          world.changed MachineChange.suspended.world⟩ := by
    show step (step (step ⟨.eval (e.suspended "input" false), suspendedFrames frames, context,
      world.changed MachineChange.suspended.world⟩)) = _
    rw [step_await hawait, step_call hcall, step_input hfunc' hfree']
    simp [Function.comp_def]
  rwa [Nat.add_right_comm, Function.iterate_add_apply, hsuspended]

/-! ### Any step -/

-- The frame that the next step takes off.
def taken? (m : Machine) : Option Frame :=
  match m.control with
  | .give _ | .flow _ => m.frames.head?
  | _ => none

-- A value that comes to an operand beside the callee does not make the callee.
theorem callee?_cons {v : Value} (hv : v ≠ .builtin .input) {done : List Value}
    {rest rest' : List Expr} {op : Operation}
    (h : (Frame.operands done rest op).callee? ≠ some (.builtin .input)) :
    (Frame.operands (v :: done) rest' op).callee? ≠ some (.builtin .input) := by
  cases op
  case call =>
    cases done with
    | nil => simpa [Frame.callee?] using hv
    | cons w done => simpa [Frame.callee?, List.getLast?_cons] using h
  all_goals simp [Frame.callee?]

theorem callsInput_eq_false (h : m.Safe .direct)
    (htaken : ∀ frame ∈ m.taken?, frame.callee? ≠ some (.builtin .input)) :
    m.callsInput = false := by
  by_contra hinput
  obtain ⟨control, frames, context, world⟩ := m
  simp only [callsInput] at hinput
  split at hinput
  case h_1 v done positional keywords frames =>
    have hv : v ≠ .builtin .input := by
      rintro rfl
      exact h.control
    have hcallee : (Frame.operands (v :: done) [] (.call positional keywords)).callee?
        ≠ some (.builtin .input) :=
      callee?_cons hv (htaken _ rfl)
    exact hcallee (of_decide_eq_true (Bool.not_eq_false _ ▸ hinput))
  case h_2 => exact hinput rfl

theorem open_suspended (h : m.Safe .direct)
    (hcalls : ∀ e, m.control = .eval e → e.calls "input" = false)
    (htaken : ∀ frame ∈ m.taken?, frame.callee? ≠ some (.builtin .input)) :
    m.Open .suspended := by
  obtain ⟨control, frames, context, world⟩ := m
  have hcontrol := h.control
  constructor
  case eval =>
    intro e he
    obtain rfl : control = _ := he
    exact TreeChange.keeps_suspended hcontrol.proper (hcalls e rfl)
  case exec =>
    intro s target op value hs hform
    obtain rfl : control = _ := hs
    exact TreeChange.keeps_target (hcontrol.augTarget hform)
  case assign =>
    intro target v rest hpairs
    obtain rfl : control = _ := hpairs
    exact TreeChange.keeps_target (hcontrol _ List.mem_cons_self).1
  case give =>
    intro v frame rest hv hframes
    obtain rfl : control = _ := hv
    obtain rfl : frames = _ := hframes
    have hcallee := htaken frame rfl
    refine ⟨keepsOn_suspended hcallee, fun done e others op hframe => ?_⟩
    subst hframe
    refine keepsOn_suspended (callee?_cons ?_ hcallee)
    rintro rfl
    exact hcontrol
  case flow =>
    intro f frame rest hf hframes
    obtain rfl : control = _ := hf
    obtain rfl : frames = _ := hframes
    exact keepsOn_suspended (htaken frame rfl)
  case bottom => exact fun _ _ => rfl

theorem suspends_step (h : m.Safe .direct)
    (hcalls : ∀ e, m.control = .eval e → e.calls "input" = false)
    (htaken : ∀ frame ∈ m.taken?, frame.callee? ≠ some (.builtin .input)) :
    (blockingStep m).Suspends (step (m.changed .suspended)) := by
  rw [blockingStep_of_not_callsInput (callsInput_eq_false h htaken),
    ← changed_step (open_suspended h hcalls htaken)]
  exact suspends_changed (h.step_of fun e he hcall => by simp [hcalls e he] at hcall)

-- The frame of a call of `input` is taken off.
theorem rejoins_taken {frame : Frame} (h : m.Safe .direct) (htaken : m.taken? = some frame)
    (hcallee : frame.callee? = some (.builtin .input)) :
    ∃ j, (blockingStep m).Suspends (step^[j + 1] (m.changed .suspended)) := by
  obtain ⟨control, frames, context, world⟩ := m
  cases frame
  case operands done rest op =>
    cases op
    case call positional keywords =>
      cases control
      case give v =>
        obtain ⟨frames, rfl⟩ := List.head?_eq_some_iff.mp htaken
        obtain ⟨⟨hdone, hrest, -⟩, hbelow⟩ := h.frames
        have hframes : suspendedFrames
            (.operands done rest (.call positional keywords) :: frames)
            = .operands done (rest.map (Expr.suspended "input" false)) (.call positional keywords)
              :: .operands [] [] .await :: suspendedFrames frames := by
          rw [suspendedFrames, if_pos hcallee]
          rfl
        have hlast : (v :: done).getLast? = some (.builtin .input) := by
          rw [List.getLast?_cons, show done.getLast? = _ from hcallee]
          rfl
        have hground : Grounded .direct ⟨.give v, frames, context, world⟩ := ⟨h.heap, hbelow⟩
        have hgoes := suspends_call hground ⟨.inl h.control, hdone⟩ hrest hlast
        rw [← hframes] at hgoes
        exact hgoes
      case flow f =>
        obtain ⟨frames, rfl⟩ := List.head?_eq_some_iff.mp htaken
        have hsafe := h.step_of fun _ he => by cases he
        exact ⟨0, hsafe, rfl, rfl, World.changed_ofStmt _ _, fun hended => by cases hended⟩
      all_goals cases htaken
    all_goals cases hcallee
  all_goals cases hcallee

-- Each machine goes on for at least a step, until they are alike again.
theorem Suspends.rejoins (h : m.Suspends m') (hm : m.isHalted = false) :
    ∃ k j, (blockingStep^[k + 1] m).Suspends (step^[j + 1] m') := by
  have hended : m.isEnded = false := by
    cases hcontrol : m.control <;> simp_all [isHalted, isEnded]
  obtain rfl := h.eq_changed hended
  by_cases hcalls : ∃ e, m.control = .eval e ∧ e.calls "input"
  · obtain ⟨control, frames, context, world⟩ := m
    obtain ⟨e, rfl, hcalls⟩ := hcalls
    exact rejoins_eval_call h.safe hcalls
  · by_cases htaken : ∃ frame, m.taken? = some frame ∧ frame.callee? = some (.builtin .input)
    · obtain ⟨frame, htaken, hcallee⟩ := htaken
      exact ⟨0, rejoins_taken h.safe htaken hcallee⟩
    · refine ⟨0, 0, suspends_step h.safe (fun e he => ?_) fun frame hframe hcallee => ?_⟩
      · by_contra hcall
        exact hcalls ⟨e, he, by simpa using hcall⟩
      · exact htaken ⟨frame, hframe, hcallee⟩

end Machine
end NoteCell
