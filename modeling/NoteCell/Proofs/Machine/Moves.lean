import NoteCell.Proofs.Machine.Actions

/-!
What one step of a machine does. Most steps stay inside the context they are taken in; the others
enter the body of a function, make or await a coroutine, or return to a caller.
-/
namespace NoteCell

open NoteCell.Action

/-! ### Local actions -/

namespace Action

-- Actions that a scope is enough for: new bindings stand in it.
inductive Local (scope : Nat) : {α : Type} → Action α → Prop where
  | plain {α : Type} {a : Action α} (ha : Plain a) : Local scope a
  | bind {α β : Type} {a : Action α} {k : α → Action β} (ha : Local scope a)
    (hk : ∀ x, Local scope (k x)) : Local scope (a >>= k)
  | bindName (name : String) (v : Value) : Local scope (Action.bind scope name v)
  | newClosure (c : Closure) (hscope : c.scope = scope) : Local scope (Action.newClosure c)

theorem Local.forM {α : Type} {scope : Nat} {as : List α} {k : α → Action PUnit}
    (hk : ∀ a ∈ as, Local scope (k a)) : Local scope (as.forM k) := by
  induction as
  case nil => exact .plain (.pure _)
  case cons a as ih =>
    obtain ⟨ha, has⟩ := List.forall_mem_cons.mp hk
    exact .bind ha fun _ => ih has

end Action

namespace Libraries

theorem local_importAll (scope : Nat) (names : List Alias) :
    Local scope (importAll scope names) :=
  .forM fun _ _ => .bind (.plain (plain_load _)) fun l => .bindName _ l

theorem local_importMembers (scope : Nat) (path : List String) (names : List Alias) :
    Local scope (importMembers scope path names) := by
  refine .bind (.plain (plain_load _)) fun l => .forM fun _ _ => ?_
  exact .bind (.plain (.look fun f h => by simp)) fun v => .bindName _ v

end Libraries

/-! ### Moves -/

def Frame.caller? : Frame → Option Context
  | .call caller => some caller
  | _ => none

def Frame.isCell : Frame → Bool
  | .cell _ => true
  | _ => false

-- The world in which a call has its scope, with the arguments bound there.
def World.entered (world : World) (outer : Nat) (bindings : List (String × Value)) : World :=
  { world with
    heap := bindings.foldl (fun h p => h.bind world.heap.scopes.size p.1 p.2)
      { world.heap with scopes := world.heap.scopes.push ⟨[], some outer⟩ } }

namespace Machine

-- The contexts to return to, the innermost first.
def callers (m : Machine) : List Context := m.frames.filterMap Frame.caller?

-- How many cells have statements that may come.
def cells (m : Machine) : Nat := (m.frames.filter Frame.isCell).length

def isWaiting (m : Machine) : Bool :=
  match m.control with
  | .waiting .. => true
  | _ => false

def isFinished (m : Machine) : Bool :=
  match m.control with
  | .ended (.finished _) => true
  | _ => false

-- A machine that has come about inside a context. Only a cell can be finished.
structure Inside (context : Context) (callers : List Context) (cells : Nat) (world : World)
    (m : Machine) : Prop where
  context_eq : m.context = context
  callers_eq : m.callers = callers
  world_eq : ∃ (α : Type) (a : Action α), a.Local context.scope ∧ m.world = (a.run.run world).2
  not_waiting : m.isWaiting = false
  cells_le : m.cells + m.isFinished.toNat ≤ cells

-- What a step may come to, from a context, those around it, some cells and a world.
inductive Move (context : Context) (callers : List Context) (cells : Nat) (world : World)
    (m : Machine) : Prop where
  | inside (h : Inside context callers cells world m)
  -- A body is left, by a failure or for its caller.
  | aborts (hcontext : m.context = context) (hcallers : m.callers <:+ callers)
    (hworld : m.world = world) (hcontrol : ∃ f, m.control = .ended (.failed f))
    (hcells : m.cells ≤ cells)
  | returns (hcallers : m.context :: m.callers = callers) (hworld : m.world = world)
    (hcontrol : ∃ v, m.control = .give v) (hcells : m.cells = cells)
  | enters (c : Closure) (args : Arguments)
    (hrun : (enter context c args).run.run world = (.ok m.context, m.world))
    (hcallers : m.callers = context :: callers) (hcontrol : m.control = .flow .normal)
    (hcells : m.cells = cells)
  | starts (c : Closure) (args : Arguments) (inner : Context) (w : World)
    (hrun : (enter context c args).run.run world = (.ok inner, w))
    (hworld : m.world = ((newCoroutine ⟨c.name, .body inner c.body⟩).run.run w).2)
    (hcontext : m.context = context) (hcallers : m.callers = callers)
    (hcontrol : ∃ v, m.control = .give v) (hcells : m.cells = cells)
  -- The work of a coroutine is taken, if it still has any.
  | asks (id : Nat) (prompt : String) (hwork : (world.heap.coroutine id).work = .input prompt)
    (hworld : m.world = ((takeWork id).run.run world).2) (hcontext : m.context = context)
    (hcallers : m.callers = callers) (hcontrol : m.control = .waiting context.cell prompt)
    (hcells : m.cells = cells)
  | resumes (id : Nat) (body : List Stmt)
    (hwork : (world.heap.coroutine id).work = .body m.context body)
    (hworld : m.world = ((takeWork id).run.run world).2)
    (hcallers : m.callers = context :: callers) (hcontrol : m.control = .flow .normal)
    (hcells : m.cells = cells)
  | reuses (id : Nat) (hwork : (world.heap.coroutine id).work = .spent)
    (hworld : m.world = ((takeWork id).run.run world).2) (hcontext : m.context = context)
    (hcallers : m.callers = callers) (hcontrol : ∃ f, m.control = .ended (.failed f))
    (hcells : m.cells = cells)

abbrev StaysInside (m m' : Machine) : Prop := Inside m.context m.callers m.cells m.world m'

abbrev Moves (m m' : Machine) : Prop := Move m.context m.callers m.cells m.world m'

variable {m : Machine}

theorem Inside.still {context : Context} {callers : List Context} {cells : Nat} {world : World}
    (hcontext : m.context = context) (hcallers : m.callers = callers) (hworld : m.world = world)
    (hcontrol : m.isWaiting = false) (hcells : m.cells + m.isFinished.toNat ≤ cells) :
    Inside context callers cells world m :=
  ⟨hcontext, hcallers, ⟨Unit, pure (), .plain (.pure ()), hworld⟩, hcontrol, hcells⟩

theorem staysInside_act {α : Type} {a : Action α} {next : Machine → α → Machine}
    (ha : a.Local m.context.scope)
    (hnext : ∀ x w, StaysInside ⟨m.control, m.frames, m.context, w⟩
      (next ⟨m.control, m.frames, m.context, w⟩ x)) :
    m.StaysInside (m.act a next) := by
  obtain ⟨control, frames, context, world⟩ := m
  rcases hrun : a.run.run world with ⟨f | x, w⟩
  · refine ⟨?_, ?_, ⟨α, a, ha, ?_⟩, ?_, ?_⟩ <;>
      simp [act, hrun, Machine.callers, Machine.cells, isWaiting, isFinished]
  · have hact : act ⟨control, frames, context, world⟩ a next
        = next ⟨control, frames, context, w⟩ x := by
      simp [act, hrun]
    obtain ⟨hcontext, hcallers, ⟨β, b, hb, hworld⟩, hcontrol, hcells⟩ := hnext x w
    rw [hact]
    refine ⟨hcontext, hcallers, ⟨β, a >>= fun _ => b, ha.bind fun _ => hb, ?_⟩, hcontrol, hcells⟩
    rw [run_bind, hrun]
    exact hworld

theorem staysInside_giveBy {a : Action Value} (ha : Plain a) : m.StaysInside (m.giveBy a) :=
  staysInside_act (.plain ha) fun _ _ => .still rfl rfl rfl rfl le_rfl

theorem staysInside_flowBy {a : Action Unit} (ha : a.Local m.context.scope) :
    m.StaysInside (m.flowBy a) :=
  staysInside_act ha fun _ _ => .still rfl rfl rfl rfl le_rfl

theorem staysInside_readName {next : Machine → Value → Machine} (name : String)
    (hnext : ∀ v, m.StaysInside (next m v)) : m.StaysInside (m.readName name next) := by
  rw [readName]
  split
  · exact hnext _
  · exact .still rfl rfl rfl rfl le_rfl

/-! ### Expressions -/

theorem staysInside_nextEntry (entries : Entries) (rest : List (Expr × Expr)) :
    m.StaysInside (m.nextEntry entries rest) := by
  cases rest with
  | nil => exact staysInside_giveBy (.newDict entries)
  | cons => exact .still rfl rfl rfl rfl le_rfl

theorem staysInside_eval (e : Expr) : m.StaysInside (m.eval e) := by
  rw [eval]
  cases e.form
  case name s => exact staysInside_readName s fun _ => .still rfl rfl rfl rfl le_rfl
  case list items =>
    cases items with
    | nil => exact staysInside_giveBy (.newList _)
    | cons => exact .still rfl rfl rfl rfl le_rfl
  case tuple items =>
    cases items with
    | nil => exact staysInside_giveBy (.newTuple _)
    | cons => exact .still rfl rfl rfl rfl le_rfl
  case dict entries => exact staysInside_nextEntry [] entries
  case compare left rest => cases rest <;> exact .still rfl rfl rfl rfl le_rfl
  all_goals exact .still rfl rfl rfl rfl le_rfl

/-! ### Statements -/

theorem staysInside_define (name : String) (params : List (String × Bool)) (body : List Stmt)
    (isAsync : Bool) (defaults : List Value) :
    m.StaysInside (m.define name params body isAsync defaults) :=
  staysInside_flowBy (.bind (.newClosure _ rfl) fun v => .bindName name v)

theorem staysInside_nextItem (it : Iteration) (target : Expr) (body : List Stmt) :
    m.StaysInside (m.nextItem it target body) := by
  rw [nextItem]
  split <;> exact .still rfl rfl rfl rfl le_rfl

theorem staysInside_augment (target : Expr) (op : BinaryOp) (value : Expr) :
    m.StaysInside (m.augment target op value) := by
  rw [augment]
  cases target.form
  case name s => exact staysInside_readName s fun _ => .still rfl rfl rfl rfl le_rfl
  all_goals exact .still rfl rfl rfl rfl le_rfl

theorem staysInside_exec (s : Stmt) : m.StaysInside (m.exec s) := by
  rw [exec]
  cases s.form
  case augAssign target op value => exact staysInside_augment target op value
  case define name params body isAsync =>
    dsimp only
    split
    · exact staysInside_define name _ body isAsync []
    · exact .still rfl rfl rfl rfl le_rfl
  case ret value => cases value <;> exact .still rfl rfl rfl rfl le_rfl
  case raise exc => cases exc <;> exact .still rfl rfl rfl rfl le_rfl
  case imports names => exact staysInside_flowBy (Libraries.local_importAll _ names)
  case importFrom path names =>
    exact staysInside_flowBy (Libraries.local_importMembers _ path names)
  all_goals exact .still rfl rfl rfl rfl le_rfl

theorem staysInside_assign (pairs : List (Expr × Value)) : m.StaysInside (m.assign pairs) := by
  cases pairs
  case nil => exact .still rfl rfl rfl rfl le_rfl
  case cons p rest =>
    obtain ⟨target, v⟩ := p
    rw [assign]
    have hunpack (targets : List Expr) :
        m.StaysInside (m.act (.look fun h => Operators.unpack h v targets.length) fun m items =>
          { m with control := .assign (targets.zip items ++ rest) }) :=
      staysInside_act (.plain (.look fun f h => by simp)) fun _ _ => .still rfl rfl rfl rfl le_rfl
    cases target.form
    case name s => exact staysInside_act (.bindName s v) fun _ _ => .still rfl rfl rfl rfl le_rfl
    case tuple targets => exact hunpack targets
    case list targets => exact hunpack targets
    all_goals exact .still rfl rfl rfl rfl le_rfl

/-! ### Operations -/

theorem staysInside_raiseValue (v : Value) : m.StaysInside (m.raiseValue v) := by
  cases v
  case builtin b => cases b <;> exact .still rfl rfl rfl rfl le_rfl
  all_goals exact .still rfl rfl rfl rfl le_rfl

theorem staysInside_performOne (v : Value) {op : Operation} (hop : op ≠ .await) :
    m.StaysInside (m.performOne v op) := by
  cases op
  case unary op => exact staysInside_giveBy (Operators.plain_unary op v)
  case member name => exact staysInside_giveBy (Operators.plain_getMember v name)
  case await => exact absurd rfl hop
  case logical op right =>
    simp only [performOne]
    split <;> exact .still rfl rfl rfl rfl le_rfl
  case storeMember name w => exact staysInside_flowBy (.plain (Operators.plain_setMember v name w))
  case augmentName op name current =>
    refine staysInside_flowBy (.bind (.plain (Operators.plain_augmented op current v)) fun v => ?_)
    exact .bindName name v
  case augmentItem op container index current =>
    refine staysInside_flowBy (.plain (.bind (Operators.plain_augmented op current v) fun v => ?_))
    exact Operators.plain_setItem container index v
  case fetchMember op name value =>
    simp only [performOne]
    exact staysInside_act (.plain (Operators.plain_getMember v name)) fun _ _ =>
      .still rfl rfl rfl rfl le_rfl
  case augmentMember op object name current =>
    refine staysInside_flowBy (.plain (.bind (Operators.plain_augmented op current v) fun v => ?_))
    exact Operators.plain_setMember object name v
  case loop e body =>
    simp only [performOne]
    split <;> exact .still rfl rfl rfl rfl le_rfl
  case iterate target body =>
    simp only [performOne]
    refine staysInside_act (.plain (.look fun g h => by simp)) fun it w => ?_
    exact staysInside_nextItem it target body
  case raise => exact staysInside_raiseValue v
  all_goals exact .still rfl rfl rfl rfl le_rfl

theorem staysInside_performTwo (v w : Value) (op : Operation) :
    m.StaysInside (m.performTwo v w op) := by
  cases op
  case binary op => exact staysInside_giveBy (Operators.plain_binary op v w)
  case subscript => exact staysInside_giveBy (.look fun g h => by simp)
  case entry entries rest =>
    simp only [performTwo]
    refine staysInside_act (.plain (.look fun g h => by simp)) fun entries world => ?_
    exact staysInside_nextEntry entries rest
  case compare op rest =>
    simp only [performTwo]
    refine staysInside_act (.plain (.look fun g h => by simp)) fun holds world => ?_
    cases holds
    case false => cases rest <;> exact .still rfl rfl rfl rfl le_rfl
    case true => cases rest <;> exact .still rfl rfl rfl rfl le_rfl
  case store x => exact staysInside_flowBy (.plain (Operators.plain_setItem v w x))
  case fetchItem op value =>
    simp only [performTwo]
    exact staysInside_act (.plain (.look fun g h => by simp)) fun _ _ => .still rfl rfl rfl rfl le_rfl
  all_goals exact .still rfl rfl rfl rfl le_rfl

/-! ### Calls -/

theorem run_forM_bind (bindings : List (String × Value)) (scope : Nat) (world : World) :
    (bindings.forM fun (name, v) => Action.bind scope name v).run.run world
      = (.ok (), { world with
          heap := bindings.foldl (fun h p => h.bind scope p.1 p.2) world.heap }) := by
  induction bindings generalizing world
  case nil => rfl
  case cons p bindings ih =>
    exact (run_bind _ _ world).trans (ih { world with heap := world.heap.bind scope p.1 p.2 })

theorem run_enter (caller : Context) (c : Closure) (args : Arguments) (world : World) :
    (enter caller c args).run.run world
      = if depthLimit ≤ caller.depth then
          (.error (.raised ⟨.recursion, "maximum recursion depth exceeded"⟩), world)
        else match c.bindArguments args with
          | .error f => (.error f, world)
          | .ok bindings => (.ok ⟨world.heap.scopes.size, caller.depth + 1, caller.cell⟩,
              world.entered c.scope bindings) := by
  rw [enter]
  split
  · rfl
  · rw [run_bind]
    cases c.bindArguments args with
    | error f => rfl
    | ok bindings =>
      simp only
      change ((newScope ⟨[], some c.scope⟩) >>= _).run.run world = _
      rw [run_bind, newScope, run_make]
      simp only
      rw [run_bind, run_forM_bind]
      rfl

-- A call that is refused changes nothing.
theorem enter_error {caller : Context} {c : Closure} {args : Arguments} {world w : World}
    {f : Failure} (h : (enter caller c args).run.run world = (.error f, w)) : w = world := by
  rw [run_enter] at h
  split at h
  · exact (Prod.mk.inj h).2.symm
  · split at h
    · exact (Prod.mk.inj h).2.symm
    · cases h

theorem moves_callClosure (c : Closure) (args : Arguments) :
    m.Moves (m.callClosure c args) := by
  obtain ⟨control, frames, context, world⟩ := m
  rcases hrun : (enter context c args).run.run world with ⟨f | inner, w⟩
  · obtain rfl := enter_error hrun
    have hact : callClosure ⟨control, frames, context, w⟩ c args
        = ⟨.ended (.failed f), frames, context, w⟩ := by
      simp [callClosure, act, hrun]
    rw [hact]
    exact .inside (.still rfl rfl rfl rfl le_rfl)
  · have hact : callClosure ⟨control, frames, context, world⟩ c args
        = if c.isAsync then
            giveBy ⟨control, frames, context, w⟩ (newCoroutine ⟨c.name, .body inner c.body⟩)
          else runBody ⟨control, frames, context, w⟩ inner c.body := by
      simp [callClosure, act, hrun]
    rw [hact]
    split
    · exact .starts c args inner w hrun rfl rfl rfl ⟨_, rfl⟩ rfl
    · exact .enters c args hrun rfl rfl rfl

theorem moves_callValue (callee : Value) (args : Arguments) :
    m.Moves (m.callValue callee args) := by
  cases callee
  case builtin b => exact .inside (staysInside_giveBy (Builtins.plain_call b args))
  case method id => exact .inside (staysInside_giveBy (Methods.plain_call _ args))
  case closure id => exact moves_callClosure _ args
  all_goals exact .inside (.still rfl rfl rfl rfl le_rfl)

theorem moves_await (v : Value) : m.Moves (m.await v) := by
  cases v
  case coroutine id =>
    obtain ⟨control, frames, context, world⟩ := m
    cases hwork : (world.heap.coroutine id).work with
    | input prompt =>
      have hact : await ⟨control, frames, context, world⟩ (.coroutine id)
          = ⟨.waiting context.cell prompt, frames, context, ((takeWork id).run.run world).2⟩ := by
        simp [await, act, takeWork, run_make, hwork]
      rw [hact]
      exact .asks id prompt hwork rfl rfl rfl rfl rfl
    | body inner body =>
      have hact : await ⟨control, frames, context, world⟩ (.coroutine id)
          = runBody ⟨control, frames, context, ((takeWork id).run.run world).2⟩ inner body := by
        simp [await, act, takeWork, run_make, hwork]
      rw [hact]
      exact .resumes id body hwork rfl rfl rfl rfl
    | spent =>
      have hact : await ⟨control, frames, context, world⟩ (.coroutine id)
          = raise ⟨control, frames, context, ((takeWork id).run.run world).2⟩ .runtimeError
            "cannot reuse already awaited coroutine" := by
        simp [await, act, takeWork, run_make, hwork]
      rw [hact]
      exact .reuses id hwork rfl rfl rfl ⟨_, rfl⟩ rfl
  all_goals exact .inside (.still rfl rfl rfl rfl le_rfl)

theorem moves_performOne (v : Value) (op : Operation) : m.Moves (m.performOne v op) := by
  by_cases hop : op = .await
  case pos =>
    subst hop
    exact moves_await v
  case neg => exact .inside (staysInside_performOne v hop)

theorem moves_perform (values : List Value) (op : Operation) : m.Moves (m.perform values op) := by
  rw [perform.eq_def]
  split
  case h_1 => exact .inside (staysInside_giveBy (.newList _))
  case h_2 => exact .inside (staysInside_giveBy (.newTuple _))
  case h_3 callee args => exact moves_callValue callee _
  case h_4 name params body isAsync => exact .inside (staysInside_define name params body isAsync _)
  case h_5 v _ _ _ _ => exact moves_performOne v _
  case h_6 v w _ _ _ _ => exact .inside (staysInside_performTwo v w _)
  case h_7 => exact .inside (.still rfl rfl rfl rfl le_rfl)

/-! ### Steps -/

-- The cell has been taken off.
theorem inside_nextStmt (stmts : List Stmt) :
    Inside m.context m.callers (m.cells + 1) m.world (m.nextStmt stmts) := by
  cases stmts
  case nil => exact .still rfl rfl rfl rfl le_rfl
  case cons s rest =>
    simp only [nextStmt]
    cases s.form <;> exact .still rfl rfl rfl rfl le_rfl

-- The frame on top has been taken off.
theorem moves_giveTo (v : Value) (frame : Frame) :
    { m with frames := frame :: m.frames }.Moves (m.giveTo v frame) := by
  cases frame
  case operands done rest op =>
    cases rest with
    | nil => exact moves_perform (m := m) _ op
    | cons => exact .inside (.still rfl rfl rfl rfl le_rfl)
  case cell rest =>
    cases rest with
    | nil => exact .inside (.still rfl rfl rfl rfl le_rfl)
    | cons s rest => exact .inside (inside_nextStmt (m := m) (s :: rest))
  case call caller => exact .aborts rfl (List.suffix_cons _ _) rfl ⟨_, rfl⟩ le_rfl
  all_goals exact .inside (.still rfl rfl rfl rfl le_rfl)

theorem moves_flowTo (flow : Flow) (frame : Frame) :
    { m with frames := frame :: m.frames }.Moves (m.flowTo flow frame) := by
  cases frame
  case block rest => cases rest <;> cases flow <;> exact .inside (.still rfl rfl rfl rfl le_rfl)
  case forBody it target body =>
    cases flow
    case normal | continueLoop => exact .inside (staysInside_nextItem (m := m) it target body)
    all_goals exact .inside (.still rfl rfl rfl rfl le_rfl)
  case call caller =>
    cases flow
    case normal | ret => exact .returns rfl rfl ⟨_, rfl⟩ rfl
    all_goals exact .aborts rfl (List.suffix_cons _ _) rfl ⟨_, rfl⟩ le_rfl
  case cell rest =>
    cases flow
    case normal => exact .inside (inside_nextStmt (m := m) rest)
    all_goals exact .inside (.still rfl rfl rfl rfl (Nat.le_succ _))
  all_goals cases flow <;> exact .inside (.still rfl rfl rfl rfl le_rfl)

-- A machine that has not halted makes one of the moves.
theorem moves_step (h : m.isHalted = false) : m.Moves m.step := by
  obtain ⟨control, frames, context, world⟩ := m
  cases control
  case eval e => exact .inside (staysInside_eval e)
  case exec s => exact .inside (staysInside_exec s)
  case assign pairs => exact .inside (staysInside_assign pairs)
  case give v =>
    cases frames with
    | nil => exact .inside (.still rfl rfl rfl rfl le_rfl)
    | cons frame frames => exact moves_giveTo (m := ⟨.give v, frames, context, world⟩) v frame
  case flow flow =>
    cases frames with
    | nil => exact .inside (.still rfl rfl rfl rfl le_rfl)
    | cons frame frames => exact moves_flowTo (m := ⟨.flow flow, frames, context, world⟩) flow frame
  all_goals cases h

theorem step_of_isHalted (h : m.isHalted) : m.step = m := by
  obtain ⟨control, frames, context, world⟩ := m
  cases control
  case waiting | ended => rfl
  all_goals cases h

/-! ### Runs -/

-- What a machine can come to, whatever the host answers.
inductive Reaches (m : Machine) : Machine → Prop where
  | refl : Reaches m m
  | step {m' : Machine} (h : Reaches m m') : Reaches m m'.step
  | answer {m' : Machine} (text : String) (hwait : m'.isWaiting) (h : Reaches m m') :
    Reaches m (m'.answer text)

theorem Reaches.run {m' : Machine} (h : m.Reaches m') (fuel : Nat) : m.Reaches (m'.run fuel) := by
  induction fuel generalizing m'
  case zero => exact h
  case succ fuel ih =>
    rw [Machine.run]
    split
    · exact h
    · exact ih h.step

end Machine
end NoteCell
