import NoteCell.Proofs.Machine.Actions
import NoteCell.Proofs.Tree.Shape

/-!
Machines with changed trees, in cells of other names, with more below their frames and more written
before. A machine looks at the forms of nodes only, one at a time: when a change keeps the forms that
a step looks at, the step and the change may be taken in either order. So machines whose trees differ
in ids, places and depths run alike.
-/
namespace NoteCell

-- A change of trees that keeps the forms of statements, and of the names of cells.
structure TreeChange where
  expr : Expr → Expr
  stmt : Stmt → Stmt
  cell : String → String
  form_stmt (s : Stmt) : (stmt s).form = s.form.map expr stmt

-- The form of this expression is kept too.
def TreeChange.Keeps (t : TreeChange) (e : Expr) : Prop := (t.expr e).form = e.form.map t.expr

theorem TreeChange.Keeps.describe_eq {t : TreeChange} {e : Expr} (h : t.Keeps e) :
    (t.expr e).describe = e.describe := by
  rw [Expr.describe, Expr.describe, h]
  cases e.form <;> rfl

section

variable (t : TreeChange)

def Operation.changed : Operation → Operation
  | entry entries rest => .entry entries (rest.map fun p => (t.expr p.1, t.expr p.2))
  | logical op right => .logical op (t.expr right)
  | choose body orelse => .choose (t.expr body) (t.expr orelse)
  | compare op rest => .compare op (rest.map fun p => (p.1, t.expr p.2))
  | assign targets => .assign (targets.map t.expr)
  | fetchItem op value => .fetchItem op (t.expr value)
  | fetchMember op name value => .fetchMember op name (t.expr value)
  | branch body orelse => .branch (body.map t.stmt) (orelse.map t.stmt)
  | loop test body => .loop (t.expr test) (body.map t.stmt)
  | iterate target body => .iterate (t.expr target) (body.map t.stmt)
  | define name params body isAsync => .define name params (body.map t.stmt) isAsync
  | op => op

def Frame.changed : Frame → Frame
  | operands done rest op => .operands done (rest.map t.expr) (op.changed t)
  | assign rest => .assign (rest.map fun p => (t.expr p.1, p.2))
  | block rest => .block (rest.map t.stmt)
  | whileBody test body => .whileBody (t.expr test) (body.map t.stmt)
  | forTarget it target body => .forTarget it (t.expr target) (body.map t.stmt)
  | forBody it target body => .forBody it (t.expr target) (body.map t.stmt)
  | call caller => .call (caller.mapCell t.cell)
  | cell rest => .cell (rest.map t.stmt)

def Control.changed : Control → Control
  | eval e => .eval (t.expr e)
  | exec s => .exec (t.stmt s)
  | assign pairs => .assign (pairs.map fun p => (t.expr p.1, p.2))
  | waiting cell prompt => .waiting (t.cell cell) prompt
  | c => c

end

-- What a call is of, once that has been evaluated.
def Frame.callee? : Frame → Option Value
  | operands done _ (.call ..) => done.getLast?
  | _ => none

-- A change of trees, and of the frames they stand in, with what was written before. It may do more to
-- calls that have their callee.
structure MachineChange where
  trees : TreeChange
  frames : List Frame → List Frame
  written : List Effect
  frames_cons (frame : Frame) (rest : List Frame) :
    frame.callee? = none → frames (frame :: rest) = frame.changed trees :: frames rest

def MachineChange.world (c : MachineChange) : WorldChange := ⟨⟨c.trees.stmt, c.trees.cell⟩, c.written⟩

-- Nothing more is done to a frame on top of others.
def MachineChange.KeepsOn (c : MachineChange) (rest : List Frame) (frame : Frame) : Prop :=
  c.frames (frame :: rest) = frame.changed c.trees :: c.frames rest

theorem MachineChange.keepsOn (c : MachineChange) {rest : List Frame} {frame : Frame}
    (h : frame.callee? = none) : c.KeepsOn rest frame :=
  c.frames_cons frame rest h

-- Each frame is changed, and they stand on others.
def MachineChange.over (t : TreeChange) (below : List Frame) (written : List Effect) :
    MachineChange where
  trees := t
  frames frames := frames.map (Frame.changed t) ++ below
  written := written
  frames_cons _ _ _ := rfl

-- The top frame is to go on with this.
def Control.isPassed : Control → Bool
  | give _ | flow _ => true
  | _ => false

namespace Machine

def changed (c : MachineChange) (m : Machine) : Machine :=
  ⟨m.control.changed c.trees, c.frames m.frames, m.context.mapCell c.trees.cell,
    m.world.changed c.world⟩

variable {c : MachineChange} {m : Machine}

theorem changed_act {α β : Type} {φ : α → β} {a : Action α} {b : Action β}
    {next : Machine → α → Machine} {next' : Machine → β → Machine}
    (h : Action.Follows c.world φ a b)
    (hnext : ∀ m x, (next m x).changed c = next' (m.changed c) (φ x)) :
    (m.act a next).changed c = (m.changed c).act b next' := by
  obtain ⟨control, frames, context, world⟩ := m
  simp only [act, changed, h.run_changed]
  rcases a.run.run world with ⟨_ | x, w⟩
  · rfl
  · exact hnext _ x

theorem changed_giveBy {a b : Action Value} (h : Action.Follows c.world id a b) :
    (m.giveBy a).changed c = (m.changed c).giveBy b :=
  changed_act h fun _ _ => rfl

theorem changed_flowBy {a b : Action Unit} (h : Action.Follows c.world id a b) :
    (m.flowBy a).changed c = (m.changed c).flowBy b :=
  changed_act h fun _ _ => rfl

theorem heap_changed : (m.changed c).world.heap = m.world.heap.mapWork c.world.toBodyChange := rfl

theorem changed_on {control : Control} {frame : Frame} {rest : List Frame} {context : Context}
    {world : World} (h : c.KeepsOn rest frame) :
    changed c ⟨control, frame :: rest, context, world⟩
      = ⟨control.changed c.trees, frame.changed c.trees :: c.frames rest,
        context.mapCell c.trees.cell, world.changed c.world⟩ := by
  rw [changed, h]

theorem changed_push {frame : Frame} (h : c.KeepsOn m.frames frame) :
    (m.push frame).changed c = (m.changed c).push (frame.changed c.trees) :=
  changed_on h

theorem changed_operand {done : List Value} {e : Expr} {rest : List Expr} {op : Operation}
    (h : c.KeepsOn m.frames (.operands done rest op)) :
    (m.operand done e rest op).changed c
      = (m.changed c).operand done (c.trees.expr e) (rest.map c.trees.expr) (op.changed c.trees) :=
  congrArg (evaluate · (c.trees.expr e)) (changed_push h)

-- The first operand of anything.
theorem changed_first (e : Expr) (rest : List Expr) (op : Operation) :
    (m.operand [] e rest op).changed c
      = (m.changed c).operand [] (c.trees.expr e) (rest.map c.trees.expr) (op.changed c.trees) :=
  changed_operand (c.keepsOn (by cases op <;> rfl))

theorem changed_runBlock (body : List Stmt) :
    (m.runBlock body).changed c = (m.changed c).runBlock (body.map c.trees.stmt) := by
  rw [runBlock, runBlock, ← Frame.changed, ← changed_push (c.keepsOn rfl)]
  rfl

theorem changed_runBody (context : Context) (body : List Stmt) :
    (m.runBody context body).changed c
      = (m.changed c).runBody (context.mapCell c.trees.cell) (body.map c.trees.stmt) := by
  have hpush : (m.push (.call m.context)).changed c
      = (m.changed c).push (.call (m.changed c).context) :=
    changed_push (c.keepsOn rfl)
  refine (changed_runBlock body).trans ?_
  exact congrArg (fun m => runBlock { m with context := context.mapCell c.trees.cell } _) hpush

/-! ### Calls -/

theorem changed_callClosure (f : Closure) (args : Arguments) :
    (m.callClosure f args).changed c
      = (m.changed c).callClosure (f.mapBody c.trees.stmt) args := by
  refine changed_act (follows_enter c.world m.context f args) fun m context => ?_
  obtain ⟨name, params, body, scope, isAsync⟩ := f
  cases isAsync
  case false => exact changed_runBody context body
  case true => exact changed_giveBy (Action.follows_newCoroutine _ _)

theorem changed_callValue (callee : Value) (args : Arguments) :
    (m.callValue callee args).changed c = (m.changed c).callValue callee args := by
  cases callee
  case builtin b => exact changed_giveBy ((Builtins.plain_call b args).follows _)
  case method id => exact changed_giveBy ((Methods.plain_call _ args).follows _)
  case closure id =>
    simp only [callValue, heap_changed, Heap.closure_mapWork]
    exact changed_callClosure _ args
  all_goals rfl

theorem changed_await (v : Value) : (m.await v).changed c = (m.changed c).await v := by
  cases v
  case coroutine id =>
    simp only [await]
    refine changed_act (Action.follows_takeWork _ id) fun m work => ?_
    cases work
    case body context body => exact changed_runBody context body
    all_goals rfl
  all_goals rfl

/-! ### Expressions -/

theorem lookup_changed (name : String) : (m.changed c).lookup name = m.lookup name := by
  rw [lookup, lookup, heap_changed, Heap.binding?_mapWork]
  rfl

theorem changed_readName {next next' : Machine → Value → Machine} (name : String)
    (h : ∀ v, (next m v).changed c = next' (m.changed c) v) :
    (m.readName name next).changed c = (m.changed c).readName name next' := by
  rw [readName, readName, lookup_changed]
  cases m.lookup name with
  | none => rfl
  | some v => exact h v

theorem changed_nextEntry (entries : Entries) (rest : List (Expr × Expr)) :
    (m.nextEntry entries rest).changed c
      = (m.changed c).nextEntry entries
        (rest.map fun p => (c.trees.expr p.1, c.trees.expr p.2)) := by
  cases rest with
  | nil => exact changed_giveBy ((Action.Plain.newDict entries).follows _)
  | cons => exact changed_first _ _ _

theorem changed_eval {e : Expr} (h : c.trees.Keeps e) :
    (m.eval e).changed c = (m.changed c).eval (c.trees.expr e) := by
  rw [eval, eval, h]
  cases e.form
  case name s => exact changed_readName s fun _ => rfl
  case int | float | str | bool | none => rfl
  case list items =>
    cases items with
    | nil => exact changed_giveBy ((Action.Plain.newList _).follows _)
    | cons => exact changed_first _ _ _
  case tuple items =>
    cases items with
    | nil => exact changed_giveBy ((Action.Plain.newTuple _).follows _)
    | cons => exact changed_first _ _ _
  case dict entries => exact changed_nextEntry [] entries
  case compare left rest =>
    cases rest with
    | nil => rfl
    | cons => exact changed_first _ _ _
  case call func args keywords =>
    refine (changed_first _ _ _).trans ?_
    simp [ExprForm.map, Operation.changed, Function.comp_def]
  all_goals exact changed_first _ _ _

/-! ### Statements -/

theorem changed_raiseValue (v : Value) :
    (m.raiseValue v).changed c = (m.changed c).raiseValue v := by
  cases v
  case builtin b => cases b <;> rfl
  all_goals rfl

theorem changed_define (name : String) (params : List (String × Bool)) (body : List Stmt)
    (isAsync : Bool) (defaults : List Value) :
    (m.define name params body isAsync defaults).changed c
      = (m.changed c).define name params (body.map c.trees.stmt) isAsync defaults := by
  refine changed_flowBy ((Action.follows_newClosure _ _).bind fun v => ?_)
  exact (Action.Blind.bindName _ name v).follows _

theorem changed_nextItem (it : Iteration) (target : Expr) (body : List Stmt) :
    (m.nextItem it target body).changed c
      = (m.changed c).nextItem it (c.trees.expr target) (body.map c.trees.stmt) := by
  simp only [nextItem, heap_changed, Iteration.next?_mapWork]
  split
  · rfl
  · rw [← Frame.changed, ← changed_push (c.keepsOn rfl)]
    rfl

theorem changed_augment {target : Expr} (h : c.trees.Keeps target) (op : BinaryOp) (value : Expr) :
    (m.augment target op value).changed c
      = (m.changed c).augment (c.trees.expr target) op (c.trees.expr value) := by
  rw [augment, augment, TreeChange.Keeps.describe_eq h, h]
  cases target.form
  case name s => exact changed_readName s fun _ => changed_first _ _ _
  case subscript | member => exact changed_first _ _ _
  all_goals rfl

theorem changed_exec {s : Stmt}
    (h : ∀ target op value, s.form = .augAssign target op value → c.trees.Keeps target) :
    (m.exec s).changed c = (m.changed c).exec (c.trees.stmt s) := by
  rw [exec, exec, c.trees.form_stmt]
  cases hform : s.form
  case augAssign target op value => exact changed_augment (h target op value hform) op value
  case define name params body isAsync =>
    have hdefaults :
        (params.map fun p => Param.mk p.name (p.default?.map c.trees.expr)).filterMap (·.default?)
          = (params.filterMap (·.default?)).map c.trees.expr := by
      simp [List.filterMap_map, List.map_filterMap]
    simp only [StmtForm.map, hdefaults, List.map_map, Function.comp_def, Option.isSome_map]
    cases params.filterMap (·.default?) with
    | nil => exact changed_define name _ body isAsync []
    | cons => exact changed_first _ _ _
  case ret value =>
    cases value with
    | none => rfl
    | some => exact changed_first _ _ _
  case raise exc =>
    cases exc with
    | none => rfl
    | some => exact changed_first _ _ _
  case imports names => exact changed_flowBy ((Libraries.blind_importAll _ names).follows _)
  case importFrom path names =>
    exact changed_flowBy ((Libraries.blind_importMembers _ path names).follows _)
  case pass | breakLoop | continueLoop => rfl
  all_goals exact changed_first _ _ _

-- The items of a value go to targets, before what is left.
theorem changed_unpack (targets : List Expr) (v : Value) (rest : List (Expr × Value)) :
    (m.act (.look fun h => Operators.unpack h v targets.length) fun m items =>
        { m with control := .assign (targets.zip items ++ rest) }).changed c
      = (m.changed c).act
        (.look fun h => Operators.unpack h v (targets.map c.trees.expr).length) fun m items =>
          let pairs := (targets.map c.trees.expr).zip items
          { m with control := .assign (pairs ++ rest.map fun p => (c.trees.expr p.1, p.2)) } := by
  rw [List.length_map]
  refine changed_act ((Action.Plain.look fun g h => by simp).follows _) fun m items => ?_
  simp [changed, Control.changed, List.zip_map_left, Prod.map_def]

theorem changed_assign {pairs : List (Expr × Value)} (h : ∀ p ∈ pairs.head?, c.trees.Keeps p.1) :
    (m.assign pairs).changed c
      = (m.changed c).assign (pairs.map fun p => (c.trees.expr p.1, p.2)) := by
  cases pairs
  case nil => rfl
  case cons p rest =>
    obtain ⟨target, v⟩ := p
    have h : c.trees.Keeps target := h (target, v) rfl
    rw [assign, List.map_cons, assign, h.describe_eq, h]
    have hpush : (m.push (.assign rest)).changed c
        = (m.changed c).push (.assign (rest.map fun p => (c.trees.expr p.1, p.2))) :=
      changed_push (c.keepsOn rfl)
    cases target.form
    case name s => exact changed_act ((Action.Blind.bindName _ s v).follows _) fun _ _ => rfl
    case tuple targets => exact changed_unpack targets v rest
    case list targets => exact changed_unpack targets v rest
    case subscript container index =>
      refine (changed_first _ _ _).trans ?_
      rw [hpush]
      rfl
    case member object name =>
      refine (changed_first _ _ _).trans ?_
      rw [hpush]
      rfl
    all_goals rfl

/-! ### Operations -/

theorem changed_performOne (v : Value) (op : Operation) :
    (m.performOne v op).changed c = (m.changed c).performOne v (op.changed c.trees) := by
  cases op
  case unary op => exact changed_giveBy ((Operators.plain_unary op v).follows _)
  case member name => exact changed_giveBy ((Operators.plain_getMember v name).follows _)
  case await => exact changed_await v
  case logical op right =>
    simp only [performOne, Operation.changed, heap_changed, Heap.isTrue_mapWork]
    split <;> rfl
  case choose body orelse =>
    simp only [performOne, Operation.changed, heap_changed, Heap.isTrue_mapWork]
    split <;> rfl
  case assign targets =>
    simp [performOne, Operation.changed, changed, Control.changed, Function.comp_def]
  case storeMember name w => exact changed_flowBy ((Operators.plain_setMember v name w).follows _)
  case augmentName op name current =>
    refine changed_flowBy (((Operators.plain_augmented op current v).blind.bind fun v => ?_).follows _)
    exact .bindName _ name v
  case augmentItem op container index current =>
    refine changed_flowBy (((Operators.plain_augmented op current v).bind fun v => ?_).follows _)
    exact Operators.plain_setItem container index v
  case fetchMember op name value =>
    simp only [performOne, Operation.changed]
    exact changed_act ((Operators.plain_getMember v name).follows _) fun _ _ => changed_first _ _ _
  case augmentMember op object name current =>
    refine changed_flowBy (((Operators.plain_augmented op current v).bind fun v => ?_).follows _)
    exact Operators.plain_setMember object name v
  case branch body orelse =>
    simp only [performOne, Operation.changed, heap_changed, Heap.isTrue_mapWork]
    split
    · exact changed_runBlock body
    · exact changed_runBlock orelse
  case loop e body =>
    simp only [performOne, Operation.changed, heap_changed, Heap.isTrue_mapWork]
    split
    · rw [changed_runBlock, changed_push (c.keepsOn rfl)]
      rfl
    · rfl
  case iterate target body =>
    simp only [performOne, Operation.changed]
    refine changed_act ((Action.Plain.look fun g h => by simp).follows _) fun m it => ?_
    exact changed_nextItem it target body
  case raise => exact changed_raiseValue v
  all_goals rfl

theorem changed_performTwo (v w : Value) (op : Operation) :
    (m.performTwo v w op).changed c = (m.changed c).performTwo v w (op.changed c.trees) := by
  cases op
  case binary op => exact changed_giveBy ((Operators.plain_binary op v w).follows _)
  case subscript => exact changed_giveBy ((Action.Plain.look fun g h => by simp).follows _)
  case entry entries rest =>
    simp only [performTwo, Operation.changed]
    refine changed_act ((Action.Plain.look fun g h => by simp).follows _) fun m entries => ?_
    exact changed_nextEntry entries rest
  case compare op rest =>
    simp only [performTwo, Operation.changed]
    refine changed_act ((Action.Plain.look fun g h => by simp).follows _) fun m holds => ?_
    cases holds
    case false => cases rest <;> rfl
    case true =>
      cases rest with
      | nil => rfl
      | cons => exact changed_operand (c.keepsOn rfl)
  case store x => exact changed_flowBy ((Operators.plain_setItem v w x).follows _)
  case fetchItem op value =>
    simp only [performTwo, Operation.changed]
    exact changed_act ((Action.Plain.look fun g h => by simp).follows _) fun _ _ =>
      changed_first _ _ _
  all_goals rfl

theorem changed_perform (values : List Value) (op : Operation) :
    (m.perform values op).changed c = (m.changed c).perform values (op.changed c.trees) := by
  cases op
  case list => exact changed_giveBy ((Action.Plain.newList _).follows _)
  case tuple => exact changed_giveBy ((Action.Plain.newTuple _).follows _)
  case define name params body isAsync => exact changed_define name params body isAsync values
  case call positional keywords =>
    match values with
    | [] => rfl
    | callee :: args => exact changed_callValue callee _
  all_goals
    match values with
    | [] => rfl
    | [v] => exact changed_performOne v _
    | [v, w] => exact changed_performTwo v w _
    | _ :: _ :: _ :: _ => rfl

/-! ### Steps -/

theorem changed_nextStmt (stmts : List Stmt) :
    (m.nextStmt stmts).changed c = (m.changed c).nextStmt (stmts.map c.trees.stmt) := by
  cases stmts
  case nil => rfl
  case cons s rest =>
    have hpush : (m.push (.cell rest)).changed c
        = (m.changed c).push (.cell (rest.map c.trees.stmt)) :=
      changed_push (c.keepsOn rfl)
    simp only [nextStmt, List.map_cons, c.trees.form_stmt, ← hpush]
    cases s.form <;> rfl

-- The frame on top has been taken off; it may come back without its next operand.
theorem changed_giveTo {v : Value} {frame : Frame}
    (h : ∀ done e rest op, frame = .operands done (e :: rest) op →
      c.KeepsOn m.frames (.operands (v :: done) rest op)) :
    (m.giveTo v frame).changed c = (m.changed c).giveTo v (frame.changed c.trees) := by
  cases frame
  case operands done rest op =>
    cases rest with
    | nil => exact changed_perform _ op
    | cons e rest => exact changed_operand (h done e rest op rfl)
  case cell rest =>
    cases rest with
    | nil => rfl
    | cons s rest => exact changed_nextStmt (s :: rest)
  all_goals rfl

theorem changed_flowTo (flow : Flow) (frame : Frame) :
    (m.flowTo flow frame).changed c = (m.changed c).flowTo flow (frame.changed c.trees) := by
  cases frame
  case block rest =>
    cases flow
    case normal =>
      cases rest with
      | nil => rfl
      | cons s rest =>
        have hpush : (m.push (.block rest)).changed c
            = (m.changed c).push (.block (rest.map c.trees.stmt)) :=
          changed_push (c.keepsOn rfl)
        exact congrArg (fun m => { m with control := .exec (c.trees.stmt s) }) hpush
    all_goals cases rest <;> rfl
  case whileBody =>
    cases flow
    case normal | continueLoop => exact changed_first _ _ _
    all_goals rfl
  case forTarget it target body =>
    rw [flowTo, changed_runBlock, changed_push (c.keepsOn rfl)]
    rfl
  case forBody it target body =>
    cases flow
    case normal | continueLoop => exact changed_nextItem it target body
    all_goals rfl
  case cell rest =>
    cases flow
    case normal => exact changed_nextStmt rest
    all_goals rfl
  all_goals cases flow <;> rfl

-- What the next step of a machine looks at is kept.
structure Open (c : MachineChange) (m : Machine) : Prop where
  eval (e : Expr) : m.control = .eval e → c.trees.Keeps e
  exec (s : Stmt) (target : Expr) (op : BinaryOp) (value : Expr) :
    m.control = .exec s → s.form = .augAssign target op value → c.trees.Keeps target
  assign (target : Expr) (v : Value) (rest : List (Expr × Value)) :
    m.control = .assign ((target, v) :: rest) → c.trees.Keeps target
  give (v : Value) (frame : Frame) (rest : List Frame) :
    m.control = .give v → m.frames = frame :: rest → c.KeepsOn rest frame
      ∧ ∀ done e others op, frame = .operands done (e :: others) op →
        c.KeepsOn rest (.operands (v :: done) others op)
  flow (f : Flow) (frame : Frame) (rest : List Frame) :
    m.control = .flow f → m.frames = frame :: rest → c.KeepsOn rest frame
  -- Nothing is put below a machine that has come to its end.
  bottom : m.control.isPassed → m.frames = [] → c.frames [] = []

theorem changed_step (h : m.Open c) : m.step.changed c = (m.changed c).step := by
  obtain ⟨control, frames, context, world⟩ := m
  cases control
  case eval e => exact changed_eval (h.eval e rfl)
  case exec s => exact changed_exec fun target op value => h.exec s target op value rfl
  case assign pairs =>
    refine changed_assign ?_
    rintro ⟨target, v⟩ hp
    cases pairs with
    | nil => cases hp
    | cons p rest =>
      cases hp
      exact h.assign target v rest rfl
  case give v =>
    cases frames with
    | nil => simp [changed, h.bottom rfl rfl, step, Control.changed, fail]
    | cons frame rest =>
      obtain ⟨htop, hnext⟩ := h.give v frame rest rfl rfl
      rw [changed_on htop]
      exact changed_giveTo (m := ⟨.give v, rest, context, world⟩) hnext
  case flow flow =>
    cases frames with
    | nil => simp [changed, h.bottom rfl rfl, step, Control.changed, fail]
    | cons frame rest =>
      rw [changed_on (h.flow flow frame rest rfl rfl)]
      exact changed_flowTo (m := ⟨.flow flow, rest, context, world⟩) flow frame
  all_goals rfl

-- As long as a machine does not go on to what its frames stand on.
theorem open_over {t : TreeChange} {below : List Frame} {written : List Effect}
    (ht : ∀ e, t.Keeps e) (hbelow : m.control.isPassed → m.frames = [] → below = []) :
    m.Open (.over t below written) where
  eval e _ := ht e
  exec _ target _ _ _ _ := ht target
  assign target _ _ _ := ht target
  give _ _ _ _ _ := ⟨rfl, fun _ _ _ _ _ => rfl⟩
  flow _ _ _ _ _ := rfl
  bottom hpassed hframes := hbelow hpassed hframes

theorem isHalted_changed : (m.changed c).isHalted = m.isHalted := by
  obtain ⟨control, _⟩ := m
  cases control <;> rfl

theorem ended_changed {o : Outcome} :
    (m.changed c).control = .ended o ↔ m.control = .ended o := by
  obtain ⟨control, _⟩ := m
  cases control <;> simp [changed, Control.changed]

theorem waiting_changed {cell prompt : String} : (m.changed c).control = .waiting cell prompt
    ↔ ∃ waiter, m.control = .waiting waiter prompt ∧ c.trees.cell waiter = cell := by
  obtain ⟨control, _⟩ := m
  cases control <;> simp [changed, Control.changed, and_comm]

end Machine

/-! ### What nodes carry -/

variable (f : NodeInfo → NodeInfo)

def Operation.mapInfo : Operation → Operation
  | entry entries rest => .entry entries (rest.map fun p => (p.1.mapInfo f, p.2.mapInfo f))
  | logical op right => .logical op (right.mapInfo f)
  | choose body orelse => .choose (body.mapInfo f) (orelse.mapInfo f)
  | compare op rest => .compare op (rest.map fun p => (p.1, p.2.mapInfo f))
  | assign targets => .assign (targets.map (Expr.mapInfo f))
  | fetchItem op value => .fetchItem op (value.mapInfo f)
  | fetchMember op name value => .fetchMember op name (value.mapInfo f)
  | branch body orelse => .branch (body.map (Stmt.mapInfo f)) (orelse.map (Stmt.mapInfo f))
  | loop test body => .loop (test.mapInfo f) (body.map (Stmt.mapInfo f))
  | iterate target body => .iterate (target.mapInfo f) (body.map (Stmt.mapInfo f))
  | define name params body isAsync => .define name params (body.map (Stmt.mapInfo f)) isAsync
  | op => op

def Frame.mapInfo : Frame → Frame
  | operands done rest op => .operands done (rest.map (Expr.mapInfo f)) (op.mapInfo f)
  | assign rest => .assign (rest.map fun p => (p.1.mapInfo f, p.2))
  | block rest => .block (rest.map (Stmt.mapInfo f))
  | whileBody test body => .whileBody (test.mapInfo f) (body.map (Stmt.mapInfo f))
  | forTarget it target body => .forTarget it (target.mapInfo f) (body.map (Stmt.mapInfo f))
  | forBody it target body => .forBody it (target.mapInfo f) (body.map (Stmt.mapInfo f))
  | call caller => .call caller
  | cell rest => .cell (rest.map (Stmt.mapInfo f))

def Control.mapInfo : Control → Control
  | eval e => .eval (e.mapInfo f)
  | exec s => .exec (s.mapInfo f)
  | assign pairs => .assign (pairs.map fun p => (p.1.mapInfo f, p.2))
  | c => c

def TreeChange.info : TreeChange where
  expr := Expr.mapInfo f
  stmt := Stmt.mapInfo f
  cell := id
  form_stmt s := s.form_mapInfo

theorem Operation.mapInfo_eq (op : Operation) : op.mapInfo f = op.changed (.info f) := by
  cases op <;> rfl

theorem Frame.mapInfo_eq (frame : Frame) : frame.mapInfo f = frame.changed (.info f) := by
  cases frame
  case operands done rest op => rw [mapInfo, changed, op.mapInfo_eq, TreeChange.info]
  all_goals rfl

def MachineChange.info : MachineChange := .over (.info f) [] []

namespace Machine

def mapInfo (m : Machine) : Machine :=
  ⟨m.control.mapInfo f, m.frames.map (Frame.mapInfo f), m.context,
    m.world.mapBodies (Stmt.mapInfo f)⟩

variable {f}

theorem mapInfo_eq (m : Machine) : m.mapInfo f = m.changed (.info f) := by
  have hworld (w : World) : w.mapBodies (Stmt.mapInfo f) = w.changed (MachineChange.info f).world :=
    (World.changed_ofStmt _ w).symm
  have hframes (frames : List Frame) :
      frames.map (Frame.mapInfo f) = (MachineChange.info f).frames frames := by
    rw [funext (Frame.mapInfo_eq f)]
    exact (List.append_nil _).symm
  obtain ⟨control, frames, context, world⟩ := m
  rw [mapInfo, hworld, hframes]
  cases control <;> rfl

theorem mapInfo_step (m : Machine) : m.step.mapInfo f = (m.mapInfo f).step := by
  rw [mapInfo_eq, mapInfo_eq]
  exact changed_step (open_over (fun e => e.form_mapInfo) fun _ _ => rfl)

theorem isHalted_mapInfo (m : Machine) : (m.mapInfo f).isHalted = m.isHalted := by
  rw [mapInfo_eq, isHalted_changed]

theorem mapInfo_run (fuel : Nat) (m : Machine) :
    (m.run fuel).mapInfo f = (m.mapInfo f).run fuel := by
  induction fuel generalizing m
  case zero => rfl
  case succ fuel ih =>
    rw [run, run, m.isHalted_mapInfo]
    split
    · rfl
    · rw [ih, mapInfo_step]

end Machine
end NoteCell
