import NoteCell.Machine.State

/-!
Steps of a running cell. Each does one thing; a machine that waits or has ended stays as it is.
-/
namespace NoteCell.Machine

/-! ### Calls -/

-- The context of a call, with the arguments bound in a scope of its own.
def enter (caller : Context) (c : Closure) (args : Arguments) : Action Context := do
  if depthLimit ≤ caller.depth then .raise .recursion "maximum recursion depth exceeded"
  else
    let bindings ← .lift (c.bindArguments args)
    let scope ← .newScope ⟨[], some c.scope⟩
    bindings.forM fun (name, v) => .bind scope name v
    return ⟨scope, caller.depth + 1, caller.cell⟩

-- Runs a body in a context of its own.
def runBody (m : Machine) (context : Context) (body : List Stmt) : Machine :=
  runBlock { m.push (.call m.context) with context := context } body

def callClosure (m : Machine) (c : Closure) (args : Arguments) : Machine :=
  m.act (enter m.context c args) fun m context =>
    if c.isAsync then m.giveBy (.newCoroutine ⟨c.name, .body context c.body⟩)
    else m.runBody context c.body

def callValue (m : Machine) (callee : Value) (args : Arguments) : Machine :=
  match callee with
  | .builtin b => m.giveBy (Builtins.call b args)
  | .method id => m.giveBy (Methods.call (m.world.heap.method id) args)
  | .closure id => m.callClosure (m.world.heap.closure id) args
  | v => m.raise .typeError ("'" ++ m.world.heap.typeName v ++ "' object is not callable")

-- A coroutine works once. Its body runs in the context that its call made.
def await (m : Machine) (v : Value) : Machine :=
  match v with
  | .coroutine id =>
    m.act (.takeWork id) fun m work =>
      match work with
      | .input prompt => { m with control := .waiting m.context.cell prompt }
      | .body context body => m.runBody context body
      | .spent => m.raise .runtimeError "cannot reuse already awaited coroutine"
  | v =>
    m.raise .typeError
      ("object " ++ m.world.heap.typeName v ++ " can't be used in 'await' expression")

/-! ### Expressions -/

def lookup (m : Machine) (name : String) : Option Value :=
  (m.world.heap.binding? m.context.scope name).or ((Builtin.ofName? name).map .builtin)

def undefined (m : Machine) (name : String) : Machine :=
  m.raise .nameError ("name '" ++ name ++ "' is not defined")

def readName (m : Machine) (name : String) (next : Machine → Value → Machine) : Machine :=
  match m.lookup name with
  | some v => next m v
  | none => m.undefined name

-- The next entry of a dict, or the dict.
def nextEntry (m : Machine) (entries : Entries) : List (Expr × Expr) → Machine
  | [] => m.giveBy (.newDict entries)
  | (key, value) :: rest => m.operand [] key [value] (.entry entries rest)

def eval (m : Machine) (e : Expr) : Machine :=
  match e.form with
  | .name s => m.readName s give
  | .int n => m.give (.int n)
  | .float x => m.give (.float x)
  | .str s => m.give (.str s)
  | .bool b => m.give (.bool b)
  | .none => m.give .nothing
  | .list [] => m.giveBy (.newList #[])
  | .list (item :: items) => m.operand [] item items .list
  | .tuple [] => m.giveBy (.newTuple #[])
  | .tuple (item :: items) => m.operand [] item items .tuple
  | .dict entries => m.nextEntry [] entries
  | .binary op left right => m.operand [] left [right] (.binary op)
  | .unary op operand => m.operand [] operand [] (.unary op)
  | .logical op left right => m.operand [] left [] (.logical op right)
  | .compare left [] => m.evaluate left
  | .compare left ((op, right) :: rest) => m.operand [] left [right] (.compare op rest)
  | .conditional test body orelse => m.operand [] test [] (.choose body orelse)
  | .call func args keywords =>
    m.operand [] func (args ++ keywords.map (·.2)) (.call args.length (keywords.map (·.1)))
  | .member value name => m.operand [] value [] (.member name)
  | .subscript value index => m.operand [] value [index] .subscript
  | .await value => m.operand [] value [] .await

/-! ### Statements -/

def raiseValue (m : Machine) (v : Value) : Machine :=
  match v with
  | .exception id => m.fail (.raised (m.world.heap.exception id))
  | .builtin (.exception kind) => m.raise kind ""
  | _ => m.raise .typeError "exceptions must derive from BaseException"

-- Parameters with their defaults, given in order for those that have one.
def withDefaults : List (String × Bool) → List Value → List (String × Option Value)
  | [], _ => []
  | (name, true) :: params, v :: vs => (name, some v) :: withDefaults params vs
  | (name, _) :: params, vs => (name, none) :: withDefaults params vs

def define (m : Machine) (name : String) (params : List (String × Bool)) (body : List Stmt)
    (isAsync : Bool) (defaults : List Value) : Machine :=
  let scope := m.context.scope
  m.flowBy do
    .bind scope name (← .newClosure ⟨name, withDefaults params defaults, body, scope, isAsync⟩)

-- Starts another round of a loop, or ends it.
def nextItem (m : Machine) (it : Iteration) (target : Expr) (body : List Stmt) : Machine :=
  match it.next? m.world.heap with
  | none => m.flow .normal
  | some (v, rest) =>
    { m.push (.forTarget rest target body) with control := .assign [(target, v)] }

def test (m : Machine) (e : Expr) (body : List Stmt) : Machine :=
  m.operand [] e [] (.loop e body)

def augment (m : Machine) (target : Expr) (op : BinaryOp) (value : Expr) : Machine :=
  match target.form with
  | .name s => m.readName s fun m v => m.operand [] value [] (.augmentName op s v)
  | .subscript container index => m.operand [] container [index] (.fetchItem op value)
  | .member object name => m.operand [] object [] (.fetchMember op name value)
  | _ =>
    m.raise .syntaxError
      ("'" ++ target.describe ++ "' is an illegal expression for augmented assignment")

def exec (m : Machine) (s : Stmt) : Machine :=
  match s.form with
  | .expr e => m.operand [] e [] .discard
  | .assign targets value => m.operand [] value [] (.assign targets)
  | .augAssign target op value => m.augment target op value
  | .ifElse test body orelse => m.operand [] test [] (.branch body orelse)
  | .whileLoop e body => m.test e body
  | .forEach target iter body => m.operand [] iter [] (.iterate target body)
  | .define name params body isAsync =>
    let shape := params.map fun p => (p.name, p.default?.isSome)
    match params.filterMap (·.default?) with
    | [] => m.define name shape body isAsync []
    | e :: rest => m.operand [] e rest (.define name shape body isAsync)
  | .ret none => m.flow (.ret .nothing)
  | .ret (some e) => m.operand [] e [] .ret
  | .raise none => m.raise .runtimeError "No active exception to reraise"
  | .raise (some e) => m.operand [] e [] .raise
  | .imports names => m.flowBy (Libraries.importAll m.context.scope names)
  | .importFrom path names => m.flowBy (Libraries.importMembers m.context.scope path names)
  | .pass => m.flow .normal
  | .breakLoop => m.flow .breakLoop
  | .continueLoop => m.flow .continueLoop

-- Gives values to targets, in order; the items of an unpacked value come before what is left.
def assign (m : Machine) : List (Expr × Value) → Machine
  | [] => m.flow .normal
  | (target, v) :: rest =>
    match target.form with
    | .name s =>
      m.act (.bind m.context.scope s v) fun m _ => { m with control := .assign rest }
    | .tuple targets | .list targets =>
      m.act (.look fun h => Operators.unpack h v targets.length) fun m items =>
        { m with control := .assign (targets.zip items ++ rest) }
    | .subscript container index =>
      (m.push (.assign rest)).operand [] container [index] (.store v)
    | .member object name => (m.push (.assign rest)).operand [] object [] (.storeMember name v)
    | _ => m.raise .syntaxError ("cannot assign to " ++ target.describe)

/-! ### Operations -/

-- Whether the left operand settles a logical expression.
def settles (op : LogicalOp) (isTrue : Bool) : Bool :=
  match op with
  | .and => !isTrue
  | .or => isTrue

def performCall (m : Machine) (positional : Nat) (keywords : List String) (callee : Value)
    (args : List Value) : Machine :=
  m.callValue callee ⟨args.take positional, keywords.zip (args.drop positional)⟩

-- An operation on one value.
def performOne (m : Machine) (v : Value) : Operation → Machine
  | .unary op => m.giveBy (Operators.unary op v)
  | .member name => m.giveBy (Operators.getMember v name)
  | .await => m.await v
  | .logical op right =>
    if settles op (m.world.heap.isTrue v) then m.give v else m.evaluate right
  | .choose body orelse => m.evaluate (if m.world.heap.isTrue v then body else orelse)
  | .discard => m.flow .normal
  | .assign targets => { m with control := .assign (targets.map (·, v)) }
  | .storeMember name w => m.flowBy (Operators.setMember v name w)
  | .augmentName op name current =>
    let scope := m.context.scope
    m.flowBy do .bind scope name (← Operators.augmented op current v)
  | .augmentItem op container index current =>
    m.flowBy do Operators.setItem container index (← Operators.augmented op current v)
  | .fetchMember op name value =>
    m.act (Operators.getMember v name) fun m current =>
      m.operand [] value [] (.augmentMember op v name current)
  | .augmentMember op object name current =>
    m.flowBy do Operators.setMember object name (← Operators.augmented op current v)
  | .branch body orelse => m.runBlock (if m.world.heap.isTrue v then body else orelse)
  | .loop e body =>
    if m.world.heap.isTrue v then (m.push (.whileBody e body)).runBlock body else m.flow .normal
  | .iterate target body =>
    m.act (.look fun h => Iteration.of h v) fun m it => m.nextItem it target body
  | .ret => m.flow (.ret v)
  | .raise => m.raiseValue v
  | _ => m.fail .broken

-- An operation on two values.
def performTwo (m : Machine) (v w : Value) : Operation → Machine
  | .binary op => m.giveBy (Operators.binary op v w)
  | .subscript => m.giveBy (.look fun h => Operators.getItem h v w)
  | .entry entries rest =>
    m.act (.look fun h => h.insertKey entries v w) fun m entries => m.nextEntry entries rest
  | .compare op rest =>
    m.act (.look fun h => Operators.compare h op v w) fun m holds =>
      match holds, rest with
      | false, _ => m.give (.bool false)
      | true, [] => m.give (.bool true)
      | true, (op, e) :: rest => m.operand [w] e [] (.compare op rest)
  | .store x => m.flowBy (Operators.setItem v w x)
  | .fetchItem op value =>
    m.act (.look fun h => Operators.getItem h v w) fun m current =>
      m.operand [] value [] (.augmentItem op v w current)
  | _ => m.fail .broken

def perform (m : Machine) (values : List Value) (op : Operation) : Machine :=
  match op, values with
  | .list, values => m.giveBy (.newList values.toArray)
  | .tuple, values => m.giveBy (.newTuple values.toArray)
  | .call positional keywords, callee :: args => m.performCall positional keywords callee args
  | .define name params body isAsync, values => m.define name params body isAsync values
  | op, [v] => m.performOne v op
  | op, [v, w] => m.performTwo v w op
  | _, _ => m.fail .broken

/-! ### Steps -/

-- The next statement of a cell. The value of the last one is that of the cell.
def nextStmt (m : Machine) : List Stmt → Machine
  | [] => { m with control := .ended (.finished none) }
  | s :: rest =>
    let m := m.push (.cell rest)
    match s.form with
    | .expr e => m.evaluate e
    | _ => { m with control := .exec s }

-- A value reaches the top frame, which has been taken off.
def giveTo (m : Machine) (v : Value) : Frame → Machine
  | .operands done [] op => m.perform (v :: done).reverse op
  | .operands done (e :: rest) op => m.operand (v :: done) e rest op
  | .cell [] => { m with control := .ended (.finished (if v.isNothing then none else some v)) }
  | .cell rest => m.nextStmt rest
  | _ => m.fail .broken

def stray (m : Machine) (s : Stray) : Machine := m.raise .syntaxError s.message

-- The end of a statement reaches the top frame, which has been taken off.
def flowTo (m : Machine) (f : Flow) (frame : Frame) : Machine :=
  match frame, f with
  | .assign rest, _ => { m with control := .assign rest }
  | .block [], .normal => m.flow .normal
  | .block (s :: rest), .normal => { m.push (.block rest) with control := .exec s }
  | .block _, f => m.flow f
  | .whileBody e body, .normal | .whileBody e body, .continueLoop => m.test e body
  | .whileBody _ _, .breakLoop => m.flow .normal
  | .whileBody _ _, .ret v => m.flow (.ret v)
  | .forTarget it target body, _ => (m.push (.forBody it target body)).runBlock body
  | .forBody it target body, .normal | .forBody it target body, .continueLoop =>
    m.nextItem it target body
  | .forBody _ _ _, .breakLoop => m.flow .normal
  | .forBody _ _ _, .ret v => m.flow (.ret v)
  | .call caller, .normal => { m with context := caller, control := .give .nothing }
  | .call caller, .ret v => { m with context := caller, control := .give v }
  | .call _, .breakLoop => m.stray .breakLoop
  | .call _, .continueLoop => m.stray .continueLoop
  | .cell rest, .normal => m.nextStmt rest
  | .cell _, .ret _ => m.stray .ret
  | .cell _, .breakLoop => m.stray .breakLoop
  | .cell _, .continueLoop => m.stray .continueLoop
  | .operands .., _ => m.fail .broken

def step (m : Machine) : Machine :=
  match m with
  | ⟨.eval e, frames, context, world⟩ => eval ⟨.eval e, frames, context, world⟩ e
  | ⟨.exec s, frames, context, world⟩ => exec ⟨.exec s, frames, context, world⟩ s
  | ⟨.assign pairs, frames, context, world⟩ =>
    assign ⟨.assign pairs, frames, context, world⟩ pairs
  | ⟨.give v, frame :: frames, context, world⟩ => giveTo ⟨.give v, frames, context, world⟩ v frame
  | ⟨.flow f, frame :: frames, context, world⟩ => flowTo ⟨.flow f, frames, context, world⟩ f frame
  | ⟨.give v, [], context, world⟩ => fail ⟨.give v, [], context, world⟩ .broken
  | ⟨.flow f, [], context, world⟩ => fail ⟨.flow f, [], context, world⟩ .broken
  | m => m

-- Steps until the machine halts.
def run : Nat → Machine → Machine
  | 0, m => m
  | fuel + 1, m => if m.isHalted then m else run fuel m.step

-- The host's answer to a machine that waits.
def answer (m : Machine) (text : String) : Machine := m.give (.str text)

end NoteCell.Machine
