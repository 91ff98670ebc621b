import NoteCell.Proofs.Reading.Statements
import NoteCell.Proofs.Safety.Actions
import NoteCell.Proofs.Session.Globals

/-!
Safe machines: what they hold is safe, and every statement that is yet to be left stands in what it
leaves. A safe machine stays safe, and if it fails, it fails safely. So the check before a run is
enough, whatever earlier cells have left and whatever the host answers.
-/
namespace NoteCell

/-! ### What is open -/

-- What is open around the statement that runs on top of frames.
def surroundings : List Frame → Surroundings
  | [] => .none
  | .whileBody .. :: rest | .forBody .. :: rest => { surroundings rest with inLoop := true }
  | .call _ :: _ => .function
  | .cell _ :: _ => .none
  | _ :: rest => surroundings rest

def Surroundings.loop (around : Surroundings) : Surroundings := { around with inLoop := true }

def Operation.wantsCallee (op : Operation) (done : List Value) : Bool :=
  match op, done with
  | .call .., [] => true
  | _, _ => false

variable (u : Usage)

/-! ### Safe frames -/

-- What an operation may be given after other values: `input` itself only where it is called.
def Operation.Admits (op : Operation) (done : List Value) (v : Value) : Prop :=
  v.Safe u ∨ op.wantsCallee done ∧ v = .builtin .input

def Operation.Taken (op : Operation) : List Value → Prop
  | [] => True
  | v :: done => op.Admits u done v ∧ Taken op done

def Operation.Safe (around : Surroundings) : Operation → Prop
  | entry entries rest => Entries.Safe u entries ∧ ∀ p ∈ rest, p.1.Safe u ∧ p.2.Safe u
  | logical _ right => right.Safe u
  | choose body orelse => body.Safe u ∧ orelse.Safe u
  | compare _ rest => ∀ p ∈ rest, p.2.Safe u
  | assign targets => ∀ t ∈ targets, t.SafeTarget u
  | store v | storeMember _ v => v.Safe u
  | augmentName _ name current => (name = "input" → u.held) ∧ current.Safe u
  | fetchItem _ value | fetchMember _ _ value => value.Safe u
  | augmentItem _ container index current => container.Safe u ∧ index.Safe u ∧ current.Safe u
  | augmentMember _ object _ current => object.Safe u ∧ current.Safe u
  | branch body orelse => (∀ s ∈ body, s.Safe u around) ∧ ∀ s ∈ orelse, s.Safe u around
  | loop test body => test.Safe u ∧ ∀ s ∈ body, s.Safe u around.loop
  | iterate target body => target.SafeTarget u ∧ ∀ s ∈ body, s.Safe u around.loop
  | define name params body _ =>
    (name = "input" → u.held) ∧ (∀ p ∈ params, p.1 = "input" → u.held)
      ∧ ∀ s ∈ body, s.Safe u .function
  | ret => around.inFunction
  | _ => True

-- A frame on top of others, given what they leave open.
def Frame.Safe (around : Surroundings) : Frame → Prop
  | operands done rest op => op.Taken u done ∧ (∀ e ∈ rest, e.Safe u) ∧ op.Safe u around
  | assign rest => ∀ p ∈ rest, p.1.SafeTarget u ∧ p.2.Safe u
  | block rest => ∀ s ∈ rest, s.Safe u around
  | whileBody test body => test.Safe u ∧ ∀ s ∈ body, s.Safe u around.loop
  | forTarget it target body | forBody it target body =>
    it.Safe u ∧ target.SafeTarget u ∧ ∀ s ∈ body, s.Safe u around.loop
  | call _ => True
  | cell rest => ∀ s ∈ rest, s.Safe u .none

def SafeFrames : List Frame → Prop
  | [] => True
  | frame :: rest => frame.Safe u (surroundings rest) ∧ SafeFrames rest

def Flow.Safe (around : Surroundings) : Flow → Prop
  | normal => True
  | ret v => around.inFunction ∧ v.Safe u
  | breakLoop | continueLoop => around.inLoop

def Outcome.Safe : Outcome → Prop
  | finished _ => True
  | failed f => f.Safe

def Control.Safe (around : Surroundings) : Control → Prop
  | eval e => e.Safe u
  | give v => v.Safe u
  | exec s => s.Safe u around
  | assign pairs => ∀ p ∈ pairs, p.1.SafeTarget u ∧ p.2.Safe u
  | flow f => f.Safe u around
  | waiting .. => True
  | ended o => o.Safe

namespace Machine

-- Everything but what is being done.
structure Grounded (m : Machine) : Prop where
  heap : m.world.heap.Safe u
  frames : SafeFrames u m.frames

structure Safe (m : Machine) : Prop extends Grounded u m where
  control : m.control.Safe u (surroundings m.frames)

end Machine

variable {u}

theorem Operation.Taken.safe {op : Operation} {done : List Value} (h : op.Taken u done)
    (hop : ∀ positional keywords, op ≠ .call positional keywords) : ∀ v ∈ done, v.Safe u := by
  induction done
  case nil => simp
  case cons v done ih =>
    refine List.forall_mem_cons.mpr ⟨h.1.resolve_right ?_, ih h.2⟩
    rintro ⟨hwants, _⟩
    cases op
    case call positional keywords => exact hop positional keywords rfl
    all_goals cases hwants

-- The callee is the value that came first.
theorem Operation.Taken.callee {op : Operation} {callee : Value} {args : List Value}
    (h : op.Taken u (callee :: args).reverse) :
    op.Admits u [] callee ∧ ∀ v ∈ args, v.Safe u := by
  have key (values : List Value) (hvalues : op.Taken u (values ++ [callee])) :
      op.Admits u [] callee ∧ ∀ v ∈ values, v.Safe u := by
    induction values
    case nil => exact ⟨hvalues.1, by simp⟩
    case cons v values ih =>
      obtain ⟨hv, hvalues⟩ := hvalues
      obtain ⟨hcallee, hvalues⟩ := ih hvalues
      refine ⟨hcallee, List.forall_mem_cons.mpr ⟨hv.resolve_right ?_, hvalues⟩⟩
      rintro ⟨hwants, _⟩
      cases op <;> cases values <;> cases hwants
  rw [List.reverse_cons] at h
  simpa only [List.mem_reverse] using key args.reverse h

namespace Machine

variable {m : Machine}

/-! ### Where machines go on -/

namespace Grounded

theorem push (hm : m.Grounded u) (frame : Frame) (hframe : frame.Safe u (surroundings m.frames)) :
    (m.push frame).Grounded u :=
  ⟨hm.heap, hframe, hm.frames⟩

theorem fail (hm : m.Grounded u) {f : Failure} (hf : f.Safe) : (m.fail f).Safe u :=
  ⟨⟨hm.heap, hm.frames⟩, hf⟩

theorem broken (hm : m.Grounded u) : (m.fail .broken).Safe u := hm.fail trivial

theorem raise (hm : m.Grounded u) {kind : ExnKind} (hkind : kind ≠ .syntaxError)
    (message : String) : (m.raise kind message).Safe u :=
  hm.fail hkind

theorem give (hm : m.Grounded u) {v : Value} (hv : v.Safe u) : (m.give v).Safe u :=
  ⟨⟨hm.heap, hm.frames⟩, hv⟩

theorem flow (hm : m.Grounded u) {f : Flow} (hf : f.Safe u (surroundings m.frames)) :
    (m.flow f).Safe u :=
  ⟨⟨hm.heap, hm.frames⟩, hf⟩

theorem normal (hm : m.Grounded u) : (m.flow .normal).Safe u := hm.flow trivial

theorem evaluate (hm : m.Grounded u) {e : Expr} (he : e.Safe u) : (m.evaluate e).Safe u :=
  ⟨⟨hm.heap, hm.frames⟩, he⟩

theorem statement (hm : m.Grounded u) {s : Stmt} (hs : s.Safe u (surroundings m.frames)) :
    Machine.Safe u { m with control := .exec s } :=
  ⟨⟨hm.heap, hm.frames⟩, hs⟩

theorem targets (hm : m.Grounded u) {pairs : List (Expr × Value)}
    (hpairs : ∀ p ∈ pairs, p.1.SafeTarget u ∧ p.2.Safe u) :
    Machine.Safe u { m with control := .assign pairs } :=
  ⟨⟨hm.heap, hm.frames⟩, hpairs⟩

theorem operand (hm : m.Grounded u) {done : List Value} {e : Expr} {rest : List Expr}
    {op : Operation} (hdone : op.Taken u done) (he : e.Safe u) (hrest : ∀ e ∈ rest, e.Safe u)
    (hop : op.Safe u (surroundings m.frames)) : (m.operand done e rest op).Safe u :=
  (hm.push (.operands done rest op) ⟨hdone, hrest, hop⟩).evaluate he

-- The first operand of anything.
theorem first (hm : m.Grounded u) {e : Expr} {rest : List Expr} {op : Operation} (he : e.Safe u)
    (hrest : ∀ e ∈ rest, e.Safe u) (hop : op.Safe u (surroundings m.frames)) :
    (m.operand [] e rest op).Safe u :=
  hm.operand trivial he hrest hop

theorem only (hm : m.Grounded u) {e : Expr} {op : Operation} (he : e.Safe u)
    (hop : op.Safe u (surroundings m.frames)) : (m.operand [] e [] op).Safe u :=
  hm.first he (List.forall_mem_nil _) hop

theorem runBlock (hm : m.Grounded u) {body : List Stmt}
    (hbody : ∀ s ∈ body, s.Safe u (surroundings m.frames)) : (m.runBlock body).Safe u :=
  (hm.push (.block body) hbody).normal

theorem runBody (hm : m.Grounded u) (context : Context) {body : List Stmt}
    (hbody : ∀ s ∈ body, s.Safe u .function) : (m.runBody context body).Safe u :=
  runBlock (m := { m.push (.call m.context) with context }) ⟨hm.heap, trivial, hm.frames⟩ hbody

theorem act {α : Type} {A : α → Prop} {a : Action α} {next : Machine → α → Machine}
    (hm : m.Grounded u) (ha : Action.Keeps u A a)
    (hnext : ∀ x w, A x → Grounded u ⟨m.control, m.frames, m.context, w⟩ →
      (next ⟨m.control, m.frames, m.context, w⟩ x).Safe u) : (m.act a next).Safe u := by
  obtain ⟨control, frames, context, world⟩ := m
  obtain ⟨hheap, hgives⟩ := ha.run world hm.heap
  rw [Machine.act]
  rcases hrun : a.run.run world with ⟨f | x, w⟩
  · rw [hrun] at hheap hgives
    exact ⟨⟨hheap, hm.frames⟩, hgives.safe f rfl⟩
  · rw [hrun] at hheap hgives
    exact hnext x w (hgives.holds x rfl) ⟨hheap, hm.frames⟩

theorem giveBy (hm : m.Grounded u) {a : Action Value} (ha : Action.Keeps u (Value.Safe u) a) :
    (m.giveBy a).Safe u :=
  hm.act ha fun _ _ hv hm => hm.give hv

theorem flowBy (hm : m.Grounded u) {a : Action Unit} (ha : Action.Keeps u (fun _ => True) a) :
    (m.flowBy a).Safe u :=
  hm.act ha fun _ _ _ hm => hm.normal

/-! ### Calls -/

theorem callClosure (hm : m.Grounded u) {c : Closure} {args : Arguments} (hc : c.Safe u)
    (ha : args.Safe u) : (m.callClosure c args).Safe u := by
  refine hm.act (keeps_enter m.context hc ha) fun context w _ hm => ?_
  split
  · exact hm.giveBy (.newCoroutine hc.body)
  · exact hm.runBody context hc.body

theorem callValue (hm : m.Grounded u) {callee : Value} {args : Arguments}
    (hcallee : callee.Safe u ∨ callee = .builtin .input) (ha : args.Safe u) :
    (m.callValue callee args).Safe u := by
  cases callee
  case builtin b =>
    obtain hb | hb := hcallee
    · exact hm.giveBy (Builtins.keeps_call hb ha)
    · cases hb
      exact hm.giveBy (Builtins.keeps_withoutKeywords _ (Builtins.keeps_input ha))
  case method id => exact hm.giveBy (Methods.keeps_call _ ha)
  case closure id => exact hm.callClosure (hm.heap.closure id) ha
  all_goals exact hm.raise (by decide) _

theorem await (hm : m.Grounded u) (v : Value) : (m.await v).Safe u := by
  cases v
  case coroutine id =>
    simp only [Machine.await]
    refine hm.act (.takeWork id) fun work w hwork hm => ?_
    cases work
    case input prompt => exact ⟨⟨hm.heap, hm.frames⟩, trivial⟩
    case body context body => exact hm.runBody context hwork
    case spent => exact hm.raise (by decide) _
  all_goals exact hm.raise (by decide) _

/-! ### Expressions -/

theorem lookup (hm : m.Grounded u) {name : String} {v : Value} (hv : m.lookup name = some v) :
    v.Safe u ∨ name = "input" ∧ v = .builtin .input := by
  obtain hv | ⟨_, hv⟩ := Option.or_eq_some_iff.mp hv
  · exact .inl (hm.heap.binding? hv).2
  · obtain ⟨b, hb, rfl⟩ := Option.map_eq_some_iff.mp hv
    have hname : b.name = name := by simpa using List.find?_some hb
    have hglobal : b ∈ Builtin.global := List.mem_of_find?_eq_some hb
    cases b
    case input => exact .inr ⟨hname.symm, rfl⟩
    case exception kind =>
      refine .inl fun hkind => ?_
      subst hkind
      revert hglobal
      decide
    all_goals exact .inl trivial

theorem undefined (hm : m.Grounded u) (name : String) : (m.undefined name).Safe u :=
  hm.raise (by decide) _

theorem readName (hm : m.Grounded u) {name : String} {next : Machine → Value → Machine}
    (hname : name = "input" → u.held) (hnext : ∀ v, v.Safe u → (next m v).Safe u) :
    (m.readName name next).Safe u := by
  rw [Machine.readName]
  split
  case h_1 v hv =>
    refine hnext v ?_
    obtain hv | ⟨rfl, rfl⟩ := hm.lookup hv
    · exact hv
    · exact hname rfl
  case h_2 => exact hm.undefined name

theorem nextEntry (hm : m.Grounded u) {entries : Entries} {rest : List (Expr × Expr)}
    (hentries : Entries.Safe u entries) (hrest : ∀ p ∈ rest, p.1.Safe u ∧ p.2.Safe u) :
    (m.nextEntry entries rest).Safe u := by
  cases rest with
  | nil => exact hm.giveBy (.newDict hentries)
  | cons p rest =>
    obtain ⟨hp, hrest⟩ := List.forall_mem_cons.mp hrest
    exact hm.first hp.1 (List.forall_mem_singleton.mpr hp.2) ⟨hentries, hrest⟩

-- A call of `input` is another matter where that is no value like others.
theorem eval (hm : m.Grounded u) {e : Expr} (he : e.Safe u) (hcalls : e.calls "input" → u.held) :
    (m.eval e).Safe u := by
  have hoperand : ∀ o ∈ e.form.operands, o.Safe u := fun o ho => he.proper.operand ho
  have hchild : ∀ c ∈ e.form.children, c.Proper u := fun c hc => he.proper.child hc
  rw [Machine.eval]
  cases hform : e.form
  all_goals
    rw [hform] at hoperand hchild
    simp only [ExprForm.operands, ExprForm.children, List.forall_mem_cons] at hoperand hchild
  case name s => exact hm.readName (he.name hform) fun _ hv => hm.give hv
  case int | float | str | bool | none => exact hm.give trivial
  case list items =>
    cases items with
    | nil => exact hm.giveBy (.newList (by simp))
    | cons item items =>
      obtain ⟨hitem, hitems⟩ := List.forall_mem_cons.mp hoperand
      exact hm.first hitem hitems trivial
  case tuple items =>
    cases items with
    | nil => exact hm.giveBy (.newTuple (by simp))
    | cons item items =>
      obtain ⟨hitem, hitems⟩ := List.forall_mem_cons.mp hoperand
      exact hm.first hitem hitems trivial
  case dict entries =>
    refine hm.nextEntry (List.forall_mem_nil _) fun p hp => ?_
    have hmem (o : Expr) (ho : o ∈ [p.1, p.2]) : o.Safe u :=
      hoperand o (List.mem_flatMap.mpr ⟨p, hp, ho⟩)
    exact ⟨hmem p.1 (by simp), hmem p.2 (by simp)⟩
  case binary op left right => exact hm.first hoperand.1 (by simpa using hoperand.2) trivial
  case unary op operand => exact hm.only hoperand.1 trivial
  case logical op left right => exact hm.only hoperand.1 hoperand.2.1
  case compare left rest =>
    obtain ⟨hleft, hrest⟩ := hoperand
    have hrest : ∀ p ∈ rest, p.2.Safe u := fun p hp => hrest p.2 (List.mem_map_of_mem hp)
    cases rest with
    | nil => exact hm.evaluate hleft
    | cons p rest =>
      obtain ⟨hp, hrest⟩ := List.forall_mem_cons.mp hrest
      exact hm.first hleft (List.forall_mem_singleton.mpr hp) hrest
  case conditional test body orelse =>
    exact hm.only hoperand.1 ⟨hoperand.2.1, hoperand.2.2.1⟩
  case call func args keywords =>
    have hfunc : func.isInput → u.held := fun hinput =>
      hcalls (Expr.calls_iff.mpr ⟨func, args, keywords, hform, hinput⟩)
    exact hm.first ⟨hchild.1, hfunc⟩ hoperand trivial
  case member value name => exact hm.only hoperand.1 trivial
  case subscript value index => exact hm.first hoperand.1 (by simpa using hoperand.2) trivial
  case await value => exact hm.only hoperand.1 trivial

/-! ### Statements -/

theorem raiseValue (hm : m.Grounded u) {v : Value} (hv : v.Safe u) : (m.raiseValue v).Safe u := by
  cases v
  case exception id => exact hm.fail (hm.heap.exception id)
  case builtin b =>
    cases b
    case exception kind => exact hm.raise hv _
    all_goals exact hm.raise (by decide) _
  all_goals exact hm.raise (by decide) _

theorem withDefaults {params : List (String × Bool)} {vs : List Value}
    (hparams : ∀ p ∈ params, p.1 = "input" → u.held) (hvs : ∀ v ∈ vs, v.Safe u) :
    ∀ p ∈ Machine.withDefaults params vs, (p.1 = "input" → u.held) ∧ ∀ v ∈ p.2, v.Safe u := by
  fun_induction Machine.withDefaults params vs
  case case1 => simp
  case case2 name params v vs ih =>
    obtain ⟨hname, hparams⟩ := List.forall_mem_cons.mp hparams
    obtain ⟨hv, hvs⟩ := List.forall_mem_cons.mp hvs
    exact List.forall_mem_cons.mpr ⟨⟨hname, by simpa using hv⟩, ih hparams hvs⟩
  case case3 name isGiven params vs _ ih =>
    obtain ⟨hname, hparams⟩ := List.forall_mem_cons.mp hparams
    exact List.forall_mem_cons.mpr ⟨⟨hname, nofun⟩, ih hparams hvs⟩

theorem define (hm : m.Grounded u) {name : String} {params : List (String × Bool)}
    {body : List Stmt} {defaults : List Value} (isAsync : Bool) (hname : name = "input" → u.held)
    (hparams : ∀ p ∈ params, p.1 = "input" → u.held) (hbody : ∀ s ∈ body, s.Safe u .function)
    (hdefaults : ∀ v ∈ defaults, v.Safe u) :
    (m.define name params body isAsync defaults).Safe u :=
  hm.flowBy (.bind (.newClosure ⟨withDefaults hparams hdefaults, hbody⟩) fun _ hv =>
    .bindName _ hname hv)

theorem nextItem (hm : m.Grounded u) {it : Iteration} {target : Expr} {body : List Stmt}
    (hit : it.Safe u) (htarget : target.SafeTarget u)
    (hbody : ∀ s ∈ body, s.Safe u (surroundings m.frames).loop) :
    (m.nextItem it target body).Safe u := by
  rw [Machine.nextItem]
  split
  case h_1 => exact hm.normal
  case h_2 v rest hnext =>
    obtain ⟨hv, hrest⟩ := hm.heap.next? hit hnext
    exact (hm.push (.forTarget rest target body) ⟨hrest, htarget, hbody⟩).targets
      (List.forall_mem_singleton.mpr ⟨htarget, hv⟩)

theorem test (hm : m.Grounded u) {e : Expr} {body : List Stmt} (he : e.Safe u)
    (hbody : ∀ s ∈ body, s.Safe u (surroundings m.frames).loop) : (m.test e body).Safe u :=
  hm.only he ⟨he, hbody⟩

theorem augment (hm : m.Grounded u) {target value : Expr} (op : BinaryOp) (htarget : target.Safe u)
    (hplace : target.isPlace) (hvalue : value.Safe u) : (m.augment target op value).Safe u := by
  have hoperand : ∀ o ∈ target.form.operands, o.Safe u := fun o ho => htarget.proper.operand ho
  rw [Expr.isPlace] at hplace
  rw [Machine.augment]
  cases hform : target.form
  all_goals rw [hform] at hoperand hplace
  case name s =>
    exact hm.readName (htarget.name hform) fun v hv => hm.only hvalue ⟨htarget.name hform, hv⟩
  case subscript container index =>
    exact hm.first (hoperand _ (by simp [ExprForm.operands, ExprForm.children]))
      (List.forall_mem_singleton.mpr (hoperand _ (by simp [ExprForm.operands, ExprForm.children])))
      hvalue
  case member object name =>
    exact hm.only (hoperand _ (by simp [ExprForm.operands, ExprForm.children])) hvalue
  all_goals cases hplace

theorem exec (hm : m.Grounded u) {s : Stmt} (hs : s.Safe u (surroundings m.frames)) :
    (m.exec s).Safe u := by
  have hexpr : ∀ e ∈ s.form.exprs, e.Safe u := fun e he => hs.expr he
  have hstmt := fun t (ht : t ∈ s.form.stmts) => hs.stmt ht
  have hplaced := hs.stray?_form
  have hregular := hs.regular
  have hbinders := hs.binders
  rw [Machine.exec]
  cases hform : s.form
  all_goals rw [hform] at hexpr hstmt hplaced hregular hbinders
  case expr e => exact hm.only (hexpr e (by simp [StmtForm.exprs])) trivial
  case assign targets value =>
    exact hm.only (hexpr value (by simp [StmtForm.exprs])) (hs.targets hform)
  case augAssign target op value =>
    exact hm.augment op (hexpr target (by simp [StmtForm.exprs])) hregular
      (hexpr value (by simp [StmtForm.exprs]))
  case ifElse test body orelse =>
    refine hm.only (hexpr test (by simp [StmtForm.exprs])) ⟨fun t ht => ?_, fun t ht => ?_⟩
    · exact hstmt t (List.mem_append_left _ ht)
    · exact hstmt t (List.mem_append_right _ ht)
  case whileLoop test body => exact hm.test (hexpr test (by simp [StmtForm.exprs])) hstmt
  case forEach target iter body =>
    exact hm.only (hexpr iter (by simp [StmtForm.exprs])) ⟨hs.loopTarget hform, hstmt⟩
  case define name params body isAsync =>
    have hname : name = "input" → u.held := fun h => hbinders (h ▸ List.mem_cons_self)
    have hparams : ∀ p ∈ params.map fun p => (p.name, p.default?.isSome),
        p.1 = "input" → u.held := by
      intro p hp heq
      obtain ⟨q, hq, rfl⟩ := List.mem_map.mp hp
      exact hbinders (List.mem_cons_of_mem _ (List.mem_map.mpr ⟨q, hq, heq⟩))
    have hdefaults : ∀ e ∈ params.filterMap (·.default?), e.Safe u := hexpr
    dsimp only
    split
    case h_1 => exact hm.define isAsync hname hparams hstmt (List.forall_mem_nil _)
    case h_2 e rest heq =>
      rw [heq] at hdefaults
      obtain ⟨he, hrest⟩ := List.forall_mem_cons.mp hdefaults
      exact hm.first he hrest ⟨hname, hparams, hstmt⟩
  case ret value =>
    have hin : (surroundings m.frames).inFunction = true := by
      simpa [StmtForm.stray?] using hplaced
    cases value with
    | none => exact hm.flow ⟨hin, trivial⟩
    | some e => exact hm.only (hexpr e (by simp [StmtForm.exprs])) hin
  case raise exc =>
    cases exc with
    | none => exact hm.raise (by decide) _
    | some e => exact hm.only (hexpr e (by simp [StmtForm.exprs])) trivial
  case imports names => exact hm.flowBy (Libraries.keeps_importAll _ hbinders)
  case importFrom path names => exact hm.flowBy (Libraries.keeps_importMembers _ path hbinders)
  case pass => exact hm.normal
  case breakLoop =>
    have hin : (surroundings m.frames).inLoop = true := by simpa [StmtForm.stray?] using hplaced
    exact hm.flow hin
  case continueLoop =>
    have hin : (surroundings m.frames).inLoop = true := by simpa [StmtForm.stray?] using hplaced
    exact hm.flow hin

theorem assign (hm : m.Grounded u) {pairs : List (Expr × Value)}
    (hpairs : ∀ p ∈ pairs, p.1.SafeTarget u ∧ p.2.Safe u) : (m.assign pairs).Safe u := by
  cases pairs
  case nil => exact hm.normal
  case cons p rest =>
    obtain ⟨⟨htarget, hv⟩, hrest⟩ := List.forall_mem_cons.mp hpairs
    obtain ⟨target, v⟩ := p
    have hoperand : ∀ o ∈ target.form.operands, o.Safe u :=
      fun o ho => htarget.safe.proper.operand ho
    have hitems (items : List Expr) (h : target.form = .tuple items ∨ target.form = .list items) :
        ∀ i ∈ items, i.SafeTarget u :=
      htarget.item h
    have hassignable := htarget.assignable
    have hunpack (targets : List Expr) (htargets : ∀ t ∈ targets, t.SafeTarget u) :
        (m.act (.look fun h => Operators.unpack h v targets.length) fun m items =>
          { m with control := .assign (targets.zip items ++ rest) }).Safe u := by
      refine hm.act (.look fun h hh => hh.gives_unpack v _) fun items w hvalues hm => hm.targets ?_
      intro p hp
      obtain hp | hp := List.mem_append.mp hp
      · exact ⟨htargets _ (List.of_mem_zip hp).1, hvalues _ (List.of_mem_zip hp).2⟩
      · exact hrest p hp
    rw [Machine.assign]
    cases hform : target.form
    all_goals rw [hform] at hoperand hitems
    case name s =>
      exact hm.act (.bindName _ (htarget.safe.name hform) hv) fun _ _ _ hm => hm.targets hrest
    case tuple targets => exact hunpack targets (hitems targets (.inl rfl))
    case list targets => exact hunpack targets (hitems targets (.inr rfl))
    case subscript container index =>
      refine (hm.push (.assign rest) hrest).first (hoperand _ ?_)
        (List.forall_mem_singleton.mpr (hoperand _ ?_)) hv
      all_goals simp [ExprForm.operands, ExprForm.children]
    case member object name =>
      exact (hm.push (.assign rest) hrest).only
        (hoperand _ (by simp [ExprForm.operands, ExprForm.children])) hv
    all_goals
      obtain ⟨info, form⟩ := target
      obtain rfl : form = _ := hform
      simp [Expr.unassignable?] at hassignable

/-! ### Operations -/

theorem performOne (hm : m.Grounded u) {v : Value} {op : Operation} (hv : v.Safe u)
    (hop : op.Safe u (surroundings m.frames)) : (m.performOne v op).Safe u := by
  cases op
  case unary op => exact hm.giveBy (Operators.keeps_unary op v)
  case member name => exact hm.giveBy (Operators.keeps_getMember hv name)
  case await => exact hm.await v
  case logical op right =>
    simp only [Machine.performOne]
    split
    · exact hm.give hv
    · exact hm.evaluate hop
  case choose body orelse =>
    simp only [Machine.performOne]
    split
    · exact hm.evaluate hop.1
    · exact hm.evaluate hop.2
  case discard => exact hm.normal
  case assign targets =>
    refine hm.targets fun p hp => ?_
    obtain ⟨t, ht, rfl⟩ := List.mem_map.mp hp
    exact ⟨hop t ht, hv⟩
  case storeMember name w => exact hm.flowBy (Operators.keeps_setMember v name hop)
  case augmentName op name current =>
    exact hm.flowBy (.bind (Operators.keeps_augmented op hop.2 v) fun _ hw =>
      .bindName _ hop.1 hw)
  case augmentItem op container index current =>
    exact hm.flowBy (.bind (Operators.keeps_augmented op hop.2.2 v) fun _ hw =>
      Operators.keeps_setItem container hop.2.1 hw)
  case fetchMember op name value =>
    simp only [Machine.performOne]
    exact hm.act (Operators.keeps_getMember hv name) fun current _ hcurrent hm =>
      hm.only hop ⟨hv, hcurrent⟩
  case augmentMember op object name current =>
    exact hm.flowBy (.bind (Operators.keeps_augmented op hop.2 v) fun _ hw =>
      Operators.keeps_setMember object name hw)
  case branch body orelse =>
    simp only [Machine.performOne]
    split
    · exact hm.runBlock hop.1
    · exact hm.runBlock hop.2
  case loop e body =>
    simp only [Machine.performOne]
    split
    · exact (hm.push (.whileBody e body) hop).runBlock hop.2
    · exact hm.normal
  case iterate target body =>
    simp only [Machine.performOne]
    exact hm.act (.look fun h hh => hh.gives_of v) fun it _ hit hm => hm.nextItem hit hop.1 hop.2
  case ret => exact hm.flow ⟨hop, hv⟩
  case raise => exact hm.raiseValue hv
  all_goals exact hm.broken

theorem performTwo (hm : m.Grounded u) {v w : Value} {op : Operation} (hv : v.Safe u)
    (hw : w.Safe u) (hop : op.Safe u (surroundings m.frames)) : (m.performTwo v w op).Safe u := by
  cases op
  case binary op => exact hm.giveBy (Operators.keeps_binary op v w)
  case subscript => exact hm.giveBy (.look fun h hh => hh.gives_getItem v w)
  case entry entries rest =>
    simp only [Machine.performTwo]
    exact hm.act (.look fun h _ => gives_insertKey hop.1 hv hw) fun entries _ hentries hm =>
      hm.nextEntry hentries hop.2
  case compare op rest =>
    simp only [Machine.performTwo]
    refine hm.act (.look fun h _ => Operators.safe_compare h op v w) fun holds _ _ hm => ?_
    split
    · exact hm.give trivial
    · exact hm.give trivial
    · obtain ⟨hp, hrest⟩ := List.forall_mem_cons.mp hop
      exact hm.operand ⟨.inl hw, trivial⟩ hp (List.forall_mem_nil _) hrest
  case store x => exact hm.flowBy (Operators.keeps_setItem v hw hop)
  case fetchItem op value =>
    simp only [Machine.performTwo]
    exact hm.act (.look fun h hh => hh.gives_getItem v w) fun current _ hcurrent hm =>
      hm.only hop ⟨hv, hw, hcurrent⟩
  all_goals exact hm.broken

theorem performCall (hm : m.Grounded u) (positional : Nat) (keywords : List String)
    {callee : Value} {args : List Value} (hcallee : callee.Safe u ∨ callee = .builtin .input)
    (hargs : ∀ v ∈ args, v.Safe u) : (m.performCall positional keywords callee args).Safe u := by
  refine hm.callValue hcallee ⟨fun v hv => hargs v (List.mem_of_mem_take hv), fun p hp => ?_⟩
  exact hargs p.2 (List.mem_of_mem_drop (List.of_mem_zip hp).2)

theorem perform (hm : m.Grounded u) {values : List Value} {op : Operation}
    (hvalues : op.Taken u values.reverse) (hop : op.Safe u (surroundings m.frames)) :
    (m.perform values op).Safe u := by
  have hsafe (hcall : ∀ positional keywords, op ≠ .call positional keywords) :
      ∀ v ∈ values, v.Safe u :=
    fun v hv => hvalues.safe hcall v (List.mem_reverse.mpr hv)
  cases op
  case list => exact hm.giveBy (.listOf (hsafe nofun))
  case tuple => exact hm.giveBy (.newTuple (by simpa using hsafe nofun))
  case call positional keywords =>
    match values with
    | [] => exact hm.broken
    | callee :: args =>
      obtain ⟨hcallee, hargs⟩ := hvalues.callee
      exact hm.performCall positional keywords (hcallee.imp_right And.right) hargs
  case define name params body isAsync =>
    exact hm.define isAsync hop.1 hop.2.1 hop.2.2 (hsafe nofun)
  all_goals
    have hsafe := hsafe nofun
    match values with
    | [] => exact hm.broken
    | [v] => exact hm.performOne (hsafe v (by simp)) hop
    | [v, w] => exact hm.performTwo (hsafe v (by simp)) (hsafe w (by simp)) hop
    | _ :: _ :: _ :: _ => exact hm.broken

/-! ### Steps -/

theorem nextStmt (hm : m.Grounded u) {stmts : List Stmt} (hstmts : ∀ s ∈ stmts, s.Safe u .none) :
    (m.nextStmt stmts).Safe u := by
  cases stmts
  case nil => exact ⟨⟨hm.heap, hm.frames⟩, trivial⟩
  case cons s rest =>
    obtain ⟨hs, hrest⟩ := List.forall_mem_cons.mp hstmts
    have hm := hm.push (.cell rest) hrest
    simp only [Machine.nextStmt]
    cases hform : s.form
    case expr e => exact hm.evaluate (hs.expr (by simp [hform, StmtForm.exprs]))
    all_goals exact hm.statement hs

-- The frame on top has been taken off.
theorem giveTo (hm : m.Grounded u) {v : Value} {frame : Frame}
    (hframe : frame.Safe u (surroundings m.frames)) (hv : v.Safe u) :
    (m.giveTo v frame).Safe u := by
  cases frame
  case operands done rest op =>
    obtain ⟨hdone, hrest, hop⟩ := hframe
    have htaken : op.Taken u (v :: done) := ⟨.inl hv, hdone⟩
    cases rest with
    | nil => exact hm.perform (by rwa [List.reverse_reverse]) hop
    | cons e rest =>
      obtain ⟨he, hrest⟩ := List.forall_mem_cons.mp hrest
      exact hm.operand htaken he hrest hop
  case cell rest =>
    cases rest with
    | nil => exact ⟨⟨hm.heap, hm.frames⟩, trivial⟩
    | cons s rest => exact hm.nextStmt hframe
  all_goals exact hm.broken

theorem flowTo (hm : m.Grounded u) {f : Flow} {frame : Frame}
    (hframe : frame.Safe u (surroundings m.frames))
    (hf : f.Safe u (surroundings (frame :: m.frames))) : (m.flowTo f frame).Safe u := by
  cases frame
  case operands => exact hm.broken
  case assign rest => exact hm.targets hframe
  case block rest =>
    cases f
    case normal =>
      cases rest with
      | nil => exact hm.normal
      | cons s rest =>
        obtain ⟨hs, hrest⟩ := List.forall_mem_cons.mp hframe
        exact (hm.push (.block rest) hrest).statement hs
    all_goals cases rest <;> exact hm.flow hf
  case whileBody e body =>
    cases f
    case normal | continueLoop => exact hm.test hframe.1 hframe.2
    case breakLoop => exact hm.normal
    case ret v => exact hm.flow hf
  case forTarget it target body =>
    exact (hm.push (.forBody it target body) hframe).runBlock hframe.2.2
  case forBody it target body =>
    cases f
    case normal | continueLoop => exact hm.nextItem hframe.1 hframe.2.1 hframe.2.2
    case breakLoop => exact hm.normal
    case ret v => exact hm.flow hf
  case call caller =>
    have hm : Grounded u { m with context := caller } := ⟨hm.heap, hm.frames⟩
    cases f
    case normal => exact hm.give trivial
    case ret v => exact hm.give hf.2
    all_goals cases hf
  case cell rest =>
    cases f
    case normal => exact hm.nextStmt hframe
    case ret v => cases hf.1
    all_goals cases hf

end Grounded

namespace Safe

-- Where `input` is no value like others, the evaluation of its calls is left out.
theorem step_of (hm : m.Safe u) (hcalls : ∀ e, m.control = .eval e → e.calls "input" → u.held) :
    m.step.Safe u := by
  obtain ⟨control, frames, context, world⟩ := m
  have hground := hm.toGrounded
  have hcontrol := hm.control
  cases control
  case eval e => exact hground.eval hcontrol (hcalls e rfl)
  case exec s => exact hground.exec hcontrol
  case assign pairs => exact hground.assign hcontrol
  case give v =>
    cases frames with
    | nil => exact hground.broken
    | cons frame frames =>
      exact Grounded.giveTo (m := ⟨.give v, frames, context, world⟩) ⟨hm.heap, hm.frames.2⟩
        hm.frames.1 hcontrol
  case flow f =>
    cases frames with
    | nil => exact hground.broken
    | cons frame frames =>
      exact Grounded.flowTo (m := ⟨.flow f, frames, context, world⟩) ⟨hm.heap, hm.frames.2⟩
        hm.frames.1 hcontrol
  all_goals exact hm

theorem step (hm : m.Safe .any) : m.step.Safe .any := hm.step_of fun _ _ _ => trivial

theorem run (hm : m.Safe .any) (fuel : Nat) : (m.run fuel).Safe .any := by
  induction fuel generalizing m
  case zero => exact hm
  case succ fuel ih =>
    rw [Machine.run]
    split
    · exact hm
    · exact ih hm.step

theorem answer (hm : m.Safe u) (text : String) : (m.answer text).Safe u := hm.give trivial

end Safe

theorem safe_start {body : List Stmt} (hbody : ∀ s ∈ body, s.Safe u .none) (cell : String)
    {world : World} (hheap : world.heap.Safe u) : (start body cell world).Safe u :=
  ⟨⟨hheap, hbody, trivial⟩, trivial⟩

end Machine

/-! ### Sources that pass the check -/

theorem Cell.regular_of_parse {source : String} {c : Cell} (h : parse source = .ok c) :
    ∀ s ∈ c.body, s.All fun _ form => form.Regular := fun s hs =>
  Stmt.All.imp ((writable_of_parse h).regular s hs) fun _ _ hregular => hregular.1

theorem Cell.safe_of_parse {source : String} {c : Cell} (h : parse source = .ok c)
    (hs : c.stray? = none) : ∀ s ∈ c.body, s.Safe .any .none :=
  fun s hmem => Stmt.safe_any (regular_of_parse h s hmem) (List.findSome?_eq_none_iff.mp hs s hmem)

theorem safe_of_runnable {source : String} {body : List Stmt} (h : runnable source = .ok body) :
    ∀ s ∈ body, s.Safe .any .none := by
  rw [runnable] at h
  split at h
  case h_1 => cases h
  case h_2 c hparse =>
    split at h
    case h_1 => cases h
    case h_2 hstray =>
      cases h
      exact Cell.safe_of_parse hparse hstray

/-! ### Machines -/

namespace Machine

variable {u : Usage} {m m' : Machine}

-- Whether a machine has come upon a statement that has nothing to leave, or upon a target that
-- cannot be assigned to.
def isMisplaced (m : Machine) : Bool :=
  match m.control, m.frames with
  | .flow (.ret _), .cell _ :: _ => true
  | .flow .breakLoop, .cell _ :: _ | .flow .breakLoop, .call _ :: _ => true
  | .flow .continueLoop, .cell _ :: _ | .flow .continueLoop, .call _ :: _ => true
  | .assign ((target, _) :: _), _ =>
    match target.form with
    | .name _ | .tuple _ | .list _ | .subscript .. | .member .. => false
    | _ => true
  | .exec s, _ =>
    match s.form with
    | .augAssign target _ _ => !target.isPlace
    | _ => false
  | _, _ => false

def isSyntaxError (m : Machine) : Bool :=
  match m.control with
  | .ended (.failed (.raised e)) => e.kind = .syntaxError
  | _ => false

-- The next step of such a machine raises.
theorem isSyntaxError_of_isMisplaced (h : m.isMisplaced) : m.step.isSyntaxError := by
  obtain ⟨control, frames, context, world⟩ := m
  cases control
  case exec s =>
    simp only [isMisplaced] at h
    simp only [step, exec]
    cases hform : s.form <;> simp only [hform, Bool.false_eq_true] at h
    case augAssign target op value =>
      simp only [Expr.isPlace, augment] at h ⊢
      cases htarget : target.form <;> first | rfl | simp [htarget] at h
  case assign pairs =>
    cases pairs with
    | nil => cases h
    | cons p rest =>
      simp only [isMisplaced] at h
      simp only [step, assign]
      cases hform : p.1.form <;> first | rfl | simp [hform] at h
  case flow f =>
    cases frames with
    | nil => cases f <;> cases h
    | cons frame frames => cases f <;> cases frame <;> first | rfl | cases h
  all_goals cases h

theorem Safe.not_isSyntaxError (hm : m.Safe u) : m.isSyntaxError = false := by
  obtain ⟨control, frames, context, world⟩ := m
  match control, hm.control with
  | .ended (.failed (.raised e)), hkind => exact decide_eq_false hkind
  | .ended (.failed .broken), _ | .ended (.finished _), _ | .eval _, _ | .give _, _ | .exec _, _
  | .assign _, _ | .flow _, _ | .waiting .., _ => rfl

theorem Safe.not_isMisplaced (hm : m.Safe .any) : m.isMisplaced = false := by
  by_contra hmis
  have hraises := isSyntaxError_of_isMisplaced (Bool.eq_true_of_not_eq_false hmis)
  rw [hm.step.not_isSyntaxError] at hraises
  cases hraises

end Machine

/-! ### Sessions -/

namespace Session

variable {s : Session} {cells : List String} {c : String} {m : Machine}

theorem safe_invariant : Invariant (·.Safe .any) (·.Safe .any) where
  empty := Heap.safe_empty
  start c _ hbody hheap := Machine.safe_start (safe_of_runnable hbody) c hheap
  step hm := hm.step
  answer text hm := hm.answer text
  drained hm := ⟨⟨hm.heap, hm.frames⟩, hm.control⟩
  heap hm := hm.heap

-- A cell that passes the check never comes to raise such an exception, nor to where one is raised.
theorem checked_never_misplaced {source : String} {cell : Cell} (hs : Reached cells s)
    (hparse : parse source = .ok cell) (hcheck : cell.stray? = none)
    (hm : (Machine.start cell.body c ⟨s.heap, [], s.hasHost⟩).Reaches m) :
    m.isMisplaced = false ∧ m.isSyntaxError = false := by
  have hstart : (Machine.start cell.body c ⟨s.heap, [], s.hasHost⟩).Safe .any :=
    Machine.safe_start (Cell.safe_of_parse hparse hcheck) c (safe_invariant.reached hs).1
  have hm := safe_invariant.reaches hstart hm
  exact ⟨hm.not_isMisplaced, hm.not_isSyntaxError⟩

-- A loop is left after a coroutine of an earlier cell, which returns out of a loop of its own.
theorem checked_never_misplaced_carried :
    ∃ s cell, Reached ["c1"] s
      ∧ parse "while True:\n    x = await co\n    break" = .ok cell ∧ cell.stray? = none
      ∧ let m := (Machine.start cell.body "c2" ⟨s.heap, [], s.hasHost⟩).run 200
        m.isMisplaced = false ∧ m.isSyntaxError = false := by
  let s₁ := (new true).begun reprFormatter "c1"
    "async def f():\n    while True:\n        return await input('x')\nco = f()"
  let s₂ := (s₁.progress 100 reprFormatter).2
  have hs₁ : Reached ["c1"] s₁ := Reached.begun (.new true) (by decide +kernel)
  have hs₂ : Reached ["c1"] s₂ := hs₁.progress 100 reprFormatter
  have hcheck : (parse "while True:\n    x = await co\n    break").toOption.any
      (fun c => decide (c.stray? = none)) = true := by
    decide +kernel
  cases hparse : parse "while True:\n    x = await co\n    break" with
  | error e =>
    rw [hparse] at hcheck
    cases hcheck
  | ok cell =>
    rw [hparse] at hcheck
    have hcheck := of_decide_eq_true hcheck
    exact ⟨s₂, cell, hs₂, rfl, hcheck,
      checked_never_misplaced hs₂ hparse hcheck (Machine.Reaches.refl.run 200)⟩

-- Nor does a cell in flight, which has passed it.
theorem inFlight_never_misplaced {f : InFlight} (hs : Reached cells s) (hf : s.inFlight = some f)
    (hm : f.machine.Reaches m) : m.isMisplaced = false ∧ m.isSyntaxError = false := by
  have hm := safe_invariant.reaches ((safe_invariant.reached hs).2 f hf) hm
  exact ⟨hm.not_isMisplaced, hm.not_isSyntaxError⟩

end Session
end NoteCell
