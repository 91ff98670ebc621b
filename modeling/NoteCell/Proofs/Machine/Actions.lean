import Mathlib.Data.List.Basic
import NoteCell.Proofs.Machine.Bodies
import NoteCell.Machine.Step

/-!
Actions that are blind to the bodies of functions, to the names of cells and to what was written
before: in worlds that differ in those only, they give and do the same. All operations on values
are.
-/
namespace NoteCell

def World.mapBodies (f : Stmt → Stmt) (w : World) : World := { w with heap := w.heap.mapBodies f }

-- A change of bodies and cells, with what was written before.
structure WorldChange extends BodyChange where
  written : List Effect

-- The bodies are changed only.
def WorldChange.ofStmt (f : Stmt → Stmt) : WorldChange := ⟨.ofStmt f, []⟩

def World.changed (c : WorldChange) (w : World) : World :=
  { w with heap := w.heap.mapWork c.toBodyChange, effects := w.effects ++ c.written }

theorem World.changed_ofStmt (f : Stmt → Stmt) (w : World) :
    w.changed (.ofStmt f) = w.mapBodies f := by
  rw [changed, mapBodies, WorldChange.ofStmt, Heap.mapWork_ofStmt, List.append_nil]

namespace Action

variable {α β : Type}

-- The second action does in a changed world what the first does without the change, and gives what
-- becomes of its value.
structure Follows (c : WorldChange) (φ : α → β) (a : Action α) (b : Action β) : Prop where
  run_changed : ∀ w,
    b.run.run (w.changed c) = ((a.run.run w).1.map φ, (a.run.run w).2.changed c)

structure Blind (a : Action α) : Prop where
  follows : ∀ c, Follows c id a a

theorem run_bind (a : Action α) (k : α → Action β) (w : World) :
    (a >>= k).run.run w = match a.run.run w with
      | (.ok x, w) => (k x).run.run w
      | (.error e, w) => (.error e, w) := by
  simp only [ExceptT.run_bind, StateT.run_bind]
  rcases a.run.run w with ⟨_ | _, _⟩ <;> rfl

theorem run_lift_bind (x : α) (k : α → Action β) (w : World) :
    (lift (.ok x) >>= k).run.run w = (k x).run.run w := rfl

theorem run_heap_bind (k : Heap → Action β) (w : World) :
    (heap >>= k).run.run w = (k w.heap).run.run w := rfl

theorem run_lift_map (a : Attempt α) (f : α → β) (w : World) :
    (do return f (← lift a) : Action β).run.run w = (a.map f, w) := by
  cases a <;> rfl

theorem Follows.bind {α' β' : Type} {c : WorldChange} {φ : α → α'} {ψ : β → β'} {a : Action α}
    {a' : Action α'} {k : α → Action β} {k' : α' → Action β'} (ha : Follows c φ a a')
    (hk : ∀ x, Follows c ψ (k x) (k' (φ x))) : Follows c ψ (a >>= k) (a' >>= k') := by
  constructor
  intro w
  rw [run_bind, run_bind, ha.run_changed]
  rcases a.run.run w with ⟨_ | x, w⟩
  · rfl
  · exact (hk x).run_changed w

theorem run_make (g : Heap → α × Heap) (w : World) :
    (make g).run.run w = (.ok (g w.heap).1, { w with heap := (g w.heap).2 }) := rfl

theorem run_change (g : Heap → Heap) (w : World) :
    (change g).run.run w = (.ok (), { w with heap := g w.heap }) := rfl

theorem Follows.make {c : WorldChange} {φ : α → β} {g : Heap → α × Heap} {g' : Heap → β × Heap}
    (hg : ∀ h, g' (h.mapWork c.toBodyChange) = (φ (g h).1, (g h).2.mapWork c.toBodyChange)) :
    Follows c φ (make g) (make g') := by
  constructor
  intro w
  rw [run_make, run_make, World.changed, hg]
  rfl

namespace Blind

theorem lift (attempt : Attempt α) : Blind (lift attempt) :=
  ⟨fun _ => ⟨fun _ => by cases attempt <;> rfl⟩⟩

theorem pure (x : α) : Blind (pure x) := ⟨fun _ => ⟨fun _ => rfl⟩⟩

theorem bind {a : Action α} {k : α → Action β} (ha : Blind a) (hk : ∀ x, Blind (k x)) :
    Blind (a >>= k) :=
  ⟨fun c => (ha.follows c).bind fun x => (hk x).follows c⟩

-- The world is asked for its host only.
theorem getThen {k : World → Action α} (hk : ∀ w, Blind (k w))
    (hsame : ∀ w w', w'.hasHost = w.hasHost → k w' = k w) : Blind (get >>= k) := by
  refine ⟨fun c => ⟨fun w => ?_⟩⟩
  rw [run_bind, run_bind]
  change (k (w.changed c)).run.run (w.changed c) = _
  rw [hsame w (w.changed c) rfl]
  exact ((hk w).follows c).run_changed w

theorem heapThen {k : Heap → Action α} (hk : ∀ h, Blind (k h))
    (hsame : ∀ f h, k (h.mapWork f) = k h) : Blind (heap >>= k) := by
  refine ⟨fun c => ⟨fun w => ?_⟩⟩
  rw [run_bind, run_bind]
  change (k (w.heap.mapWork c.toBodyChange)).run.run (w.changed c) = _
  rw [hsame]
  exact ((hk w.heap).follows c).run_changed w

theorem look {g : Heap → Attempt α} (hsame : ∀ f h, g (h.mapWork f) = g h) : Blind (look g) :=
  heapThen (fun _ => .lift _) fun f h => congrArg Action.lift (hsame f h)

theorem change {g : Heap → Heap} (hg : ∀ f h, g (h.mapWork f) = (g h).mapWork f) :
    Blind (change g) := by
  refine ⟨fun c => ⟨fun w => ?_⟩⟩
  rw [run_change, run_change, World.changed, hg]
  rfl

theorem make {g : Heap → α × Heap}
    (hg : ∀ f h, g (h.mapWork f) = ((g h).1, (g h).2.mapWork f)) : Blind (make g) :=
  ⟨fun c => .make (hg c.toBodyChange)⟩

theorem emit (e : Effect) : Blind (emit e) := ⟨fun _ => ⟨fun _ => rfl⟩⟩

theorem forM {as : List α} {k : α → Action PUnit} (hk : ∀ a ∈ as, Blind (k a)) :
    Blind (as.forM k) := by
  induction as
  case nil => exact .pure _
  case cons a as ih =>
    obtain ⟨ha, has⟩ := List.forall_mem_cons.mp hk
    exact .bind ha fun _ => ih has

theorem newScope (s : Scope) : Blind (newScope s) := .make fun _ _ => rfl

theorem bindName (scope : Nat) (name : String) (v : Value) : Blind (Action.bind scope name v) :=
  .change fun _ _ => rfl

end Blind

/-! ### Bodies -/

theorem follows_newClosure (c : WorldChange) (f : Closure) :
    Follows c id (newClosure f) (newClosure (f.mapBody c.stmt)) := by
  apply Follows.make
  intro h
  simp [Heap.mapWork]

theorem follows_newCoroutine (c : WorldChange) (co : Coroutine) :
    Follows c id (newCoroutine co) (newCoroutine (co.mapWork c.toBodyChange)) := by
  apply Follows.make
  intro h
  simp [Heap.mapWork]

theorem follows_takeWork (c : WorldChange) (id : Nat) :
    Follows c (Work.mapWork c.toBodyChange) (takeWork id) (takeWork id) := by
  apply Follows.make
  intro h
  rw [Heap.coroutine_mapWork]
  have hspent : (h.coroutines.map (Coroutine.mapWork c.toBodyChange)).modify id
        (fun co => { co with work := .spent })
      = (h.coroutines.modify id fun co => { co with work := .spent }).map
        (Coroutine.mapWork c.toBodyChange) := by
    apply Array.ext
    · simp
    · intro i _ _
      simp only [Array.getElem_modify, Array.getElem_map]
      split <;> rfl
  simp [Heap.mapWork, Coroutine.mapWork, hspent]

/-! ### Plain actions -/

-- What operations on values are made of. They change no bindings, start no coroutine and make no
-- function. What they see of the heap is neither the bodies of functions nor the names of cells, and
-- of the world they see the host besides.
inductive Plain : {α : Type} → Action α → Prop where
  | pure {α : Type} (x : α) : Plain (Pure.pure x)
  | lift {α : Type} (attempt : Attempt α) : Plain (Action.lift attempt)
  | bind {α β : Type} {a : Action α} {k : α → Action β} (ha : Plain a) (hk : ∀ x, Plain (k x)) :
    Plain (a >>= k)
  | getThen {α : Type} {k : World → Action α} (hk : ∀ w, Plain (k w))
    (hsame : ∀ w w', w'.hasHost = w.hasHost → k w' = k w) : Plain (get >>= k)
  | heapThen {α : Type} {k : Heap → Action α} (hk : ∀ h, Plain (k h))
    (hsame : ∀ f h, k (h.mapWork f) = k h) : Plain (heap >>= k)
  | emit (e : Effect) : Plain (Action.emit e)
  | newList (items : Array Value) : Plain (Action.newList items)
  | newTuple (items : Array Value) : Plain (Action.newTuple items)
  | newDict (entries : Entries) : Plain (Action.newDict entries)
  | newMethod (m : BoundMethod) : Plain (Action.newMethod m)
  | newLibrary (l : Library) : Plain (Action.newLibrary l)
  | newException (e : Exn) : Plain (Action.newException e)
  | newInput (name prompt : String) : Plain (newCoroutine ⟨name, .input prompt⟩)
  | changeList (id : Nat) (g : Array Value → Array Value) : Plain (Action.changeList id g)
  | setDict (id : Nat) (entries : Entries) : Plain (Action.setDict id entries)
  | setMember (id : Nat) (name : String) (v : Value) : Plain (Action.setMember id name v)

namespace Plain

theorem blind {a : Action α} (ha : Plain a) : Blind a := by
  induction ha
  case pure x => exact .pure x
  case lift attempt => exact .lift attempt
  case bind ha hk => exact .bind ha hk
  case getThen hsame hk => exact .getThen hk hsame
  case heapThen hsame hk => exact .heapThen hk hsame
  case emit e => exact ⟨fun _ => ⟨fun _ => rfl⟩⟩
  case newInput name prompt => exact ⟨fun f => follows_newCoroutine f _⟩
  case changeList | setDict | setMember => exact .change fun _ _ => rfl
  all_goals exact .make fun _ _ => rfl

theorem follows {a : Action α} (ha : Plain a) (c : WorldChange) : Follows c id a a :=
  ha.blind.follows c

theorem look {g : Heap → Attempt α} (hsame : ∀ f h, g (h.mapWork f) = g h) : Plain (look g) :=
  heapThen (fun _ => .lift _) fun f h => congrArg Action.lift (hsame f h)

theorem typeName (v : Value) : Plain (typeName v) :=
  heapThen (fun _ => .pure _) fun f h => by simp

theorem mapM {as : List α} {k : α → Action β} (hk : ∀ a ∈ as, Plain (k a)) :
    Plain (as.mapM k) := by
  induction as
  case nil => exact .pure _
  case cons a as ih =>
    obtain ⟨ha, has⟩ := List.forall_mem_cons.mp hk
    rw [List.mapM_cons]
    exact .bind ha fun _ => .bind (ih has) fun _ => .pure _

end Plain
end Action

open NoteCell.Action

/-! ### Operators -/

namespace Operators

variable {α : Type}

theorem plain_unsupported (op : BinaryOp) (a b : Value) : Plain (unsupported op a b : Action α) :=
  .bind (.typeName a) fun _ => .bind (.typeName b) fun _ => .lift _

theorem plain_noConcatenation (kind : String) (b : Value) :
    Plain (noConcatenation kind b : Action α) :=
  .bind (.typeName b) fun _ => .lift _

theorem plain_noMember (v : Value) (name : String) : Plain (noMember v name : Action α) :=
  .bind (.typeName v) fun _ => .lift _

theorem plain_arithmetic (op : BinaryOp) (x y : Number) : Plain (arithmetic op x y) :=
  .bind (.lift _) fun _ => .pure _

theorem plain_add (a b : Value) : Plain (add a b) := by
  refine .heapThen (fun h => ?_) fun f h => by simp
  split
  · exact .pure _
  · exact plain_noConcatenation _ b
  · exact .newList _
  · exact plain_noConcatenation _ b
  · exact .newTuple _
  · exact plain_unsupported _ a b

theorem plain_of_repeat? {v : Value} {count : Int64} {a : Action Value}
    (h : repeat? v count = some a) : Plain a := by
  cases v <;> simp only [repeat?, Option.some.injEq, reduceCtorEq] at h <;> subst h
  case str => exact .bind (.lift _) fun _ => .pure _
  case list => exact .bind (.look fun f h => by simp) fun _ => .newList _
  case tuple => exact .bind (.look fun f h => by simp) fun _ => .newTuple _

theorem plain_multiply (a b : Value) : Plain (multiply a b) := by
  rw [multiply]
  split
  case h_1 act _ hact =>
    obtain ⟨count, _, hact⟩ := Option.bind_eq_some_iff.mp hact
    exact plain_of_repeat? hact
  case h_2 act _ hact =>
    obtain ⟨count, _, hact⟩ := Option.bind_eq_some_iff.mp hact
    exact plain_of_repeat? hact
  case h_3 => exact plain_unsupported _ a b

theorem plain_binary (op : BinaryOp) (a b : Value) : Plain (binary op a b) := by
  delta binary
  split
  · exact plain_arithmetic op _ _
  · split
    · exact plain_add a b
    · exact plain_multiply a b
    · exact plain_unsupported _ a b

theorem plain_extendList (id : Nat) (more : List Value) : Plain (extendList id more) :=
  .changeList _ _

theorem plain_augmented (op : BinaryOp) (target value : Value) :
    Plain (augmented op target value) := by
  delta augmented
  split
  · refine .bind (.look fun f h => by simp) fun _ => ?_
    exact .bind (plain_extendList _ _) fun _ => .pure _
  · exact plain_binary op target value

theorem plain_unary (op : UnaryOp) (v : Value) : Plain (unary op v) := by
  delta unary
  split
  · exact .heapThen (fun _ => .pure _) fun f h => by simp
  · exact .bind (.lift _) fun _ => .pure _
  · exact .pure _
  · exact .bind (.typeName v) fun _ => .lift _

theorem plain_setItem (container index v : Value) : Plain (setItem container index v) := by
  refine .heapThen (fun h => ?_) fun f h => by simp
  split
  · refine .bind (.lift _) fun i => ?_
    split
    · exact .changeList _ _
    · exact .lift _
  · exact .bind (.lift _) fun _ => .setDict _ _
  · exact .lift _

theorem plain_getMember (v : Value) (name : String) : Plain (getMember v name) := by
  delta getMember
  split
  · refine .heapThen (fun h => ?_) fun f h => by simp
    dsimp only
    split
    · exact .pure _
    · exact .lift _
  · split
    · exact .newMethod _
    · exact plain_noMember v name

theorem plain_setMember (target : Value) (name : String) (v : Value) :
    Plain (setMember target name v) := by
  rw [setMember.eq_def]
  split
  · exact .setMember _ name v
  · exact plain_noMember target name

end Operators

/-! ### Built-in functions -/

namespace Builtins

theorem plain_round (args : Arguments) : Plain (round args) := by
  refine .bind (.lift _) fun _ => .bind (.lift _) fun given => ?_
  refine .bind (.look fun f h => ?_) fun _ => ?_
  · simp
  · exact .look fun f h => by simp

theorem plain_textKeyword (name default : String) (v : Option Value) :
    Plain (textKeyword name default v) := by
  rw [textKeyword.eq_def]
  split
  · exact .pure _
  · exact .pure _
  · exact .pure _
  · exact .bind (.typeName _) fun _ => .lift _

theorem plain_streamKeyword (v : Option Value) : Plain (streamKeyword v) := by
  rw [streamKeyword.eq_def]
  split
  · exact .pure _
  · exact .pure _
  · exact .pure _
  · exact Operators.plain_noMember _ _

theorem plain_print (args : Arguments) : Plain (print args) := by
  refine .bind (plain_textKeyword _ _ _) fun sep => .bind (plain_textKeyword _ _ _) fun ending => ?_
  refine .bind (plain_streamKeyword _) fun stream => .bind (.lift _) fun _ => ?_
  refine .heapThen (fun h => ?_) fun f h => by simp
  exact .bind (.emit _) fun _ => .pure _

theorem plain_input (args : Arguments) : Plain (input args) := by
  refine .bind (.lift _) fun prompt => .heapThen (fun h => ?_) fun f h => by simp
  exact .newInput _ _

theorem plain_hostText (args : Arguments) : Plain (hostText args) := by
  refine .bind (.lift _) fun v => .getThen (fun w => ?_) fun w w' hhost => by rw [hhost]
  split
  · exact .lift _
  · refine .heapThen (fun h => ?_) fun f h => by simp
    exact .bind (.emit _) fun _ => .pure _

theorem plain_hostImage (args : Arguments) : Plain (hostImage args) := by
  refine .bind (.lift _) fun v => .getThen (fun w => ?_) fun w w' hhost => by rw [hhost]
  split
  · exact .lift _
  · split
    · exact .bind (.emit _) fun _ => .pure _
    · exact .bind (.typeName _) fun _ => .lift _

theorem plain_sumFrom (fuel : Nat) (it : Iteration) (total : Value) :
    Plain (sumFrom fuel it total) := by
  induction fuel generalizing it total
  case zero => exact .pure _
  case succ fuel ih =>
    refine .heapThen (fun h => ?_) fun f h => by simp
    split
    · exact .pure _
    · exact .bind (Operators.plain_binary _ _ _) fun _ => ih _ _

theorem plain_sum (args : Arguments) : Plain (sum args) := by
  refine .bind (.lift _) fun _ => .bind (.lift _) fun given => ?_
  split
  · exact .lift _
  · refine .bind (.look fun f h => by simp) fun it => .heapThen (fun h => ?_) fun f h => by simp
    exact plain_sumFrom _ it _

theorem plain_extremum (name : String) (op : CompareOp) (wanted : Ordering) (args : Arguments) :
    Plain (extremum name op wanted args) := by
  refine .bind (.lift _) fun _ => ?_
  extract_lets choose
  have hchoose : ∀ items, Plain (choose items) := by
    intro items
    dsimp only [choose]
    split
    · exact .look fun f h => by simp
    · exact .pure _
    · exact .lift _
  split
  · exact .bind (.lift _) hchoose
  · exact .bind (.look fun f h => by simp) hchoose
  · exact .bind (.pure _) hchoose

theorem plain_sorted (args : Arguments) : Plain (sorted args) := by
  refine .bind (.lift _) fun _ => .bind (.lift _) fun v => ?_
  refine .heapThen (fun h => ?_) fun f h => by simp
  exact .bind (.lift _) fun _ => .bind (.lift _) fun _ => .newList _

theorem plain_exceptionMessage (kind : ExnKind) (values : List Value) :
    Plain (exceptionMessage kind values) := by
  rw [exceptionMessage.eq_def]
  split
  · exact .pure _
  · exact .heapThen (fun h => .pure _) fun f h => by simp
  · refine .bind (.newTuple _) fun _ => ?_
    exact .heapThen (fun h => .pure _) fun f h => by simp

theorem plain_optional {missing : Action Value} {g : Value → Action Value} (name : String)
    (args : Arguments) (hmissing : Plain missing) (hg : ∀ v, Plain (g v)) :
    Plain (optional name missing g args) := by
  refine .bind (.lift _) fun v => ?_
  split
  · exact hmissing
  · exact hg _

theorem plain_unary {g : Heap → Value → Attempt Value} (name : String) (args : Arguments)
    (hg : ∀ f h, g (h.mapWork f) = g h) : Plain (unary name g args) :=
  .bind (.lift _) fun v => .look fun f h => congrFun (hg f h) v

theorem plain_withoutKeywords {g : Arguments → Action Value} (b : Builtin) (args : Arguments)
    (hg : Plain (g args)) : Plain (withoutKeywords b g args) :=
  .bind (.lift _) fun _ => hg

theorem plain_call (b : Builtin) (args : Arguments) : Plain (call b args) := by
  cases b
  case print => exact plain_print args
  case min | max => exact plain_extremum _ _ _ args
  case sum => exact plain_sum args
  case round => exact plain_round args
  case sorted => exact plain_sorted args
  all_goals apply plain_withoutKeywords
  case input => exact plain_input args
  case len | repr | abs | sqrt | floor | ceil => exact plain_unary _ args fun f h => by simp
  case str =>
    refine plain_optional _ args (.pure _) fun v => ?_
    exact .heapThen (fun h => .pure _) fun f h => by simp
  case int | float =>
    exact plain_optional _ args (.pure _) fun v => .look fun f h => by simp
  case bool =>
    refine plain_optional _ args (.pure _) fun v => ?_
    exact .heapThen (fun h => .pure _) fun f h => by simp
  case list =>
    refine plain_optional _ args (.newList _) fun v => ?_
    exact .bind (.look fun f h => by simp) fun _ => .newList _
  case range => exact .bind (.lift _) fun given => .look fun f h => by simp
  case exception kind => exact .bind (plain_exceptionMessage kind _) fun _ => .newException _
  case hostText => exact plain_hostText args
  case hostImage => exact plain_hostImage args

end Builtins

/-! ### Methods -/

namespace Methods

theorem plain_expectText (method : String) (v : Value) : Plain (expectText method v) := by
  delta expectText
  split
  · exact .pure _
  · exact .bind (.typeName _) fun _ => .lift _

theorem plain_strip (s : List Char) (args : Arguments) : Plain (strip s args) := by
  refine .bind (.lift _) fun v => ?_
  split
  · exact .pure _
  · exact .pure _
  · exact .bind (plain_expectText _ _) fun _ => .pure _

theorem plain_split (s : List Char) (args : Arguments) : Plain (split s args) := by
  refine .bind (.lift _) fun v => ?_
  split
  · exact .newList _
  · exact .newList _
  · refine .bind (plain_expectText _ _) fun sep => ?_
    split
    · exact .lift _
    · exact .newList _

theorem plain_join (s : String) (args : Arguments) : Plain (join s args) :=
  .bind (.lift _) fun _ => .bind (.look fun f h => by simp) fun _ => .pure _

theorem plain_callText (s : String) (name : String) (args : Arguments) :
    Plain (callText s name args) := by
  delta callText
  dsimp only
  split
  · exact .bind (.lift _) fun _ => .pure _
  · exact .bind (.lift _) fun _ => .pure _
  · exact plain_strip _ args
  · exact plain_split _ args
  · exact plain_join s args
  · refine .bind (.lift _) fun pair => .bind (plain_expectText _ _) fun _ => ?_
    exact .bind (plain_expectText _ _) fun _ => .pure _
  · exact .bind (.lift _) fun _ => .bind (plain_expectText _ _) fun _ => .pure _
  · exact .bind (.lift _) fun _ => .bind (plain_expectText _ _) fun _ => .pure _

theorem plain_expectIndex (v : Value) : Plain (expectIndex v) := by
  delta expectIndex
  split
  · exact .pure _
  · exact .bind (.typeName v) fun _ => .lift _

theorem plain_pop (id : Nat) (args : Arguments) : Plain (pop id args) := by
  refine .bind (.lift _) fun given => .bind ?_ fun index => ?_
  · cases given with
    | none => exact .pure _
    | some v => exact .bind (plain_expectIndex v) fun _ => .pure _
  · refine .heapThen (fun h => ?_) fun f h => by simp
    dsimp only
    split
    · exact .lift _
    · split
      · exact .lift _
      · exact .bind (.changeList _ _) fun _ => .pure _

theorem plain_callList (id : Nat) (name : String) (args : Arguments) :
    Plain (callList id name args) := by
  delta callList
  split
  · exact .bind (.lift _) fun _ => .bind (.changeList _ _) fun _ => .pure _
  · refine .bind (.lift _) fun _ => .bind (.look fun f h => by simp) fun _ => ?_
    exact .bind (Operators.plain_extendList _ _) fun _ => .pure _
  · exact plain_pop id args

theorem plain_callDict (id : Nat) (name : String) (args : Arguments) :
    Plain (callDict id name args) := by
  refine .heapThen (fun h => ?_) fun f h => by simp
  dsimp only
  split
  · refine .bind (.lift _) fun given => .bind (.look fun f h => by simp) fun _ => ?_
    exact .heapThen (fun h => .pure _) fun f h => by simp
  · exact .bind (.lift _) fun _ => .newList _
  · exact .bind (.lift _) fun _ => .newList _
  · refine .bind (.lift _) fun _ => .bind (.mapM fun _ _ => ?_) fun _ => .newList _
    exact .newTuple _

theorem plain_callStream (stream : OutputStream) (name : String) (args : Arguments) :
    Plain (callStream stream name args) := by
  delta callStream
  split
  · refine .bind (.lift _) fun _ => .bind (plain_expectText _ _) fun _ => ?_
    exact .bind (.emit _) fun _ => .pure _
  · exact .bind (.lift _) fun _ => .pure _

theorem plain_call (m : BoundMethod) (args : Arguments) : Plain (call m args) := by
  refine .bind (.lift _) fun _ => ?_
  split
  · exact plain_callText _ _ args
  · exact plain_callList _ _ args
  · exact plain_callDict _ _ args
  · exact plain_callStream _ _ args
  · exact Operators.plain_noMember _ _

end Methods

/-! ### Libraries -/

namespace Libraries

theorem plain_load (name : String) : Plain (load name) := by
  refine .heapThen (fun h => ?_) fun f h => by simp
  split
  · exact .pure _
  · refine .getThen (fun w => ?_) fun w w' hhost => by rw [hhost]
    split
    · exact .newLibrary _
    · exact .lift _

theorem blind_importAll (scope : Nat) (names : List Alias) : Blind (importAll scope names) :=
  .forM fun _ _ => .bind (plain_load _).blind fun l => .bindName scope _ l

theorem blind_importMembers (scope : Nat) (path : List String) (names : List Alias) :
    Blind (importMembers scope path names) := by
  refine .bind (plain_load _).blind fun l => .forM fun _ _ => ?_
  exact .bind (.look fun f h => by simp) fun v => .bindName scope _ v

end Libraries

/-! ### Calls of functions -/

-- A call is for the cell of its caller.
theorem Machine.follows_enter (c : WorldChange) (caller : Context) (f : Closure)
    (args : Arguments) : Follows c (Context.mapCell c.cell) (Machine.enter caller f args)
      (Machine.enter (caller.mapCell c.cell) (f.mapBody c.stmt) args) := by
  rw [Machine.enter, Machine.enter]
  change Follows _ _ (if _ ≤ caller.depth then _ else _) (if _ ≤ caller.depth then _ else _)
  split
  · exact ⟨fun _ => rfl⟩
  · refine ((Blind.lift _).follows c).bind fun bindings => ?_
    refine ((Blind.newScope _).follows c).bind fun scope => ?_
    refine ((Blind.forM fun _ _ => Blind.bindName scope _ _).follows c).bind fun _ => ?_
    exact ⟨fun _ => rfl⟩

end NoteCell
