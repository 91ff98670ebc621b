import NoteCell.Machine.Step
import NoteCell.Proofs.Machine.Actions
import NoteCell.Proofs.Safety.Values

/-!
Actions keep heaps safe: given safe values and a safe heap, they give safe values, fail safely and
leave the heap safe.
-/
namespace NoteCell

namespace Action

variable (u : Usage)

-- An action that keeps heaps safe, and that gives a value with a property or fails safely.
structure Keeps {α : Type} (A : α → Prop) (a : Action α) : Prop where
  run : ∀ w, w.heap.Safe u → (a.run.run w).2.heap.Safe u ∧ Attempt.Gives A (a.run.run w).1

namespace Keeps

variable {u} {α β : Type} {A : α → Prop} {B : β → Prop} {a : Action α}

theorem pure {x : α} (h : A x) : Keeps u A (Pure.pure x) := ⟨fun _ hw => ⟨hw, .ok h⟩⟩

theorem lift {attempt : Attempt α} (h : attempt.Gives A) : Keeps u A (Action.lift attempt) :=
  ⟨fun _ hw => ⟨hw, h⟩⟩

theorem raise {kind : ExnKind} (h : kind ≠ .syntaxError) (message : String) :
    Keeps u A (Action.raise kind message) := lift (.raise h message)

theorem typeError (message : String) : Keeps u A (Action.typeError message) :=
  raise (by decide) message

theorem valueError (message : String) : Keeps u A (Action.valueError message) :=
  raise (by decide) message

theorem indexError (message : String) : Keeps u A (Action.indexError message) :=
  raise (by decide) message

theorem attributeError (message : String) : Keeps u A (Action.attributeError message) :=
  raise (by decide) message

theorem bind {k : α → Action β} (ha : Keeps u A a) (hk : ∀ x, A x → Keeps u B (k x)) :
    Keeps u B (a >>= k) := by
  constructor
  intro w hw
  have ⟨hheap, hgives⟩ := ha.run w hw
  rw [run_bind]
  rcases hrun : a.run.run w with ⟨e | x, w'⟩
  · rw [hrun] at hheap hgives
    exact ⟨hheap, nofun, fun f heq => by
      cases heq
      exact hgives.safe e rfl⟩
  · rw [hrun] at hheap hgives
    exact (hk x (hgives.holds x rfl)).run w' hheap

theorem heapThen {k : Heap → Action α} (hk : ∀ h, h.Safe u → Keeps u A (k h)) :
    Keeps u A (Action.heap >>= k) :=
  bind ⟨fun _ hw => ⟨hw, .ok hw⟩⟩ hk

theorem getThen {k : World → Action α} (hk : ∀ w, Keeps u A (k w)) : Keeps u A (get >>= k) :=
  bind (A := fun _ => True) ⟨fun _ hw => ⟨hw, .ok trivial⟩⟩ fun w _ => hk w

theorem look {g : Heap → Attempt α} (hg : ∀ h, h.Safe u → (g h).Gives A) : Keeps u A (look g) :=
  heapThen fun h hh => lift (hg h hh)

theorem typeName (v : Value) : Keeps u (fun _ => True) (typeName v) :=
  heapThen fun _ _ => pure trivial

theorem emit (e : Effect) : Keeps u (fun _ => True) (emit e) :=
  ⟨fun _ hw => ⟨hw, .ok trivial⟩⟩

theorem change {g : Heap → Heap} (hg : ∀ h, h.Safe u → (g h).Safe u) :
    Keeps u (fun _ => True) (change g) :=
  ⟨fun w hw => ⟨hg w.heap hw, .ok trivial⟩⟩

theorem make {g : Heap → α × Heap} (hg : ∀ h, h.Safe u → A (g h).1 ∧ (g h).2.Safe u) :
    Keeps u A (make g) :=
  ⟨fun w hw => ⟨(hg w.heap hw).2, .ok (hg w.heap hw).1⟩⟩

theorem mapM {as : List α} {k : α → Action β} (hk : ∀ a ∈ as, Keeps u B (k a)) :
    Keeps u (fun bs => ∀ b ∈ bs, B b) (as.mapM k) := by
  induction as
  case nil => exact pure (List.forall_mem_nil _)
  case cons a as ih =>
    obtain ⟨ha, has⟩ := List.forall_mem_cons.mp hk
    rw [List.mapM_cons]
    exact ha.bind fun b hb => (ih has).bind fun bs hbs => pure (List.forall_mem_cons.mpr ⟨hb, hbs⟩)

theorem forM {as : List α} {k : α → Action PUnit} (hk : ∀ a ∈ as, Keeps u (fun _ => True) (k a)) :
    Keeps u (fun _ => True) (as.forM k) := by
  induction as
  case nil => exact pure trivial
  case cons a as ih =>
    obtain ⟨ha, has⟩ := List.forall_mem_cons.mp hk
    exact ha.bind fun _ _ => ih has

/-! ### Objects -/

theorem newList {items : Array Value} (h : ∀ v ∈ items, v.Safe u) :
    Keeps u (Value.Safe u) (newList items) :=
  make fun _ hh => ⟨trivial, { hh with lists := forall_mem_push hh.lists h }⟩

theorem listOf {items : List Value} (h : ∀ v ∈ items, v.Safe u) :
    Keeps u (Value.Safe u) (Action.newList items.toArray) :=
  newList fun v hv => h v (List.mem_toArray.mp hv)

theorem newTuple {items : Array Value} (h : ∀ v ∈ items, v.Safe u) :
    Keeps u (Value.Safe u) (newTuple items) :=
  make fun _ hh => ⟨trivial, { hh with tuples := forall_mem_push hh.tuples h }⟩

theorem newDict {entries : Entries} (h : Entries.Safe u entries) :
    Keeps u (Value.Safe u) (newDict entries) :=
  make fun _ hh => ⟨trivial, { hh with dicts := forall_mem_push hh.dicts h }⟩

theorem newClosure {c : Closure} (h : c.Safe u) : Keeps u (Value.Safe u) (newClosure c) :=
  make fun _ hh => ⟨trivial, { hh with closures := forall_mem_push hh.closures h }⟩

theorem newMethod {m : BoundMethod} (h : m.receiver.Safe u) :
    Keeps u (Value.Safe u) (newMethod m) :=
  make fun _ hh => ⟨trivial, { hh with methods := forall_mem_push hh.methods h }⟩

theorem newLibrary {l : Library} (h : ∀ p ∈ l.members, p.2.Safe u) :
    Keeps u (Value.Safe u) (newLibrary l) :=
  make fun _ hh => ⟨trivial, { hh with libraries := forall_mem_push hh.libraries h }⟩

theorem newCoroutine {c : Coroutine} (h : c.work.Safe u) :
    Keeps u (Value.Safe u) (newCoroutine c) :=
  make fun _ hh => ⟨trivial, { hh with coroutines := forall_mem_push hh.coroutines h }⟩

theorem newException {e : Exn} (h : e.kind ≠ .syntaxError) :
    Keeps u (Value.Safe u) (newException e) :=
  make fun _ hh => ⟨trivial, { hh with exceptions := forall_mem_push hh.exceptions h }⟩

theorem newScope {s : Scope} (h : ∀ p ∈ s.bindings, (p.1 = "input" → u.held) ∧ p.2.Safe u) :
    Keeps u (fun _ => True) (newScope s) :=
  make fun _ hh => ⟨trivial, { hh with scopes := forall_mem_push hh.scopes h }⟩

theorem changeList (id : Nat) {g : Array Value → Array Value}
    (hg : ∀ vs, (∀ v ∈ vs, v.Safe u) → ∀ v ∈ g vs, v.Safe u) :
    Keeps u (fun _ => True) (changeList id g) :=
  change fun _ hh => { hh with lists := forall_mem_modify hh.lists hg }

theorem setDict (id : Nat) {entries : Entries} (h : Entries.Safe u entries) :
    Keeps u (fun _ => True) (setDict id entries) :=
  change fun _ hh => { hh with dicts := forall_mem_modify hh.dicts fun _ _ => h }

theorem setMember (id : Nat) (name : String) {v : Value} (h : v.Safe u) :
    Keeps u (fun _ => True) (setMember id name v) :=
  change fun _ hh =>
    { hh with
      libraries := forall_mem_modify (f := fun l => { l with members := assign l.members name v })
        hh.libraries fun _ hl => forall_mem_assign hl h }

theorem bindName (scope : Nat) {name : String} {v : Value} (hname : name = "input" → u.held)
    (h : v.Safe u) : Keeps u (fun _ => True) (Action.bind scope name v) :=
  change fun _ hh =>
    { hh with
      scopes := forall_mem_modify (f := fun s => { s with bindings := assign s.bindings name v })
        hh.scopes fun _ hs => forall_mem_assign hs ⟨hname, h⟩ }

theorem takeWork (id : Nat) : Keeps u (Work.Safe u) (takeWork id) :=
  make fun _ hh =>
    ⟨hh.work id, { hh with
      coroutines := forall_mem_modify (f := fun c => { c with work := .spent }) hh.coroutines
        fun _ _ => trivial }⟩

end Keeps
end Action

/-! ### Operators -/

namespace Operators

variable {u : Usage} {α : Type} {A : α → Prop}

theorem keeps_unsupported (op : BinaryOp) (a b : Value) : Action.Keeps u A (unsupported op a b) :=
  .bind (.typeName a) fun _ _ => .bind (.typeName b) fun _ _ => .typeError _

theorem keeps_noConcatenation (kind : String) (b : Value) :
    Action.Keeps u A (noConcatenation kind b) :=
  .bind (.typeName b) fun _ _ => .typeError _

theorem keeps_noMember (v : Value) (name : String) : Action.Keeps u A (noMember v name) :=
  .bind (.typeName v) fun _ _ => .attributeError _

theorem keeps_arithmetic (op : BinaryOp) (x y : Number) :
    Action.Keeps u (Value.Safe u) (arithmetic op x y) :=
  .bind (.lift (Arithmetic.Result.safe_attempt _)) fun x _ => .pure (Value.safe_ofNumber x)

theorem keeps_add (a b : Value) : Action.Keeps u (Value.Safe u) (add a b) := by
  refine .heapThen fun h hh => ?_
  split
  · exact .pure trivial
  · exact keeps_noConcatenation _ b
  · exact .newList (Array.forall_mem_append.mpr ⟨hh.list _, hh.list _⟩)
  · exact keeps_noConcatenation _ b
  · exact .newTuple (Array.forall_mem_append.mpr ⟨hh.tuple _, hh.tuple _⟩)
  · exact keeps_unsupported _ a b

theorem keeps_of_repeat? {v : Value} {count : Int64} {a : Action Value}
    (h : repeat? v count = some a) : Action.Keeps u (Value.Safe u) a := by
  cases v <;> simp only [repeat?, Option.some.injEq, reduceCtorEq] at h <;> subst h
  case str => exact .bind (.lift (Repetition.safe_text _ count)) fun _ _ => .pure trivial
  case list id =>
    exact .bind (.look fun h hh => gives_items (hh.list id) count) fun _ hvs => .newList hvs
  case tuple id =>
    exact .bind (.look fun h hh => gives_items (hh.tuple id) count) fun _ hvs => .newTuple hvs

theorem keeps_multiply (a b : Value) : Action.Keeps u (Value.Safe u) (multiply a b) := by
  rw [multiply]
  split
  case h_1 hact =>
    obtain ⟨count, _, hact⟩ := Option.bind_eq_some_iff.mp hact
    exact keeps_of_repeat? hact
  case h_2 hact =>
    obtain ⟨count, _, hact⟩ := Option.bind_eq_some_iff.mp hact
    exact keeps_of_repeat? hact
  case h_3 => exact keeps_unsupported _ a b

theorem keeps_binary (op : BinaryOp) (a b : Value) :
    Action.Keeps u (Value.Safe u) (binary op a b) := by
  delta binary
  split
  · exact keeps_arithmetic op _ _
  · split
    · exact keeps_add a b
    · exact keeps_multiply a b
    · exact keeps_unsupported _ a b

theorem keeps_extendList (id : Nat) {more : List Value} (h : ∀ v ∈ more, v.Safe u) :
    Action.Keeps u (fun _ => True) (extendList id more) :=
  .changeList _ fun vs hvs => Array.forall_mem_append.mpr ⟨hvs, by simpa using h⟩

theorem keeps_augmented (op : BinaryOp) {target : Value} (htarget : target.Safe u)
    (value : Value) : Action.Keeps u (Value.Safe u) (augmented op target value) := by
  delta augmented
  split
  · refine .bind (.look fun h hh => hh.gives_itemsOf value) fun items hitems => ?_
    exact .bind (keeps_extendList _ hitems) fun _ _ => .pure htarget
  · exact keeps_binary op target value

theorem keeps_unary (op : UnaryOp) (v : Value) : Action.Keeps u (Value.Safe u) (unary op v) := by
  delta unary
  split
  · exact .heapThen fun _ _ => .pure trivial
  · exact .bind (.lift (Arithmetic.Result.safe_attempt _)) fun x _ => .pure (Value.safe_ofNumber x)
  · exact .pure (Value.safe_ofNumber _)
  · exact .bind (.typeName v) fun _ _ => .typeError _

theorem keeps_setItem (container : Value) {index v : Value} (hindex : index.Safe u)
    (hv : v.Safe u) : Action.Keeps u (fun _ => True) (setItem container index v) := by
  refine .heapThen fun h hh => ?_
  split
  · refine .bind (.lift (safe_sequenceIndex h _ index)) fun i _ => ?_
    split
    · refine .changeList _ fun vs hvs w hw => ?_
      obtain hw | rfl := Array.mem_or_eq_of_mem_setIfInBounds hw
      · exact hvs w hw
      · exact hv
    · exact .indexError _
  · exact .bind (.lift (gives_insertKey (hh.dict _) hindex hv)) fun _ he => .setDict _ he
  · exact .typeError _

theorem keeps_getMember {v : Value} (hv : v.Safe u) (name : String) :
    Action.Keeps u (Value.Safe u) (getMember v name) := by
  delta getMember
  split
  · refine .heapThen fun h hh => ?_
    dsimp only
    split
    case h_1 id _ member hmember => exact .pure (hh.library _ _ (mem_of_lookup? hmember))
    case h_2 => exact .attributeError _
  · split
    · exact .newMethod hv
    · exact keeps_noMember v name

theorem keeps_setMember (target : Value) (name : String) {v : Value} (hv : v.Safe u) :
    Action.Keeps u (fun _ => True) (setMember target name v) := by
  rw [setMember.eq_def]
  split
  · exact .setMember _ name hv
  · exact keeps_noMember target name

end Operators

/-! ### Built-in functions -/

namespace Builtins

variable {u : Usage} {args : Arguments}

theorem keeps_round (ha : args.Safe u) : Action.Keeps u (Value.Safe u) (round args) := by
  refine .bind (.lift (Arguments.safe_rejectKeywords _ _)) fun _ _ => ?_
  refine .bind (.lift ((ha.others "ndigits").gives_between _ 1 2)) fun given _ => ?_
  refine .bind (A := fun _ => True) (.look fun h _ => ?_) fun places _ => ?_
  · split
    · exact .ok trivial
    · exact .ok trivial
    · exact .bind (safe_expectIndex h _) fun _ _ => .ok trivial
  · exact .look fun h _ => .bind (safe_expectNumber h _ _) fun x _ => gives_roundNumber places x

theorem keeps_textKeyword (name default : String) (v : Option Value) :
    Action.Keeps u (fun _ => True) (textKeyword name default v) := by
  rw [textKeyword.eq_def]
  split
  · exact .pure trivial
  · exact .pure trivial
  · exact .pure trivial
  · exact .bind (.typeName _) fun _ _ => .typeError _

theorem keeps_streamKeyword (v : Option Value) :
    Action.Keeps u (fun _ => True) (streamKeyword v) := by
  rw [streamKeyword.eq_def]
  split
  · exact .pure trivial
  · exact .pure trivial
  · exact .pure trivial
  · exact Operators.keeps_noMember _ _

theorem keeps_print (args : Arguments) : Action.Keeps u (Value.Safe u) (print args) := by
  refine .bind (keeps_textKeyword _ _ _) fun sep _ => ?_
  refine .bind (keeps_textKeyword _ _ _) fun ending _ => ?_
  refine .bind (keeps_streamKeyword _) fun stream _ => ?_
  refine .bind (.lift (Arguments.safe_rejectKeywords _ _)) fun _ _ => ?_
  exact .heapThen fun h _ => .bind (.emit _) fun _ _ => .pure trivial

theorem keeps_input (ha : args.Safe u) : Action.Keeps u (Value.Safe u) (input args) :=
  .bind (.lift (ha.gives_optional _)) fun _ _ => .heapThen fun _ _ => .newCoroutine trivial

theorem keeps_hostText (ha : args.Safe u) : Action.Keeps u (Value.Safe u) (hostText args) := by
  refine .bind (.lift (ha.gives_one _)) fun v _ => .getThen fun w => ?_
  split
  · exact .raise (by decide) _
  · exact .heapThen fun h _ => .bind (.emit _) fun _ _ => .pure trivial

theorem keeps_hostImage (ha : args.Safe u) : Action.Keeps u (Value.Safe u) (hostImage args) := by
  refine .bind (.lift (ha.gives_one _)) fun v _ => .getThen fun w => ?_
  split
  · exact .raise (by decide) _
  · split
    · exact .bind (.emit _) fun _ _ => .pure trivial
    · exact .bind (.typeName _) fun _ _ => .typeError _

theorem keeps_sumFrom (fuel : Nat) (it : Iteration) {total : Value} (h : total.Safe u) :
    Action.Keeps u (Value.Safe u) (sumFrom fuel it total) := by
  induction fuel generalizing it total
  case zero => exact .pure h
  case succ fuel ih =>
    refine .heapThen fun heap _ => ?_
    split
    · exact .pure h
    · exact .bind (Operators.keeps_binary _ _ _) fun _ hv => ih _ hv

theorem keeps_sum (ha : args.Safe u) : Action.Keeps u (Value.Safe u) (sum args) := by
  refine .bind (.lift (Arguments.safe_rejectKeywords _ _)) fun _ _ => ?_
  refine .bind (.lift ((ha.others "start").gives_between _ 1 2)) fun given hgiven => ?_
  have htotal : (((given[1]?).or (args.takeKeyword "start").1).getD (.int 0)).Safe u := by
    cases hget : (given[1]?).or (args.takeKeyword "start").1 with
    | none => trivial
    | some v =>
      obtain hv | ⟨_, hv⟩ := Option.or_eq_some_iff.mp hget
      · exact hgiven v (List.mem_of_getElem? hv)
      · exact ha.taken "start" v hv
  split
  · exact .typeError _
  · refine .bind (.look fun h _ => Iteration.safe_of h _) fun it _ => ?_
    exact .heapThen fun h _ => keeps_sumFrom _ it htotal

theorem keeps_extremum (name : String) (op : CompareOp) (wanted : Ordering)
    (ha : args.Safe u) : Action.Keeps u (Value.Safe u) (extremum name op wanted args) := by
  refine .bind (.lift (Arguments.safe_rejectKeywords _ _)) fun _ _ => ?_
  extract_lets choose
  have hchoose : ∀ items : List Value, (∀ v ∈ items, v.Safe u) →
      Action.Keeps u (Value.Safe u) (choose items) := by
    intro items hitems
    dsimp only [choose]
    split
    · obtain ⟨hfirst, hrest⟩ := List.forall_mem_cons.mp hitems
      exact .look fun h _ => gives_extremum hfirst hrest
    case h_2 v hv => exact .pure (ha.taken "default" v hv)
    · exact .valueError _
  split
  · exact .bind (.typeError _) hchoose
  · exact .bind (.look fun h hh => hh.gives_itemsOf _) hchoose
  · exact .bind (.pure ha.positional) hchoose

theorem keeps_sorted (ha : args.Safe u) : Action.Keeps u (Value.Safe u) (sorted args) := by
  refine .bind (.lift (Arguments.safe_rejectKeywords _ _)) fun _ _ => ?_
  refine .bind (.lift ((ha.others "reverse").gives_one _)) fun v _ => .heapThen fun h hh => ?_
  refine .bind (.lift (hh.gives_itemsOf v)) fun items hitems => ?_
  exact .bind (.lift (gives_sorted hitems)) fun vs hvs => .listOf hvs

theorem keeps_exceptionMessage (kind : ExnKind) {values : List Value}
    (h : ∀ v ∈ values, v.Safe u) :
    Action.Keeps u (fun _ => True) (exceptionMessage kind values) := by
  rw [exceptionMessage.eq_def]
  split
  · exact .pure trivial
  · exact .heapThen fun _ _ => .pure trivial
  · refine .bind (.newTuple fun v hv => h v (by simpa using hv)) fun _ _ => ?_
    exact .heapThen fun _ _ => .pure trivial

theorem keeps_optional {missing : Action Value} {g : Value → Action Value} (name : String)
    (ha : args.Safe u) (hmissing : Action.Keeps u (Value.Safe u) missing)
    (hg : ∀ v, Action.Keeps u (Value.Safe u) (g v)) :
    Action.Keeps u (Value.Safe u) (optional name missing g args) := by
  refine .bind (.lift (ha.gives_optional name)) fun v _ => ?_
  split
  · exact hmissing
  · exact hg _

theorem keeps_unary {g : Heap → Value → Attempt Value} (name : String) (ha : args.Safe u)
    (hg : ∀ h v, (g h v).Gives (Value.Safe u)) :
    Action.Keeps u (Value.Safe u) (unary name g args) :=
  .bind (.lift (ha.gives_one name)) fun v _ => .look fun h _ => hg h v

theorem keeps_withoutKeywords {g : Arguments → Action Value} (b : Builtin)
    (hg : Action.Keeps u (Value.Safe u) (g args)) :
    Action.Keeps u (Value.Safe u) (withoutKeywords b g args) :=
  .bind (.lift (Arguments.safe_noKeywords args _)) fun _ _ => hg

theorem keeps_call {b : Builtin} (hb : (Value.builtin b).Safe u) (ha : args.Safe u) :
    Action.Keeps u (Value.Safe u) (call b args) := by
  cases b
  case print => exact keeps_print args
  case min | max => exact keeps_extremum _ _ _ ha
  case sum => exact keeps_sum ha
  case round => exact keeps_round ha
  case sorted => exact keeps_sorted ha
  all_goals apply keeps_withoutKeywords
  case input => exact keeps_input ha
  case len => exact keeps_unary _ ha gives_len
  case repr => exact keeps_unary _ ha fun _ _ => .ok trivial
  case abs => exact keeps_unary _ ha gives_absolute
  case sqrt => exact keeps_unary _ ha gives_squareRoot
  case floor | ceil => exact keeps_unary _ ha fun h v => gives_wholeBy h _ _ v
  case str | bool =>
    exact keeps_optional _ ha (.pure trivial) fun v => .heapThen fun _ _ => .pure trivial
  case int => exact keeps_optional _ ha (.pure trivial) fun v => .look fun h _ => gives_toInt h v
  case float =>
    exact keeps_optional _ ha (.pure trivial) fun v => .look fun h _ => gives_toFloat h v
  case list =>
    refine keeps_optional _ ha (.newList (by simp)) fun v => ?_
    exact .bind (.look fun h hh => hh.gives_itemsOf v) fun vs hvs => .listOf hvs
  case range =>
    exact .bind (.lift (ha.gives_between _ 1 3)) fun given _ => .look fun h _ => gives_range h given
  case exception kind =>
    exact .bind (keeps_exceptionMessage kind ha.positional) fun _ _ => .newException hb
  case hostText => exact keeps_hostText ha
  case hostImage => exact keeps_hostImage ha

end Builtins

/-! ### Methods -/

namespace Methods

variable {u : Usage} {args : Arguments}

theorem keeps_expectText (method : String) (v : Value) :
    Action.Keeps u (fun _ => True) (expectText method v) := by
  delta expectText
  split
  · exact .pure trivial
  · exact .bind (.typeName _) fun _ _ => .typeError _

theorem keeps_texts (pieces : List (List Char)) : Action.Keeps u (Value.Safe u) (texts pieces) := by
  refine .listOf fun v hv => ?_
  obtain ⟨piece, _, rfl⟩ := List.mem_map.mp hv
  trivial

theorem keeps_strip (s : List Char) (ha : args.Safe u) :
    Action.Keeps u (Value.Safe u) (strip s args) := by
  refine .bind (.lift (ha.gives_optional _)) fun v _ => ?_
  split
  · exact .pure trivial
  · exact .pure trivial
  · exact .bind (keeps_expectText _ _) fun _ _ => .pure trivial

theorem keeps_split (s : List Char) (ha : args.Safe u) :
    Action.Keeps u (Value.Safe u) (split s args) := by
  refine .bind (.lift (ha.gives_optional _)) fun v _ => ?_
  split
  · exact keeps_texts _
  · exact keeps_texts _
  · refine .bind (keeps_expectText _ _) fun sep _ => ?_
    split
    · exact .valueError _
    · exact keeps_texts _

theorem keeps_join (s : String) (ha : args.Safe u) :
    Action.Keeps u (Value.Safe u) (join s args) := by
  refine .bind (.lift (ha.gives_one _)) fun items _ => ?_
  refine .bind (A := fun _ => True) (.look fun h _ => ?_) fun _ _ => .pure trivial
  exact .bind (Iteration.safe_of h items) fun it _ => safe_joinable h 0 it

theorem keeps_callText (s : String) (name : String) (ha : args.Safe u) :
    Action.Keeps u (Value.Safe u) (callText s name args) := by
  delta callText
  dsimp only
  split
  · exact .bind (.lift (args.safe_none _)) fun _ _ => .pure trivial
  · exact .bind (.lift (args.safe_none _)) fun _ _ => .pure trivial
  · exact keeps_strip _ ha
  · exact keeps_split _ ha
  · exact keeps_join s ha
  · refine .bind (.lift (ha.gives_two _)) fun pair _ => .bind (keeps_expectText _ _) fun _ _ => ?_
    exact .bind (keeps_expectText _ _) fun _ _ => .pure trivial
  · exact .bind (.lift (ha.gives_one _)) fun _ _ => .bind (keeps_expectText _ _) fun _ _ =>
      .pure trivial
  · exact .bind (.lift (ha.gives_one _)) fun _ _ => .bind (keeps_expectText _ _) fun _ _ =>
      .pure trivial

theorem keeps_expectIndex (v : Value) : Action.Keeps u (fun _ => True) (expectIndex v) := by
  delta expectIndex
  split
  · exact .pure trivial
  · exact .bind (.typeName v) fun _ _ => .typeError _

theorem keeps_pop (id : Nat) (ha : args.Safe u) : Action.Keeps u (Value.Safe u) (pop id args) := by
  refine .bind (.lift (ha.gives_optional _)) fun given _ => ?_
  refine .bind (A := fun _ => True) ?_ fun index _ => ?_
  · cases given with
    | none => exact .pure trivial
    | some v => exact .bind (keeps_expectIndex v) fun _ _ => .pure trivial
  · refine .heapThen fun h hh => ?_
    dsimp only
    split
    · exact .indexError _
    · split
      · exact .indexError _
      · refine .bind (.changeList _ fun vs hvs v hv => ?_) fun _ _ => .pure ?_
        · rw [Array.eraseIdxIfInBounds] at hv
          split at hv
          · exact hvs v (Array.mem_of_mem_eraseIdx hv)
          · exact hvs v hv
        · exact forall_mem_getD (d := .nothing) (hh.list id) trivial _

theorem keeps_callList (id : Nat) (name : String) (ha : args.Safe u) :
    Action.Keeps u (Value.Safe u) (callList id name args) := by
  delta callList
  split
  · refine .bind (.lift (ha.gives_one _)) fun item hitem => ?_
    exact .bind (.changeList _ fun vs hvs => forall_mem_push hvs hitem) fun _ _ => .pure trivial
  · refine .bind (.lift (ha.gives_one _)) fun more _ => ?_
    refine .bind (.look fun h hh => hh.gives_itemsOf more) fun items hitems => ?_
    exact .bind (Operators.keeps_extendList _ hitems) fun _ _ => .pure trivial
  · exact keeps_pop id ha

theorem keeps_callDict (id : Nat) (name : String) (ha : args.Safe u) :
    Action.Keeps u (Value.Safe u) (callDict id name args) := by
  refine .heapThen fun h hh => ?_
  have hentries := hh.dict id
  dsimp only
  split
  · refine .bind (.lift (ha.gives_between _ 1 2)) fun given hgiven => ?_
    refine .bind (.look fun h _ => h.safe_requireHashable _) fun _ _ => ?_
    refine .heapThen fun h' _ => .pure ?_
    cases hget : h'.getKey? (h.dict id) (given.headD .nothing) with
    | some v => exact hentries.getKey? hget
    | none =>
      cases hdefault : given[1]? with
      | some v => exact hgiven v (List.mem_of_getElem? hdefault)
      | none => trivial
  · refine .bind (.lift (args.safe_none _)) fun _ _ => .listOf fun v hv => ?_
    obtain ⟨e, he, rfl⟩ := List.mem_map.mp hv
    exact (hentries e he).1
  · refine .bind (.lift (args.safe_none _)) fun _ _ => .listOf fun v hv => ?_
    obtain ⟨e, he, rfl⟩ := List.mem_map.mp hv
    exact (hentries e he).2
  · refine .bind (.lift (args.safe_none _)) fun _ _ => ?_
    refine .bind (.mapM fun e he => .newTuple ?_) fun vs hvs => ?_
    · obtain ⟨hkey, hvalue⟩ := hentries e he
      simp [hkey, hvalue]
    · exact .listOf hvs

theorem keeps_callStream (stream : OutputStream) (name : String) (ha : args.Safe u) :
    Action.Keeps u (Value.Safe u) (callStream stream name args) := by
  delta callStream
  split
  · refine .bind (.lift (ha.gives_one _)) fun _ _ => .bind (keeps_expectText _ _) fun _ _ => ?_
    exact .bind (.emit _) fun _ _ => .pure trivial
  · exact .bind (.lift (args.safe_none _)) fun _ _ => .pure trivial

theorem keeps_call (m : BoundMethod) (ha : args.Safe u) :
    Action.Keeps u (Value.Safe u) (call m args) := by
  refine .bind (.lift (args.safe_noKeywords _)) fun _ _ => ?_
  split
  · exact keeps_callText _ _ ha
  · exact keeps_callList _ _ ha
  · exact keeps_callDict _ _ ha
  · exact keeps_callStream _ _ ha
  · exact Operators.keeps_noMember _ _

end Methods

/-! ### Libraries -/

namespace Libraries

variable {u : Usage}

theorem safe_of_members? {hasHost : Bool} {name : String} {members : List (String × Value)}
    (h : members? hasHost name = some members) : ∀ p ∈ members, p.2.Safe u := by
  rw [members?.eq_def] at h
  split at h
  · cases h
    simp only [sysMembers, List.forall_mem_cons]
    exact ⟨trivial, trivial, List.forall_mem_nil _⟩
  · cases h
    simp only [mathMembers, List.forall_mem_cons]
    exact ⟨trivial, trivial, trivial, trivial, trivial, trivial, List.forall_mem_nil _⟩
  · split at h <;> cases h
    simp only [hostMembers, List.forall_mem_cons]
    exact ⟨trivial, trivial, List.forall_mem_nil _⟩
  · cases h

theorem keeps_load (name : String) : Action.Keeps u (Value.Safe u) (load name) := by
  refine .heapThen fun h _ => ?_
  split
  case h_1 l hl =>
    obtain ⟨id, _, rfl⟩ := Option.map_eq_some_iff.mp hl
    exact .pure trivial
  case h_2 =>
    refine .getThen fun w => ?_
    split
    case h_1 members hmembers => exact .newLibrary (safe_of_members? hmembers)
    case h_2 => exact .raise (by decide) _

theorem keeps_importAll (scope : Nat) {names : List Alias}
    (h : "input" ∈ names.map bindingName → u.held) :
    Action.Keeps u (fun _ => True) (importAll scope names) := by
  refine .forM fun a ha => .bind (keeps_load _) fun l hl => .bindName scope ?_ hl
  exact fun heq => h (heq ▸ List.mem_map_of_mem ha)

theorem keeps_importMembers (scope : Nat) (path : List String) {names : List Alias}
    (h : "input" ∈ names.map bindingName → u.held) :
    Action.Keeps u (fun _ => True) (importMembers scope path names) := by
  refine .bind (keeps_load _) fun l _ => .forM fun a ha => ?_
  refine .bind (.look fun h hh => hh.gives_memberOf _ _ _) fun v hv => .bindName scope ?_ hv
  exact fun heq => h (heq ▸ List.mem_map_of_mem ha)

end Libraries

/-! ### Calls of functions -/

theorem Machine.keeps_enter {u : Usage} (caller : Context) {c : Closure} {args : Arguments}
    (hc : c.Safe u) (ha : args.Safe u) :
    Action.Keeps u (fun _ => True) (Machine.enter caller c args) := by
  rw [Machine.enter]
  split
  · exact .raise (by decide) _
  · refine .bind (.lift (hc.gives_bindArguments ha)) fun bindings hbindings => ?_
    refine .bind (.newScope (by simp)) fun scope _ => ?_
    refine .bind (.forM fun p hp => ?_) fun _ _ => .pure trivial
    obtain ⟨hname, hv⟩ := hbindings p hp
    exact .bindName scope hname hv

end NoteCell
