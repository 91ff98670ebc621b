import NoteCell.Machine.Builtins
import NoteCell.Machine.Methods
import NoteCell.Proofs.Safety.Trees

/-!
Safe values: `input` only where it may be held, and never the kind of exception that programs cannot
name. Nothing that a program can reach holds another value, and no operation on values fails with an
exception of that kind.
-/
namespace NoteCell

def Failure.Safe : Failure → Prop
  | .raised e => e.kind ≠ .syntaxError
  | .broken => True

-- Whatever an attempt gives has a property, and a failure is a safe one.
structure Attempt.Gives {α : Type} (A : α → Prop) (a : Attempt α) : Prop where
  holds : ∀ x, a = .ok x → A x
  safe : ∀ f, a = .error f → f.Safe

-- Only the failure matters.
abbrev Attempt.Safe {α : Type} (a : Attempt α) : Prop := a.Gives fun _ => True

namespace Attempt.Gives

variable {α β : Type} {A : α → Prop} {B : β → Prop}

theorem ok {x : α} (h : A x) : Gives A (.ok x) := ⟨fun _ heq => Except.ok.inj heq ▸ h, nofun⟩

theorem broken : Gives A (.error .broken) :=
  ⟨nofun, fun _ heq => by
    cases heq
    trivial⟩

theorem raise {kind : ExnKind} (h : kind ≠ .syntaxError) (message : String) :
    Gives A (.raise kind message) :=
  ⟨nofun, fun _ heq => by
    cases heq
    exact h⟩

theorem typeError (message : String) : Gives A (.typeError message) := raise (by decide) message

theorem valueError (message : String) : Gives A (.valueError message) := raise (by decide) message

theorem indexError (message : String) : Gives A (.indexError message) := raise (by decide) message

theorem bind {a : Attempt α} {f : α → Attempt β} (ha : Gives A a) (hf : ∀ x, A x → Gives B (f x)) :
    Gives B (a >>= f) := by
  cases a with
  | ok x => exact hf x (ha.holds x rfl)
  | error e =>
    refine ⟨nofun, fun f heq => ?_⟩
    cases heq
    exact ha.safe e rfl

theorem foldlM {γ : Type} {f : α → γ → Attempt α} {l : List γ}
    (hf : ∀ x, A x → ∀ c ∈ l, Gives A (f x c)) {x : α} (hx : A x) : Gives A (l.foldlM f x) := by
  induction l generalizing x
  case nil => exact ok hx
  case cons c l ih =>
    rw [List.foldlM_cons]
    apply bind (hf x hx c List.mem_cons_self)
    intro y hy
    exact ih (fun x hx d hd => hf x hx d (List.mem_cons_of_mem c hd)) hy

end Attempt.Gives

namespace Attempt.Safe

variable {α β : Type}

theorem mapM {f : α → Attempt β} {l : List α} (hf : ∀ a, (f a).Safe) : (l.mapM f).Safe := by
  induction l
  case nil => exact .ok trivial
  case cons a l ih =>
    rw [List.mapM_cons]
    exact .bind (hf a) fun _ _ => .bind ih fun _ _ => .ok trivial

theorem forM {f : α → Attempt PUnit} {l : List α} (hf : ∀ a, (f a).Safe) : (l.forM f).Safe := by
  induction l
  case nil => exact .ok trivial
  case cons a l ih => exact .bind (hf a) fun _ _ => ih

end Attempt.Safe

/-! ### Heaps -/

variable (u : Usage)

def Value.Safe : Value → Prop
  | .builtin .input => u.held
  | .builtin (.exception kind) => kind ≠ .syntaxError
  | _ => True

def Entries.Safe (entries : Entries) : Prop := ∀ e ∈ entries, e.1.Safe u ∧ e.2.Safe u

structure Closure.Safe (c : Closure) : Prop where
  params : ∀ p ∈ c.params, (p.1 = "input" → u.held) ∧ ∀ v ∈ p.2, v.Safe u
  body : ∀ s ∈ c.body, s.Safe u .function

def Work.Safe : Work → Prop
  | .body _ stmts => ∀ s ∈ stmts, s.Safe u .function
  | _ => True

structure Heap.Safe (h : Heap) : Prop where
  lists : ∀ vs ∈ h.lists, ∀ v ∈ vs, v.Safe u
  tuples : ∀ vs ∈ h.tuples, ∀ v ∈ vs, v.Safe u
  dicts : ∀ entries ∈ h.dicts, Entries.Safe u entries
  closures : ∀ c ∈ h.closures, c.Safe u
  methods : ∀ m ∈ h.methods, m.receiver.Safe u
  libraries : ∀ l ∈ h.libraries, ∀ p ∈ l.members, p.2.Safe u
  coroutines : ∀ c ∈ h.coroutines, c.work.Safe u
  exceptions : ∀ e ∈ h.exceptions, e.kind ≠ .syntaxError
  scopes : ∀ s ∈ h.scopes, ∀ p ∈ s.bindings, (p.1 = "input" → u.held) ∧ p.2.Safe u

variable {u}

theorem forall_mem_getD {α : Type} {P : α → Prop} {xs : Array α} (h : ∀ x ∈ xs, P x) {d : α}
    (hd : P d) (i : Nat) : P (xs.getD i d) := by
  rw [Array.getD_eq_getD_getElem?]
  cases hget : xs[i]? with
  | none => exact hd
  | some x => exact h x (Array.mem_of_getElem? hget)

theorem forall_mem_modify {α : Type} {P : α → Prop} {xs : Array α} (h : ∀ x ∈ xs, P x) {i : Nat}
    {f : α → α} (hf : ∀ x, P x → P (f x)) : ∀ x ∈ xs.modify i f, P x := by
  intro x hx
  obtain ⟨j, hj, rfl⟩ := Array.getElem_of_mem hx
  rw [Array.getElem_modify]
  split
  · exact hf _ (h _ (Array.getElem_mem _))
  · exact h _ (Array.getElem_mem _)

theorem forall_mem_push {α : Type} {P : α → Prop} {xs : Array α} (h : ∀ x ∈ xs, P x) {y : α}
    (hy : P y) : ∀ x ∈ xs.push y, P x := by
  intro x hx
  obtain hx | rfl := Array.mem_push.mp hx
  · exact h x hx
  · exact hy

theorem mem_of_lookup? {α : Type} {pairs : List (String × α)} {key : String} {v : α}
    (h : lookup? pairs key = some v) : (key, v) ∈ pairs := by
  obtain ⟨p, hp, rfl⟩ := Option.map_eq_some_iff.mp h
  have hkey := List.find?_some hp
  simp only [decide_eq_true_eq] at hkey
  exact hkey ▸ List.mem_of_find?_eq_some hp

theorem forall_mem_assign {α : Type} {P : String × α → Prop} {pairs : List (String × α)}
    (h : ∀ p ∈ pairs, P p) {key : String} {v : α} (hv : P (key, v)) :
    ∀ p ∈ assign pairs key v, P p := by
  induction pairs
  case nil => simpa [assign] using hv
  case cons p pairs ih =>
    obtain ⟨hp, hpairs⟩ := List.forall_mem_cons.mp h
    rw [assign]
    split
    · exact List.forall_mem_cons.mpr ⟨hv, hpairs⟩
    · exact List.forall_mem_cons.mpr ⟨hp, ih hpairs⟩

theorem Heap.safe_empty : Heap.empty.Safe u := by
  constructor <;> simp [empty]

namespace Heap.Safe

variable {h : Heap} (hs : h.Safe u)

include hs

theorem list (id : Nat) : ∀ v ∈ h.list id, v.Safe u :=
  forall_mem_getD (P := fun vs : Array Value => ∀ v ∈ vs, v.Safe u) hs.lists (by simp) id

theorem tuple (id : Nat) : ∀ v ∈ h.tuple id, v.Safe u :=
  forall_mem_getD (P := fun vs : Array Value => ∀ v ∈ vs, v.Safe u) hs.tuples (by simp) id

theorem dict (id : Nat) : Entries.Safe u (h.dict id) :=
  forall_mem_getD hs.dicts (List.forall_mem_nil _) id

theorem closure (id : Nat) : (h.closure id).Safe u :=
  forall_mem_getD hs.closures ⟨by simp, by simp⟩ id

theorem method (id : Nat) : (h.method id).receiver.Safe u :=
  forall_mem_getD (P := fun m : BoundMethod => m.receiver.Safe u) hs.methods
    (d := ⟨.nothing, ""⟩) trivial id

theorem library (id : Nat) : ∀ p ∈ (h.library id).members, p.2.Safe u :=
  forall_mem_getD (P := fun l : Library => ∀ p ∈ l.members, p.2.Safe u) hs.libraries (by simp) id

theorem work (id : Nat) : (h.coroutine id).work.Safe u :=
  forall_mem_getD (P := fun c : Coroutine => c.work.Safe u) hs.coroutines (d := ⟨"", .spent⟩)
    trivial id

theorem exception (id : Nat) : (h.exception id).kind ≠ .syntaxError :=
  forall_mem_getD (P := fun e : Exn => e.kind ≠ .syntaxError) hs.exceptions (d := ⟨.exception, ""⟩)
    nofun id

theorem binding? {scope : Nat} {name : String} {v : Value} (hv : h.binding? scope name = some v) :
    (name = "input" → u.held) ∧ v.Safe u := by
  induction scope using Nat.strongRecOn
  case ind scope ih =>
    rw [Heap.binding?] at hv
    split at hv
    · cases hv
    · rename_i s hscope
      split at hv
      · rename_i w hw
        cases hv
        exact hs.scopes s (Array.mem_of_getElem? hscope) _ (mem_of_lookup? hw)
      · split at hv
        · exact ih _ ‹_› hv
        · cases hv
      · cases hv

end Heap.Safe

/-! ### Equality and order -/

theorem safe_allEqual {eq : Value → Value → Attempt Bool} (heq : ∀ a b, (eq a b).Safe)
    (as bs : List Value) : (allEqual eq as bs).Safe := by
  induction as generalizing bs
  case nil => exact .ok trivial
  case cons a as ih =>
    cases bs with
    | nil => exact .ok trivial
    | cons b bs =>
      rw [allEqual]
      refine .bind (heq a b) fun equal _ => ?_
      split
      · exact ih bs
      · exact .ok trivial

theorem safe_itemsEqual {eq : Value → Value → Attempt Bool} (heq : ∀ a b, (eq a b).Safe)
    (as bs : Array Value) : (itemsEqual eq as bs).Safe := by
  rw [itemsEqual]
  split
  · exact safe_allEqual heq _ _
  · exact .ok trivial

theorem safe_entriesEqual {same : Value → Value → Bool} {eq : Value → Value → Attempt Bool}
    (heq : ∀ a b, (eq a b).Safe) (entries others : Entries) :
    (entriesEqual same eq entries others).Safe := by
  induction others
  case nil => exact .ok trivial
  case cons e rest ih =>
    obtain ⟨key, value⟩ := e
    rw [entriesEqual]
    split
    · exact .ok trivial
    · refine .bind (heq _ _) fun equal _ => ?_
      split
      · exact ih
      · exact .ok trivial

theorem safe_orderItems {eq : Value → Value → Attempt Bool}
    {order : Value → Value → Attempt Ordering} (heq : ∀ a b, (eq a b).Safe)
    (horder : ∀ a b, (order a b).Safe) (as bs : List Value) :
    (orderItems eq order as bs).Safe := by
  induction as generalizing bs
  case nil => cases bs <;> exact .ok trivial
  case cons a as ih =>
    cases bs with
    | nil => exact .ok trivial
    | cons b bs =>
      rw [orderItems]
      refine .bind (heq a b) fun equal _ => ?_
      split
      · exact ih bs
      · exact horder a b

namespace Heap

variable (h : Heap)

theorem safe_equalsAt (same : Value → Value → Bool) (room : Nat) (a b : Value) :
    (h.equalsAt same room a b).Safe := by
  induction room generalizing a b
  case zero => exact .raise (by decide) _
  case succ room ih =>
    rw [equalsAt.eq_def]
    dsimp only
    split
    · split
      · exact .ok trivial
      · exact safe_itemsEqual ih _ _
    · exact safe_itemsEqual ih _ _
    · split
      · exact .ok trivial
      · split
        · exact safe_entriesEqual ih _ _
        · exact .ok trivial
    all_goals exact .ok trivial

theorem safe_equals (a b : Value) : (h.equals a b).Safe := h.safe_equalsAt _ _ a b

theorem safe_isHashableAt (room : Nat) (v : Value) : (h.isHashableAt room v).Safe := by
  induction room generalizing v
  case zero =>
    cases v
    case list | dict => exact .typeError _
    case tuple => exact .raise (by decide) _
    all_goals exact .ok trivial
  case succ room ih =>
    cases v
    case list | dict => exact .typeError _
    case tuple id =>
      rw [isHashableAt]
      exact .forM ih
    all_goals exact .ok trivial

theorem safe_requireHashable (v : Value) : (h.requireHashable v).Safe := h.safe_isHashableAt _ v

theorem safe_orderAt (op : CompareOp) (fuel : Nat) (a b : Value) :
    (h.orderAt op fuel a b).Safe := by
  induction fuel generalizing a b
  case zero => exact .broken
  case succ fuel ih =>
    rw [orderAt.eq_def]
    dsimp only
    split
    · exact .ok trivial
    · split
      · exact .ok trivial
      · exact safe_orderItems h.safe_equals ih _ _
      · exact safe_orderItems h.safe_equals ih _ _
      · exact .typeError _

theorem safe_order (op : CompareOp) (a b : Value) : (h.order op a b).Safe := h.safe_orderAt op _ a b

theorem safe_sortsBefore (reverse : Bool) (v w : Value) : (h.sortsBefore reverse v w).Safe := by
  rw [sortsBefore]
  split
  · exact .bind (h.safe_order _ w v) fun _ _ => .ok trivial
  · exact .bind (h.safe_order _ v w) fun _ _ => .ok trivial

end Heap

/-! ### Dicts -/

theorem Entries.Safe.getKey? {h : Heap} {entries : Entries} {key v : Value}
    (he : Entries.Safe u entries) (hv : h.getKey? entries key = some v) : v.Safe u := by
  obtain ⟨e, hfind, rfl⟩ := Option.map_eq_some_iff.mp hv
  exact (he e (List.mem_of_find?_eq_some hfind)).2

theorem Entries.Safe.insert {same : Value → Value → Bool} {entries : Entries}
    {key value : Value} (he : Entries.Safe u entries) (hkey : key.Safe u) (hvalue : value.Safe u) :
    Entries.Safe u (Entries.insert same key value entries) := by
  induction entries
  case nil => exact List.forall_mem_singleton.mpr ⟨hkey, hvalue⟩
  case cons e rest ih =>
    obtain ⟨hhead, hrest⟩ := List.forall_mem_cons.mp he
    rw [Entries.insert]
    split
    · exact List.forall_mem_cons.mpr ⟨⟨hhead.1, hvalue⟩, hrest⟩
    · exact List.forall_mem_cons.mpr ⟨hhead, ih hrest⟩

theorem gives_insertKey {h : Heap} {entries : Entries} {key value : Value}
    (he : Entries.Safe u entries) (hkey : key.Safe u) (hvalue : value.Safe u) :
    (h.insertKey entries key value).Gives (Entries.Safe u) :=
  .bind (h.safe_requireHashable key) fun _ _ => .ok (he.insert hkey hvalue)

/-! ### Iteration -/

variable (u) in
def Iteration.Safe : Iteration → Prop
  | .items rest => ∀ v ∈ rest, v.Safe u
  | _ => True

theorem Iteration.safe_of (h : Heap) (v : Value) : (Iteration.of h v).Safe := by
  rw [Iteration.of]
  split
  · exact .ok trivial
  · exact .typeError _

namespace Heap.Safe

variable {h : Heap} (hs : h.Safe u)

include hs

theorem of? {v : Value} {it : Iteration} (hit : Iteration.of? h v = some it) : it.Safe u := by
  cases v <;> simp only [Iteration.of?, Option.some.injEq, reduceCtorEq] at hit <;> subst hit
  case tuple id => exact fun v hv => hs.tuple id v (Array.mem_def.mpr hv)
  case str s =>
    intro v hv
    obtain ⟨c, _, rfl⟩ := List.mem_map.mp hv
    exact trivial
  case dict id =>
    intro v hv
    obtain ⟨e, he, rfl⟩ := List.mem_map.mp hv
    exact (hs.dict id e he).1
  all_goals trivial

theorem next? {it rest : Iteration} {v : Value} (hit : it.Safe u)
    (hnext : it.next? h = some (v, rest)) : v.Safe u ∧ rest.Safe u := by
  match it with
  | .items [] => cases hnext
  | .items (w :: ws) =>
    cases hnext
    exact List.forall_mem_cons.mp hit
  | .list id place =>
    obtain ⟨w, hw, heq⟩ := Option.map_eq_some_iff.mp hnext
    cases heq
    exact ⟨hs.list id v (Array.mem_of_getElem? hw), trivial⟩
  | .range _ 0 _ => cases hnext
  | .range _ (_ + 1) _ =>
    cases hnext
    exact ⟨trivial, trivial⟩

theorem collectAfter {done : List Value} {it : Iteration} (hdone : ∀ v ∈ done, v.Safe u)
    (hit : it.Safe u) : ∀ v ∈ it.collectAfter h done, v.Safe u := by
  induction done, it using Iteration.collectAfter.induct h
  case case1 done it hnext =>
    rw [Iteration.collectAfter]
    split <;> simp_all
  case case2 done it v rest hnext ih =>
    obtain ⟨hv, hrest⟩ := hs.next? hit hnext
    have hrest := ih (List.forall_mem_cons.mpr ⟨hv, hdone⟩) hrest
    rw [Iteration.collectAfter]
    split <;> simp_all

theorem toList {it : Iteration} (hit : it.Safe u) : ∀ v ∈ it.toList h, v.Safe u :=
  hs.collectAfter (by simp) hit

theorem gives_of (v : Value) : (Iteration.of h v).Gives (Iteration.Safe u) := by
  rw [Iteration.of]
  split
  case h_1 it hit => exact .ok (hs.of? hit)
  case h_2 => exact .typeError _

theorem gives_itemsOf (v : Value) : (h.itemsOf v).Gives fun vs => ∀ v ∈ vs, v.Safe u :=
  .bind (hs.gives_of v) fun _ hit => .ok (hs.toList hit)

end Heap.Safe

/-! ### Sorting and extrema -/

theorem gives_insertSorted {P : Value → Prop} {before : Value → Value → Attempt Bool} {v : Value}
    {ws : List Value} (hbefore : ∀ v w, (before v w).Safe) (hv : P v) (hws : ∀ w ∈ ws, P w) :
    (Heap.insertSorted before v ws).Gives fun vs => ∀ v ∈ vs, P v := by
  induction ws
  case nil => exact .ok (by simpa using hv)
  case cons w ws ih =>
    obtain ⟨hw, hws⟩ := List.forall_mem_cons.mp hws
    rw [Heap.insertSorted]
    refine .bind (hbefore v w) fun first _ => ?_
    split
    · exact .bind (ih hws) fun vs hvs => .ok (List.forall_mem_cons.mpr ⟨hw, hvs⟩)
    · exact .ok (List.forall_mem_cons.mpr ⟨hv, List.forall_mem_cons.mpr ⟨hw, hws⟩⟩)

theorem gives_sorted {P : Value → Prop} {h : Heap} {reverse : Bool} {items : List Value}
    (hitems : ∀ v ∈ items, P v) : (h.sorted reverse items).Gives fun vs => ∀ v ∈ vs, P v := by
  have hsorted : Attempt.Gives (fun vs => ∀ v ∈ vs, P v)
      (items.foldlM (fun vs v => Heap.insertSorted (h.sortsBefore reverse) v vs) []) :=
    .foldlM (fun vs hvs v hv => gives_insertSorted (h.safe_sortsBefore reverse) (hitems v hv) hvs)
      (List.forall_mem_nil _)
  exact hsorted.bind fun vs hvs => .ok fun v hv => hvs v (List.mem_reverse.mp hv)

theorem gives_extremum {P : Value → Prop} {h : Heap} {op : CompareOp} {wanted : Ordering}
    {first : Value} {rest : List Value} (hfirst : P first) (hrest : ∀ v ∈ rest, P v) :
    (h.extremum op wanted first rest).Gives P := by
  refine .foldlM (fun best hbest v hv => ?_) hfirst
  refine .bind (h.safe_order op v best) fun o _ => ?_
  split
  · exact .ok (hrest v hv)
  · exact .ok hbest

/-! ### Repetition -/

theorem gives_items {P : Value → Prop} {items : Array Value} (h : ∀ v ∈ items, P v)
    (count : Int64) : (Repetition.items items count).Gives fun vs => ∀ v ∈ vs, P v := by
  rw [Repetition.items]
  split
  · exact .raise (by decide) _
  · split
    · exact .ok (by simp)
    · refine .ok fun v hv => ?_
      obtain ⟨xs, hxs, hmem⟩ := Array.mem_flatten.mp hv
      obtain ⟨_, rfl⟩ := Array.mem_replicate.mp hxs
      exact h v hmem

theorem Repetition.safe_text (s : String) (count : Int64) : (Repetition.text s count).Safe := by
  rw [Repetition.text]
  split
  · exact .raise (by decide) _
  · split <;> exact .ok trivial

/-! ### Operators -/

theorem Arithmetic.Result.safe_attempt (r : Arithmetic.Result) : (attempt r).Safe := by
  cases r with
  | ok x => exact .ok trivial
  | error fault => cases fault <;> exact .raise (by decide) _

namespace Operators

variable (h : Heap)

theorem safe_anyEqual (item : Value) (vs : List Value) : (anyEqual h item vs).Safe := by
  induction vs
  case nil => exact .ok trivial
  case cons v vs ih =>
    rw [anyEqual]
    refine .bind (h.safe_equals v item) fun equal _ => ?_
    split
    · exact .ok trivial
    · exact ih

theorem safe_contains (container item : Value) : (contains h container item).Safe := by
  delta contains
  cases container
  case str s => cases item <;> first | exact .ok trivial | exact .typeError _
  case list id => exact safe_anyEqual h item _
  case tuple id => exact safe_anyEqual h item _
  case dict id => exact .bind (h.safe_requireHashable item) fun _ _ => .ok trivial
  case range r =>
    dsimp only
    split
    · exact .ok trivial
    · split
      · exact .ok trivial
      · exact .broken
  all_goals exact .typeError _

theorem safe_compare (op : CompareOp) (a b : Value) : (compare h op a b).Safe := by
  cases op
  case eq => exact h.safe_equals a b
  case notEq => exact .bind (h.safe_equals a b) fun _ _ => .ok trivial
  case is | isNot => exact .ok trivial
  case isIn => exact safe_contains h b a
  case notIn => exact .bind (safe_contains h b a) fun _ _ => .ok trivial
  all_goals exact .bind (h.safe_order _ a b) fun _ _ => .ok trivial

theorem safe_sequenceIndex (container index : Value) : (sequenceIndex h container index).Safe := by
  rw [sequenceIndex]
  split
  · exact .ok trivial
  · exact .typeError _

theorem gives_itemAt {container index : Value} {kind : String} {length : Nat}
    {item? : Nat → Option Value} (hitem : ∀ i v, item? i = some v → v.Safe u) :
    (itemAt h container index kind length item?).Gives (Value.Safe u) := by
  refine .bind (safe_sequenceIndex h container index) fun i _ => ?_
  split
  case h_1 v hv =>
    obtain ⟨place, _, hv⟩ := Option.bind_eq_some_iff.mp hv
    exact .ok (hitem place v hv)
  case h_2 => exact .indexError _

end Operators

namespace Heap.Safe

variable {h : Heap} (hs : h.Safe u)

include hs

theorem gives_getItem (container index : Value) :
    (Operators.getItem h container index).Gives (Value.Safe u) := by
  delta Operators.getItem
  cases container
  case list id =>
    exact Operators.gives_itemAt h fun i v hv => hs.list id v (Array.mem_of_getElem? hv)
  case tuple id =>
    exact Operators.gives_itemAt h fun i v hv => hs.tuple id v (Array.mem_of_getElem? hv)
  case str s =>
    apply Operators.gives_itemAt
    intro i v hv
    obtain ⟨c, _, rfl⟩ := Option.map_eq_some_iff.mp hv
    exact trivial
  case range r =>
    apply Operators.gives_itemAt
    intro i v hv
    obtain ⟨n, _, rfl⟩ := Option.map_eq_some_iff.mp hv
    exact trivial
  case dict id =>
    refine .bind (h.safe_requireHashable index) fun _ _ => ?_
    split
    case h_1 v hv => exact .ok (Entries.Safe.getKey? (hs.dict id) hv)
    case h_2 => exact .raise (by decide) _
  all_goals exact .typeError _

theorem gives_unpack (v : Value) (count : Nat) :
    (Operators.unpack h v count).Gives fun items => ∀ v ∈ items, v.Safe u := by
  delta Operators.unpack
  simp only
  split
  case h_1 => exact .typeError _
  case h_2 it hit =>
    split
    case isTrue => exact .ok (hs.toList (hs.of? hit))
    case isFalse =>
      split
      · exact .valueError _
      · exact .valueError _

theorem gives_memberOf (l : Value) (libraryName name : String) :
    (Libraries.memberOf h l libraryName name).Gives (Value.Safe u) := by
  delta Libraries.memberOf
  cases l
  case library id =>
    simp only
    split
    case h_1 v hv => exact .ok (hs.library id _ (mem_of_lookup? hv))
    case h_2 => exact .raise (by decide) _
  all_goals exact .typeError _

end Heap.Safe

/-! ### Arguments -/

namespace Arguments

variable (args : Arguments)

theorem safe_noKeywords (function : String) : (args.noKeywords function).Safe := by
  rw [noKeywords]
  split
  · exact .ok trivial
  · exact .typeError _

theorem safe_rejectKeywords (function : String) : (args.rejectKeywords function).Safe := by
  rw [rejectKeywords]
  split
  · exact .ok trivial
  · exact .typeError _

theorem safe_none (function : String) : (args.none function).Safe := by
  rw [none.eq_def]
  split
  · exact .ok trivial
  · exact .typeError _

variable (u) in
structure Safe : Prop where
  positional : ∀ v ∈ args.positional, v.Safe u
  keywords : ∀ p ∈ args.keywords, p.2.Safe u

end Arguments

namespace Arguments.Safe

variable {args : Arguments} (ha : args.Safe u)

include ha

theorem taken (name : String) : ∀ v ∈ (args.takeKeyword name).1, v.Safe u :=
  fun _ hv => ha.keywords _ (mem_of_lookup? hv)

theorem others (name : String) : (args.takeKeyword name).2.Safe u :=
  ⟨ha.positional, fun p hp => ha.keywords p (List.mem_of_mem_eraseP hp)⟩

theorem gives_one (function : String) : (args.one function).Gives (Value.Safe u) := by
  have hpositional := ha.positional
  rw [Arguments.one.eq_def]
  split
  case h_1 v heq => exact .ok (hpositional v (by simp [heq]))
  case h_2 => exact .typeError _

theorem gives_two (function : String) :
    (args.two function).Gives fun p => p.1.Safe u ∧ p.2.Safe u := by
  have hpositional := ha.positional
  rw [Arguments.two.eq_def]
  split
  case h_1 v w heq => exact .ok ⟨hpositional v (by simp [heq]), hpositional w (by simp [heq])⟩
  case h_2 => exact .typeError _

theorem gives_between (function : String) (least most : Nat) :
    (args.between function least most).Gives fun vs => ∀ v ∈ vs, v.Safe u := by
  delta Arguments.between
  dsimp only
  split
  · exact .typeError _
  · split
    · exact .typeError _
    · exact .ok ha.positional

theorem gives_optional (function : String) :
    (args.optional function).Gives fun o => ∀ v ∈ o, v.Safe u :=
  .bind (ha.gives_between function 0 1) fun _ hvs =>
    .ok fun v hv => hvs v (List.mem_of_mem_head? hv)

end Arguments.Safe

namespace Closure.Safe

variable {c : Closure} (hc : c.Safe u)

include hc

theorem filled {slots : List (Option Value)} (hslots : ∀ slot ∈ slots, ∀ v ∈ slot, v.Safe u) :
    ∀ p ∈ c.filled slots, (p.1 = "input" → u.held) ∧ ∀ v ∈ p.2, v.Safe u := by
  intro p hp
  obtain ⟨⟨param, slot⟩, hmem, rfl⟩ := List.mem_map.mp hp
  obtain ⟨hname, hdefault⟩ := hc.params param (List.of_mem_zip hmem).1
  refine ⟨hname, fun v hv => ?_⟩
  cases slot with
  | none => exact hdefault v hv
  | some w => exact hslots _ (List.of_mem_zip hmem).2 v hv

omit hc in
theorem gives_fillKeyword {slots : List (Option Value)}
    (hslots : ∀ slot ∈ slots, ∀ v ∈ slot, v.Safe u) {keyword : String × Value}
    (hk : keyword.2.Safe u) : (c.fillKeyword slots keyword).Gives
      fun slots => ∀ slot ∈ slots, ∀ v ∈ slot, v.Safe u := by
  rw [Closure.fillKeyword]
  split
  · exact .typeError _
  · split
    · exact .typeError _
    · refine .ok fun slot hslot v hv => ?_
      obtain hslot | rfl := List.mem_or_eq_of_mem_set hslot
      · exact hslots slot hslot v hv
      · cases hv
        exact hk

-- What a call binds.
theorem gives_bindArguments {args : Arguments} (ha : args.Safe u) :
    (c.bindArguments args).Gives fun bs => ∀ p ∈ bs, (p.1 = "input" → u.held) ∧ p.2.Safe u := by
  rw [Closure.bindArguments]
  split
  · exact .typeError _
  · have hslots : ∀ slot ∈ c.positionalSlots args.positional, ∀ v ∈ slot, v.Safe u := by
      intro slot hslot v hv
      obtain hslot | hslot := List.mem_append.mp hslot
      · obtain ⟨w, hw, rfl⟩ := List.mem_map.mp hslot
        cases hv
        exact ha.positional _ hw
      · rw [List.eq_of_mem_replicate hslot] at hv
        cases hv
    refine .bind (.foldlM (A := fun slots => ∀ slot ∈ slots, ∀ v ∈ slot, v.Safe u)
      (fun slots hs k hk => gives_fillKeyword hs (ha.keywords k hk)) hslots) fun slots hs => ?_
    dsimp only
    split
    · refine .ok fun p hp => ?_
      obtain ⟨⟨name, v⟩, hmem, hbind⟩ := List.mem_filterMap.mp hp
      obtain ⟨w, hw, heq⟩ := Option.map_eq_some_iff.mp hbind
      obtain ⟨hname, hv⟩ := hc.filled hs _ hmem
      rw [← heq]
      exact ⟨hname, hv w hw⟩
    · exact .typeError _

end Closure.Safe

/-! ### Numbers -/

theorem Value.safe_ofNumber (x : Number) : (ofNumber x).Safe u := by
  cases x <;> exact trivial

namespace Builtins

variable (h : Heap)

theorem gives_floatToInt (quotient : Int → Int → Int) (x : Float) :
    (floatToInt quotient x).Gives (Value.Safe u) := by
  rw [floatToInt]
  split
  · exact .valueError _
  · split
    · exact .raise (by decide) _
    · split
      · exact .ok trivial
      · exact .raise (by decide) _

theorem gives_toInt (v : Value) : (toInt h v).Gives (Value.Safe u) := by
  delta toInt
  cases v
  case int | bool => exact .ok trivial
  case float x => exact gives_floatToInt _ x
  case str s =>
    simp only
    split
    · exact .ok trivial
    · exact .valueError _
  all_goals exact .typeError _

theorem gives_toFloat (v : Value) : (toFloat h v).Gives (Value.Safe u) := by
  delta toFloat
  split
  · split
    · exact .ok trivial
    · exact .valueError _
  · exact .ok trivial
  · exact .typeError _

theorem safe_expectNumber (function : String) (v : Value) : (expectNumber h function v).Safe := by
  rw [expectNumber]
  split
  · exact .ok trivial
  · exact .typeError _

theorem safe_expectIndex (v : Value) : (expectIndex h v).Safe := by
  rw [expectIndex]
  split
  · exact .ok trivial
  · exact .typeError _

theorem gives_roundNumber (places : Option Int64) (x : Number) :
    (roundNumber places x).Gives (Value.Safe u) := by
  cases x
  case int => exact .ok trivial
  case float x =>
    cases places
    case none => exact gives_floatToInt _ x
    case some => exact .ok trivial

theorem gives_len (v : Value) : (len h v).Gives (Value.Safe u) := by
  delta len
  -- The bounds of whole numbers are too large to be computed with.
  obtain ⟨whole?, hwhole⟩ : ∃ f, f = Whole.ofInt? := ⟨_, rfl⟩
  rw [← hwhole]
  split
  · exact .typeError _
  · split
    · exact .ok trivial
    · exact .raise (by decide) _

theorem gives_absolute (v : Value) : (absolute h v).Gives (Value.Safe u) := by
  delta absolute
  split
  · exact .bind (Arithmetic.Result.safe_attempt _) fun x _ => .ok (Value.safe_ofNumber x)
  · exact .typeError _

theorem gives_makeRange (start stop step : Int64) :
    (makeRange start stop step).Gives (Value.Safe u) := by
  rw [makeRange]
  split
  · exact .ok trivial
  · exact .valueError _

theorem gives_range (args : List Value) : (range h args).Gives (Value.Safe u) := by
  refine .bind (Attempt.Safe.mapM (safe_expectIndex h)) fun ints _ => ?_
  split
  all_goals exact gives_makeRange _ _ _

theorem gives_squareRoot (v : Value) : (squareRoot h v).Gives (Value.Safe u) := by
  refine .bind (safe_expectNumber h _ v) fun x _ => ?_
  dsimp only
  split
  · exact .valueError _
  · exact .ok trivial

theorem gives_wholeBy (name : String) (quotient : Int → Int → Int) (v : Value) :
    (wholeBy name quotient h v).Gives (Value.Safe u) := by
  refine .bind (safe_expectNumber h _ v) fun x _ => ?_
  cases x
  case int => exact .ok trivial
  case float x => exact gives_floatToInt quotient x

end Builtins

theorem Methods.safe_joinable (h : Heap) (place : Nat) (it : Iteration) :
    (joinable h place it).Safe := by
  fun_induction joinable h place it
  case case1 => exact .ok trivial
  case case2 ih => exact .bind ih fun _ _ => .ok trivial
  case case3 => exact .typeError _

end NoteCell
