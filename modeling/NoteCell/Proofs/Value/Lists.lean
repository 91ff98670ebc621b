import NoteCell.Machine.Methods
import NoteCell.Proofs.Machine.Actions
import NoteCell.Proofs.Value.Equality
import NoteCell.Proofs.Value.Ranges

/-!
Lists as sequences. An index in range names one place, for reading, setting and taking out alike,
and whatever can be gone through can be put at the end, the list itself too. An operation has all
that it needs before it changes a list, so one that fails has changed nothing.
-/
namespace NoteCell

/-! ### Places -/

namespace Index

-- An index is within a row of `n` items from `-n` on and below `n`.
def Within (i : Int) (n : Nat) : Prop := -n ≤ i ∧ i < n

-- Below zero it counts from the end.
def place (i : Int) (n : Nat) : Nat := (if i < 0 then n + i else i).toNat

variable {i : Int64} {n : Nat}

theorem place_lt (hi : Within i.toInt n) : place i.toInt n < n := by
  obtain ⟨hlow, hhigh⟩ := hi
  rw [place]
  split <;> omega

theorem position?_of_within (hn : n < 2 ^ 63) (hi : Within i.toInt n) :
    position? i n = some (place i.toInt n) := by
  refine position?_eq_some hn (place_lt hi) ?_
  obtain ⟨hlow, hhigh⟩ := hi
  rw [place]
  split <;> omega

theorem position?_of_not_within (hi : ¬ Within i.toInt n) : position? i n = none := by
  rw [Within] at hi
  exact position?_eq_none (by omega)

end Index

/-! ### The items of one list -/

namespace World

-- A list that is there gets other items.
def setList (w : World) (id : Nat) (row : List Value) : World :=
  { w with heap := { w.heap with lists := w.heap.lists.modify id fun _ => row.toArray } }

-- Whoever holds a list sees its new items. What is held, by names and in rows and dicts, stays.
structure Shares (w : World) (id : Nat) (row : List Value) (w' : World) : Prop where
  items : w'.heap.items (.list id) = row
  others : ∀ v ≠ .list id, w'.heap.items v = w.heap.items v
  entries : ∀ d, w'.heap.dict d = w.heap.dict d
  names : ∀ scope name, w'.heap.binding? scope name = w.heap.binding? scope name

variable {w : World} {id : Nat}

theorem list_setList (hid : id < w.heap.lists.size) (row : List Value) (j : Nat) :
    (w.setList id row).heap.list j = if id = j then row.toArray else w.heap.list j := by
  simp only [setList, Heap.list, Array.getD_eq_getD_getElem?, Array.getElem?_modify]
  split
  case isTrue heq =>
    subst heq
    simp [hid]
  case isFalse => rfl

theorem shares_setList (hid : id < w.heap.lists.size) (row : List Value) :
    Shares w id row (w.setList id row) where
  items := by rw [Heap.items, list_setList hid, if_pos rfl]
  others v hv := by
    cases v
    case list j =>
      have hj : id ≠ j := fun h => hv (h ▸ rfl)
      rw [Heap.items, list_setList hid, if_neg hj, Heap.items]
    all_goals rfl
  entries _ := rfl
  names := Heap.binding?_congr (show (w.setList id row).heap.scopes = w.heap.scopes from rfl)

end World

namespace Action

variable {α β : Type}

theorem run_changeList (id : Nat) (f : Array Value → Array Value) (w : World) :
    (changeList id f).run.run w = (.ok (), w.setList id (f (w.heap.list id)).toList) := by
  have hlists : w.heap.lists.modify id f
      = w.heap.lists.modify id fun _ => (f (w.heap.list id)).toList.toArray := by
    apply Array.ext
    · simp
    · intro j hj _
      rw [Array.getElem_modify, Array.getElem_modify]
      split
      case isTrue heq =>
        subst heq
        simp [Heap.list, (Array.size_modify ..) ▸ hj]
      case isFalse => rfl
  rw [changeList, run_change, hlists]
  rfl

/-! ### All or nothing -/

-- An action that leaves the world as it is.
def Steady (act : Action α) : Prop := ∀ w, (act.run.run w).2 = w

-- An action that leaves the world as it is where it fails.
def Atomic (act : Action α) : Prop := ∀ w f w', act.run.run w = (.error f, w') → w' = w

namespace Steady

theorem pure (x : α) : Steady (Pure.pure x) := fun _ => rfl

theorem lift (attempt : Attempt α) : Steady (lift attempt) := fun _ => rfl

theorem heap : Steady heap := fun _ => rfl

theorem bind {a : Action α} {k : α → Action β} (ha : Steady a) (hk : ∀ x, Steady (k x)) :
    Steady (a >>= k) := by
  intro w
  have ha := ha w
  rw [run_bind]
  revert ha
  rcases a.run.run w with ⟨_ | x, w'⟩
  · exact fun h => h
  · rintro rfl
    exact hk x _

theorem typeName (v : Value) : Steady (typeName v) := heap.bind fun _ => .pure _

theorem look (f : Heap → Attempt α) : Steady (look f) := heap.bind fun _ => .lift _

theorem atomic {a : Action α} (ha : Steady a) : Atomic a := by
  intro w f w' h
  have := ha w
  rw [h] at this
  exact this

end Steady

-- What only looks may come before, and what cannot fail after.
theorem Atomic.bind {a : Action α} {k : α → Action β} (ha : Steady a) (hk : ∀ x, Atomic (k x)) :
    Atomic (a >>= k) := by
  intro w f w' h
  have ha := ha w
  rw [run_bind] at h
  revert ha h
  rcases a.run.run w with ⟨e | x, w''⟩
  · rintro h rfl
    exact (Prod.mk.inj h).2.symm
  · rintro h rfl
    exact hk x _ f w' h

theorem atomic_changeList_return (id : Nat) (f : Array Value → Array Value) (x : α) :
    Atomic (do changeList id f; return x) := nofun

end Action

/-! ### What can be put in -/

namespace Heap

-- The items that a value gives in their order, if it can be gone through.
def given? (h : Heap) : Value → Option (List Value)
  | .list id => some (h.list id).toList
  | .tuple id => some (h.tuple id).toList
  | .str s => some (s.toList.map fun c => .str (String.singleton c))
  | .dict id => some ((h.dict id).map (·.1))
  | .range r => some ((List.range r.length).map fun i => .int (Int64.ofInt (r.item i)))
  | _ => none

variable {h : Heap} {v : Value} {items : List Value}

theorem itemsOf_of_given? (hv : h.given? v = some items) : h.itemsOf v = .ok items := by
  cases v <;> simp only [given?, Option.some.injEq, reduceCtorEq] at hv <;> subst hv
  case str s => exact congrArg Except.ok (Iteration.toList_items _)
  case list id => exact h.itemsOf_list id
  case tuple id => exact h.itemsOf_tuple id
  case dict id => exact h.itemsOf_dict id
  case range r => exact h.itemsOf_range r

theorem itemsOf_of_given?_eq_none (hv : h.given? v = none) :
    h.itemsOf v = .typeError ("'" ++ h.typeName v ++ "' object is not iterable") := by
  cases v <;> first | rfl | cases hv

end Heap

/-! ### Operations -/

namespace Operators

variable {w : World} {id : Nat} {index v : Value} {i : Int64}

theorem getItem_list (h : Heap) (id : Nat) (hindex : index.index? = some i) :
    getItem h (.list id) index = match position? i (h.list id).size >>= ((h.list id)[·]?) with
      | some item => .ok item
      | none => .indexError "list index out of range" := by
  rw [getItem, itemAt, sequenceIndex, hindex]
  rfl

theorem run_setItem_list (hindex : index.index? = some i) :
    (setItem (.list id) index v).run.run w = match position? i (w.heap.list id).size with
      | some k => (.ok (), w.setList id ((w.heap.list id).toList.set k v))
      | none => (.error (.raised ⟨.indexError, "list assignment index out of range"⟩), w) := by
  rw [setItem, Action.run_heap_bind]
  dsimp only
  rw [sequenceIndex, hindex]
  change ((match position? i (w.heap.list id).size with
    | some place => Action.changeList id (·.setIfInBounds place v)
    | none => .indexError "list assignment index out of range") : Action Unit).run.run w = _
  cases position? i (w.heap.list id).size with
  | none => rfl
  | some k => rw [Action.run_changeList, Array.toList_setIfInBounds]

-- `xs[index]`
def read (id : Nat) (index : Value) : Action Value := .look (getItem · (.list id) index)

theorem run_read (hindex : index.index? = some i) : (read id index).run.run w
    = match position? i (w.heap.list id).size >>= ((w.heap.list id)[·]?) with
      | some item => (.ok item, w)
      | none => (.error (.raised ⟨.indexError, "list index out of range"⟩), w) := by
  have hrun : (read id index).run.run w = (getItem w.heap (.list id) index, w) := rfl
  rw [hrun, getItem_list _ _ hindex]
  split <;> rfl

theorem run_extendList (id : Nat) (more : List Value) (w : World) : (extendList id more).run.run w
    = (.ok (), w.setList id ((w.heap.list id).toList ++ more)) := by
  rw [extendList, Action.run_changeList, Array.toList_append]

-- All items are there before the first is put in.
theorem run_extendList_look (id : Nat) (v x : Value) (w : World) :
    (do extendList id (← .look (·.itemsOf v)); return x : Action Value).run.run w
      = match w.heap.itemsOf v with
        | .ok more => (.ok x, w.setList id ((w.heap.list id).toList ++ more))
        | .error f => (.error f, w) := by
  have hrun : (do extendList id (← .look (·.itemsOf v)); return x : Action Value).run.run w
      = (do extendList id (← .lift (w.heap.itemsOf v)); return x : Action Value).run.run w := rfl
  rw [hrun]
  cases w.heap.itemsOf v with
  | error f => rfl
  | ok more =>
    rw [Action.run_lift_bind, Action.run_bind, run_extendList]
    rfl

theorem atomic_setItem_list (id : Nat) (index v : Value) : (setItem (.list id) index v).Atomic := by
  refine .bind .heap fun h => .bind (.lift _) fun i => ?_
  split
  · exact nofun
  · exact (Action.Steady.lift _).atomic

theorem atomic_augmented_list (id : Nat) (v : Value) : (augmented .add (.list id) v).Atomic :=
  .bind (.look _) fun _ => Action.atomic_changeList_return id _ _

end Operators

namespace Methods

variable {index : Value} {i : Int64}

-- `xs.name(args)`
def onList (id : Nat) (name : String) (args : List Value) : Action Value :=
  call ⟨.list id, name⟩ ⟨args, []⟩

theorem run_append (id : Nat) (v : Value) (w : World) : (onList id "append" [v]).run.run w
    = (.ok .nothing, w.setList id ((w.heap.list id).toList ++ [v])) := by
  have hrun : (onList id "append" [v]).run.run w
      = (do Action.changeList id (·.push v); return .nothing : Action Value).run.run w := rfl
  rw [hrun, Action.run_bind, Action.run_changeList, Array.toList_push]
  rfl

-- Without an index the last item is taken out.
theorem pop_last (id : Nat) : onList id "pop" [] = onList id "pop" [.int (-1)] := rfl

theorem run_pop (id : Nat) (hindex : index.index? = some i) (w : World) :
    (onList id "pop" [index]).run.run w = match position? i (w.heap.list id).size with
      | some k => (.ok ((w.heap.list id).getD k .nothing),
        w.setList id ((w.heap.list id).toList.eraseIdx k))
      | none => (.error (.raised ⟨.indexError, if (w.heap.list id).isEmpty
        then "pop from empty list" else "pop index out of range"⟩), w) := by
  have hgiven : Option.mapM expectIndex (some index) = Pure.pure (some i) := by
    rw [Option.mapM_some, expectIndex, hindex]
    rfl
  have hrun : (onList id "pop" [index]).run.run w = (pop id ⟨[index], []⟩).run.run w := rfl
  have hoptional : Arguments.optional ⟨[index], []⟩ "pop" = .ok (some index) := rfl
  rw [hrun, pop, hoptional, Action.run_lift_bind, hgiven, pure_bind, Action.run_heap_bind]
  dsimp only [Option.getD_some]
  split
  case isTrue hempty =>
    have hnone : position? i (w.heap.list id).size = none := by
      rw [Array.isEmpty_iff.mp hempty]
      exact Index.position?_of_not_within fun hi => absurd (Index.place_lt hi) (Nat.not_lt_zero _)
    rw [hnone]
    rfl
  case isFalse =>
    cases position? i (w.heap.list id).size with
    | none => rfl
    | some k =>
      dsimp only
      rw [Action.run_bind, Action.run_changeList, Array.toList_eraseIdxIfInBounds]
      rfl

theorem steady_expectIndex (v : Value) : (expectIndex v).Steady := by
  delta expectIndex
  split
  · exact .pure _
  · exact (Action.Steady.typeName v).bind fun _ => .lift _

theorem atomic_pop (id : Nat) (args : Arguments) : (pop id args).Atomic := by
  refine .bind (.lift _) fun given => .bind ?_ fun index => .bind .heap fun h => ?_
  · cases given with
    | none => exact .pure _
    | some v => exact (steady_expectIndex v).bind fun _ => .pure _
  · dsimp only
    split
    · exact (Action.Steady.lift _).atomic
    · split
      · exact (Action.Steady.lift _).atomic
      · exact Action.atomic_changeList_return id _ _

theorem atomic_call_list (id : Nat) (name : String) (args : Arguments) :
    (call ⟨.list id, name⟩ args).Atomic := by
  refine .bind (.lift _) fun _ => ?_
  dsimp only
  delta callList
  split
  · exact .bind (.lift _) fun _ => Action.atomic_changeList_return id _ _
  · exact .bind (.lift _) fun _ => .bind (.look _) fun _ => Action.atomic_changeList_return id _ _
  · exact atomic_pop id args

end Methods

/-! ### Laws -/

open Operators Methods

-- What a whole number does as the index of a list. No list is longer than can be addressed.
structure IndexLaws (w : World) (id : Nat) (items : List Value) (index : Value) (i : Int) :
    Prop where
  inside : Index.Within i items.length → items.length < 2 ^ 63 →
    ∃ item, items[Index.place i items.length]? = some item
      ∧ (read id index).run.run w = (.ok item, w)
      ∧ (∀ v, (setItem (.list id) index v).run.run w
        = (.ok (), w.setList id (items.set (Index.place i items.length) v)))
      ∧ (onList id "pop" [index]).run.run w
        = (.ok item, w.setList id (items.eraseIdx (Index.place i items.length)))
  outside : ¬ Index.Within i items.length →
    (read id index).run.run w = (.error (.raised ⟨.indexError, "list index out of range"⟩), w)
      ∧ (∀ v, (setItem (.list id) index v).run.run w
        = (.error (.raised ⟨.indexError, "list assignment index out of range"⟩), w))
      ∧ (onList id "pop" [index]).run.run w = (.error (.raised ⟨.indexError,
        if items.isEmpty then "pop from empty list" else "pop index out of range"⟩), w)

-- What puts items at the end of a list. The list itself is a value that gives its items.
structure GrowthLaws (w : World) (id : Nat) (items : List Value) : Prop where
  append : ∀ v, (onList id "append" [v]).run.run w = (.ok .nothing, w.setList id (items ++ [v]))
  extend : ∀ v more, w.heap.given? v = some more →
    (onList id "extend" [v]).run.run w = (.ok .nothing, w.setList id (items ++ more))
  augment : ∀ v more, w.heap.given? v = some more →
    (augmented .add (.list id) v).run.run w = (.ok (.list id), w.setList id (items ++ more))
  itself : w.heap.given? (.list id) = some items
  refused : ∀ v, w.heap.given? v = none →
    (onList id "extend" [v]).run.run w
        = (.error (.raised ⟨.typeError, "'" ++ w.heap.typeName v ++ "' object is not iterable"⟩), w)
      ∧ (augmented .add (.list id) v).run.run w
        = (.error (.raised ⟨.typeError, "'" ++ w.heap.typeName v ++ "' object is not iterable"⟩), w)

-- Storing what `+=` gives back is an operation on what holds the list.
structure ListLaws (w : World) (id : Nat) (items : List Value) : Prop where
  indexed : ∀ index i, index.index? = some i → IndexLaws w id items index i.toInt
  last : onList id "pop" [] = onList id "pop" [.int (-1)]
  grown : GrowthLaws w id items
  shared : ∀ row, w.Shares id row (w.setList id row)
  kept : (∀ index, (read id index).Atomic) ∧ (∀ index v, (setItem (.list id) index v).Atomic)
    ∧ (∀ v, (augmented .add (.list id) v).Atomic)
    ∧ ∀ name args, (call ⟨.list id, name⟩ args).Atomic

variable {w : World} {id : Nat} {index : Value} {i : Int64}

theorem indexLaws_list (w : World) (id : Nat) (hindex : index.index? = some i) :
    IndexLaws w id (w.heap.items (.list id)) index i.toInt where
  inside hi hlength := by
    change Index.Within i.toInt (w.heap.list id).size at hi
    change (w.heap.list id).size < 2 ^ 63 at hlength
    have hplace := Index.position?_of_within hlength hi
    have hlt := Index.place_lt hi
    refine ⟨(w.heap.list id)[Index.place i.toInt (w.heap.list id).size], ?_, ?_, fun v => ?_, ?_⟩
    · exact List.getElem?_eq_getElem hlt
    · rw [run_read hindex, hplace, Option.bind_eq_bind, Option.bind_some,
        Array.getElem?_eq_getElem hlt]
    · rw [run_setItem_list hindex, hplace]
      rfl
    · rw [run_pop id hindex, hplace]
      dsimp only
      rw [Array.getD_eq_getD_getElem?, Array.getElem?_eq_getElem hlt]
      rfl
  outside hi := by
    change ¬ Index.Within i.toInt (w.heap.list id).size at hi
    have hplace := Index.position?_of_not_within hi
    refine ⟨?_, fun v => ?_, ?_⟩
    · rw [run_read hindex, hplace]
      rfl
    · rw [run_setItem_list hindex, hplace]
    · rw [run_pop id hindex, hplace, ← Array.isEmpty_toList]
      rfl

theorem growthLaws_list (w : World) (id : Nat) :
    GrowthLaws w id (w.heap.items (.list id)) where
  append v := run_append id v w
  extend v more hmore := by
    have hrun := run_extendList_look id v .nothing w
    rw [Heap.itemsOf_of_given? hmore] at hrun
    exact hrun
  augment v more hmore := by
    have hrun := run_extendList_look id v (.list id) w
    rw [Heap.itemsOf_of_given? hmore] at hrun
    exact hrun
  itself := rfl
  refused v hv := by
    have hrun (x : Value) := run_extendList_look id v x w
    simp only [Heap.itemsOf_of_given?_eq_none hv] at hrun
    exact ⟨hrun .nothing, hrun (.list id)⟩

theorem listLaws_list (hid : id < w.heap.lists.size) :
    ListLaws w id (w.heap.items (.list id)) where
  indexed _ _ := indexLaws_list w id
  last := pop_last id
  grown := growthLaws_list w id
  shared := World.shares_setList hid
  kept := ⟨fun _ => (Action.Steady.look _).atomic, atomic_setItem_list id,
    atomic_augmented_list id, atomic_call_list id⟩

-- The least index of all is far before the first item.
theorem listLaws_three :
    let w : World := ⟨{ Heap.empty with lists := #[#[.int 1, .int 2, .int 3]] }, [], false⟩
    0 < w.heap.lists.size
      ∧ (setItem (.list 0) (.int (-1)) .nothing).run.run w
        = (.ok (), w.setList 0 [.int 1, .int 2, .nothing])
      ∧ (read 0 (.int Int64.minValue)).run.run w
        = (.error (.raised ⟨.indexError, "list index out of range"⟩), w)
      ∧ (onList 0 "extend" [.list 0]).run.run w
        = (.ok .nothing, w.setList 0 [.int 1, .int 2, .int 3, .int 1, .int 2, .int 3]) := by
  intro w
  have hlaws : ListLaws w 0 [.int 1, .int 2, .int 3] := listLaws_list (by decide)
  have hlast := hlaws.indexed (.int (-1)) (-1) rfl
  have hleast := hlaws.indexed (.int Int64.minValue) Int64.minValue rfl
  obtain ⟨item, -, -, hset, -⟩ := hlast.inside ⟨by decide, by decide⟩ (by decide)
  exact ⟨by decide, hset .nothing, (hleast.outside fun hi => absurd hi.1 (by decide)).1,
    hlaws.grown.extend _ _ hlaws.grown.itself⟩

end NoteCell
