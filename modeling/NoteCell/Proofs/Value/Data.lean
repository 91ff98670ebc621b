import NoteCell.Proofs.Number.Negation
import NoteCell.Proofs.Value.Dicts

/-!
Data: scalars that have a literal, and lists, tuples and dicts of them. Data keeps its meaning as the
heap grows. A copy of data has the same types and scalars at every place, made of objects of its own;
it is hashed, compared and found among keys as what it copies is, and it is equal to it.
-/
namespace NoteCell

-- What a literal, or a literal behind a minus sign, can be written for.
def Value.isScalar : Value → Bool
  | nothing | bool _ | str _ => true
  | int n => n ≠ Int64.minValue
  | float x => x.isFinite
  | _ => false

namespace Value

variable {v : Value}

theorem isLeaf_of_isScalar (hv : v.isScalar) : v.isLeaf := by
  cases v
  case list | tuple | dict => cases hv
  all_goals rfl

theorem not_isNaN_of_isScalar (hv : v.isScalar) : v.isNaN = false := by
  cases v
  case float x => exact Double.not_isNaN_of_isFinite hv
  all_goals rfl

end Value

namespace Heap

/-! ### Growing heaps -/

-- All lists, tuples and dicts stay what they were.
structure Extends (h h' : Heap) : Prop where
  lists : h.lists.toList <+: h'.lists.toList
  tuples : h.tuples.toList <+: h'.tuples.toList
  dicts : h.dicts.toList <+: h'.dicts.toList

section

variable {α : Type} {xs ys : Array α} {i : Nat}

theorem size_le_of_prefixed (h : xs.toList <+: ys.toList) : xs.size ≤ ys.size := h.length_le

theorem getD_of_prefixed (h : xs.toList <+: ys.toList) (hi : i < xs.size) (d : α) :
    ys.getD i d = xs.getD i d := by
  have hget : ys[i]? = xs[i]? := by
    rw [← Array.getElem?_toList, ← Array.getElem?_toList]
    obtain ⟨zs, hzs⟩ := h
    rw [← hzs, List.getElem?_append_left hi]
  rw [Array.getD_eq_getD_getElem?, Array.getD_eq_getD_getElem?, hget]

end

variable {h h' h₁ h₂ h₃ : Heap} {u v w : Value} {n id : Nat}

namespace Extends

theorem refl (h : Heap) : h.Extends h := ⟨List.prefix_refl _, List.prefix_refl _, List.prefix_refl _⟩

theorem trans (h₁₂ : h₁.Extends h₂) (h₂₃ : h₂.Extends h₃) : h₁.Extends h₃ :=
  ⟨h₁₂.lists.trans h₂₃.lists, h₁₂.tuples.trans h₂₃.tuples, h₁₂.dicts.trans h₂₃.dicts⟩

theorem list_eq (h₁₂ : h₁.Extends h₂) (hid : id < h₁.lists.size) : h₂.list id = h₁.list id :=
  getD_of_prefixed h₁₂.lists hid _

theorem tuple_eq (h₁₂ : h₁.Extends h₂) (hid : id < h₁.tuples.size) : h₂.tuple id = h₁.tuple id :=
  getD_of_prefixed h₁₂.tuples hid _

theorem dict_eq (h₁₂ : h₁.Extends h₂) (hid : id < h₁.dicts.size) : h₂.dict id = h₁.dict id :=
  getD_of_prefixed h₁₂.dicts hid _

theorem newList (h : Heap) (items : Array Value) :
    h.Extends { h with lists := h.lists.push items } where
  lists := ⟨[items], by simp⟩
  tuples := List.prefix_refl _
  dicts := List.prefix_refl _

theorem newTuple (h : Heap) (items : Array Value) :
    h.Extends { h with tuples := h.tuples.push items } where
  lists := List.prefix_refl _
  tuples := ⟨[items], by simp⟩
  dicts := List.prefix_refl _

theorem newDict (h : Heap) (entries : Entries) :
    h.Extends { h with dicts := h.dicts.push entries } where
  lists := List.prefix_refl _
  tuples := List.prefix_refl _
  dicts := ⟨[entries], by simp⟩

end Extends

theorem items_push_tuple (h : Heap) (row : Array Value) :
    { h with tuples := h.tuples.push row }.items (.tuple h.tuples.size) = row.toList := by
  simp [items, Heap.tuple]

/-! ### Data -/

-- Scalars, and containers at most so many levels deep. The keys of a dict are all different.
inductive Data (h : Heap) : Nat → Value → Prop
  | scalar (n : Nat) {v : Value} (hv : v.isScalar) : Data h n v
  | list {n id : Nat} (hid : id < h.lists.size) (hitems : ∀ w ∈ h.items (.list id), Data h n w) :
    Data h (n + 1) (.list id)
  | tuple {n id : Nat} (hid : id < h.tuples.size) (hitems : ∀ w ∈ h.items (.tuple id), Data h n w) :
    Data h (n + 1) (.tuple id)
  | dict {n id : Nat} (hid : id < h.dicts.size)
    (hhashable : ∀ e ∈ h.dict id, h.requireHashable e.1 = .ok ())
    (hdistinct : (h.dict id).Pairwise fun e f => h.sameKey e.1 f.1 = false)
    (hkeys : ∀ e ∈ h.dict id, Data h n e.1) (hvalues : ∀ e ∈ h.dict id, Data h n e.2) :
    Data h (n + 1) (.dict id)

namespace Data

theorem mono {m : Nat} (hv : h.Data n v) (hle : n ≤ m) : h.Data m v := by
  induction hv generalizing m
  case scalar hv => exact .scalar m hv
  all_goals obtain ⟨m, rfl⟩ : ∃ k, m = k + 1 := ⟨m - 1, by omega⟩
  case list hid _ ih => exact .list hid fun w hw => ih w hw (by omega)
  case tuple hid _ ih => exact .tuple hid fun w hw => ih w hw (by omega)
  case dict hid hhashable hdistinct _ _ ihkeys ihvalues =>
    exact .dict hid hhashable hdistinct (fun e he => ihkeys e he (by omega))
      fun e he => ihvalues e he (by omega)

theorem nestsWithin (hv : h.Data n v) : h.NestsWithin n v := by
  induction hv
  case scalar hv => exact .of_items_eq_nil (items_eq_nil_of_isLeaf (Value.isLeaf_of_isScalar hv))
  case list ih | tuple ih => exact .of_items ih
  case dict => exact .of_items_eq_nil rfl

theorem throughout_isNaN (hv : h.Data n v) : h.Throughout (·.isNaN = false) v := by
  induction hv
  case scalar hv =>
    refine .of_items (Value.not_isNaN_of_isScalar hv) ?_
    rw [items_eq_nil_of_isLeaf (Value.isLeaf_of_isScalar hv)]
    exact List.forall_mem_nil _
  case list ih | tuple ih => exact .of_items rfl ih
  case dict => exact .of_items rfl (List.forall_mem_nil _)

theorem isKey (hv : h.Data n v) (hn : n ≤ nestingLimit) (hhashable : h.requireHashable v = .ok ()) :
    h.IsKey v :=
  ⟨hhashable, hv.throughout_isNaN, hv.nestsWithin.mono hn⟩

end Data

/-! ### Copies -/

-- The same scalars in containers of the same types and lengths, from one heap to another.
inductive Copies (h h' : Heap) : Value → Value → Prop
  | scalar {v : Value} (hv : v.isScalar) : Copies h h' v v
  | list {i j : Nat} (hi : i < h.lists.size) (hj : j < h'.lists.size)
    (hlength : (h.items (.list i)).length = (h'.items (.list j)).length)
    (hitems : ∀ p ∈ (h.items (.list i)).zip (h'.items (.list j)), Copies h h' p.1 p.2) :
    Copies h h' (.list i) (.list j)
  | tuple {i j : Nat} (hi : i < h.tuples.size) (hj : j < h'.tuples.size)
    (hlength : (h.items (.tuple i)).length = (h'.items (.tuple j)).length)
    (hitems : ∀ p ∈ (h.items (.tuple i)).zip (h'.items (.tuple j)), Copies h h' p.1 p.2) :
    Copies h h' (.tuple i) (.tuple j)
  | dict {i j : Nat} (hi : i < h.dicts.size) (hj : j < h'.dicts.size)
    (hlength : (h.dict i).length = (h'.dict j).length)
    (hkeys : ∀ p ∈ (h.dict i).zip (h'.dict j), Copies h h' p.1.1 p.2.1)
    (hvalues : ∀ p ∈ (h.dict i).zip (h'.dict j), Copies h h' p.1.2 p.2.2) :
    Copies h h' (.dict i) (.dict j)

-- An entry and its copy.
def CopiesEntry (h h' : Heap) (e e' : Value × Value) : Prop :=
  h.Copies h' e.1 e'.1 ∧ h.Copies h' e.2 e'.2

namespace Copies

theorem items (hvw : h.Copies h' v w) : List.Forall₂ (h.Copies h') (h.items v) (h'.items w) := by
  cases hvw with
  | scalar hv =>
    rw [items_eq_nil_of_isLeaf (Value.isLeaf_of_isScalar hv),
      items_eq_nil_of_isLeaf (Value.isLeaf_of_isScalar hv)]
    exact .nil
  | list _ _ hlength hitems | tuple _ _ hlength hitems =>
    exact List.forall₂_iff_zip.mpr ⟨hlength, fun hab => hitems _ hab⟩
  | dict => exact .nil

theorem entries {i j : Nat} (hvw : h.Copies h' (.dict i) (.dict j)) :
    List.Forall₂ (h.CopiesEntry h') (h.dict i) (h'.dict j) := by
  cases hvw with
  | scalar hv => cases hv
  | dict _ _ hlength hkeys hvalues =>
    exact List.forall₂_iff_zip.mpr ⟨hlength, fun hab => ⟨hkeys _ hab, hvalues _ hab⟩⟩

theorem eq_of_isScalar (hv : v.isScalar) (hvw : h.Copies h' v w) : w = v := by
  cases hvw with
  | scalar => rfl
  | list | tuple | dict => cases hv

theorem eq_list {i : Nat} (hvw : h.Copies h' (.list i) w) : ∃ j, w = .list j ∧ j < h'.lists.size := by
  cases hvw with
  | scalar hv => cases hv
  | list _ hj => exact ⟨_, rfl, hj⟩

theorem eq_tuple {i : Nat} (hvw : h.Copies h' (.tuple i) w) :
    ∃ j, w = .tuple j ∧ j < h'.tuples.size := by
  cases hvw with
  | scalar hv => cases hv
  | tuple _ hj => exact ⟨_, rfl, hj⟩

theorem eq_dict {i : Nat} (hvw : h.Copies h' (.dict i) w) : ∃ j, w = .dict j ∧ j < h'.dicts.size := by
  cases hvw with
  | scalar hv => cases hv
  | dict _ hj => exact ⟨_, rfl, hj⟩

theorem of_items_list {i j : Nat} (hi : i < h.lists.size) (hj : j < h'.lists.size)
    (hitems : List.Forall₂ (h.Copies h') (h.items (.list i)) (h'.items (.list j))) :
    h.Copies h' (.list i) (.list j) :=
  .list hi hj hitems.length_eq fun _ hp => List.forall₂_zip hitems hp

theorem of_items_tuple {i j : Nat} (hi : i < h.tuples.size) (hj : j < h'.tuples.size)
    (hitems : List.Forall₂ (h.Copies h') (h.items (.tuple i)) (h'.items (.tuple j))) :
    h.Copies h' (.tuple i) (.tuple j) :=
  .tuple hi hj hitems.length_eq fun _ hp => List.forall₂_zip hitems hp

theorem of_entries {i j : Nat} (hi : i < h.dicts.size) (hj : j < h'.dicts.size)
    (hentries : List.Forall₂ (h.CopiesEntry h') (h.dict i) (h'.dict j)) :
    h.Copies h' (.dict i) (.dict j) :=
  .dict hi hj hentries.length_eq (fun _ hp => (List.forall₂_zip hentries hp).1)
    fun _ hp => (List.forall₂_zip hentries hp).2

-- Neither heap has to stay what it is.
theorem grow (hvw : h₁.Copies h₂ v w) {h₁' h₂' : Heap} (hleft : h₁.Extends h₁')
    (hright : h₂.Extends h₂') : h₁'.Copies h₂' v w := by
  induction hvw
  case scalar hv => exact .scalar hv
  case list i j hi hj hlength _ ih =>
    have hrows : h₁'.items (.list i) = h₁.items (.list i) ∧ h₂'.items (.list j) = h₂.items (.list j) :=
      ⟨congrArg Array.toList (hleft.list_eq hi), congrArg Array.toList (hright.list_eq hj)⟩
    refine .list (hi.trans_le (size_le_of_prefixed hleft.lists))
      (hj.trans_le (size_le_of_prefixed hright.lists)) ?_ ?_
    · rw [hrows.1, hrows.2, hlength]
    · rw [hrows.1, hrows.2]
      exact ih
  case tuple i j hi hj hlength _ ih =>
    have hrows : h₁'.items (.tuple i) = h₁.items (.tuple i)
        ∧ h₂'.items (.tuple j) = h₂.items (.tuple j) :=
      ⟨congrArg Array.toList (hleft.tuple_eq hi), congrArg Array.toList (hright.tuple_eq hj)⟩
    refine .tuple (hi.trans_le (size_le_of_prefixed hleft.tuples))
      (hj.trans_le (size_le_of_prefixed hright.tuples)) ?_ ?_
    · rw [hrows.1, hrows.2, hlength]
    · rw [hrows.1, hrows.2]
      exact ih
  case dict i j hi hj hlength _ _ ihkeys ihvalues =>
    have hrows := And.intro (hleft.dict_eq hi) (hright.dict_eq hj)
    refine .dict (hi.trans_le (size_le_of_prefixed hleft.dicts))
      (hj.trans_le (size_le_of_prefixed hright.dicts)) ?_ ?_ ?_
    · rw [hrows.1, hrows.2, hlength]
    · rw [hrows.1, hrows.2]
      exact ihkeys
    · rw [hrows.1, hrows.2]
      exact ihvalues

end Copies

theorem CopiesEntry.grow {e e' : Value × Value} (he : h₁.CopiesEntry h₂ e e') {h₁' h₂' : Heap}
    (hleft : h₁.Extends h₁') (hright : h₂.Extends h₂') : h₁'.CopiesEntry h₂' e e' :=
  ⟨he.1.grow hleft hright, he.2.grow hleft hright⟩

-- Data is a copy of itself.
theorem Data.copies (hv : h.Data n v) : h.Copies h v v := by
  induction hv
  case scalar hv => exact .scalar hv
  case list hid _ ih => exact .of_items_list hid hid (List.forall₂_same.mpr ih)
  case tuple hid _ ih => exact .of_items_tuple hid hid (List.forall₂_same.mpr ih)
  case dict hid _ _ _ _ ihkeys ihvalues =>
    exact .of_entries hid hid (List.forall₂_same.mpr fun e he => ⟨ihkeys e he, ihvalues e he⟩)

/-! ### Keys and their copies -/

section

variable {eq eq' : Value → Value → Attempt Bool} {R : Value → Value → Prop}

-- Rows that stand for other rows are compared as those are.
theorem allEqual_of_rows {as as' bs bs' : List Value}
    (heq : ∀ a a' b b', R a a' → R b b' → eq' a' b' = eq a b) (has : List.Forall₂ R as as')
    (hbs : List.Forall₂ R bs bs') : allEqual eq' as' bs' = allEqual eq as bs := by
  induction has generalizing bs bs'
  case nil => cases hbs <;> rfl
  case cons ha _ ih =>
    cases hbs with
    | nil => rfl
    | cons hb hbs => rw [allEqual, allEqual, heq _ _ _ _ ha hb, ih hbs]

theorem itemsEqual_of_rows {as as' bs bs' : Array Value}
    (heq : ∀ a a' b b', R a a' → R b b' → eq' a' b' = eq a b)
    (has : List.Forall₂ R as.toList as'.toList) (hbs : List.Forall₂ R bs.toList bs'.toList) :
    itemsEqual eq' as' bs' = itemsEqual eq as bs := by
  have hsizes : as.size = as'.size ∧ bs.size = bs'.size := ⟨has.length_eq, hbs.length_eq⟩
  rw [itemsEqual, itemsEqual, allEqual_of_rows heq has hbs, hsizes.1, hsizes.2]

end

theorem leavesEqual_of_isScalar (hv : v.isScalar) (h h' : Heap) :
    h'.leavesEqual v w = h.leavesEqual v w := by
  cases v
  case method => cases hv
  case float => cases w <;> rfl
  all_goals rfl

theorem leavesEqual_tuple (hv : v.isScalar) (h : Heap) (i : Nat) :
    h.leavesEqual v (.tuple i) = false := by
  cases v
  case nothing | bool | int | float | str => rfl
  all_goals cases hv

theorem isHashableAt_of_isScalar (hv : v.isScalar) (h : Heap) (room : Nat) :
    h.isHashableAt room v = .ok () := by
  cases v
  case nothing | bool | int | float | str => cases room <;> rfl
  all_goals cases hv

theorem equalsAt_tuple_scalar {same : Value → Value → Bool} {room : Nat} (hv : v.isScalar) (h : Heap)
    (i : Nat) : h.equalsAt same (room + 1) (.tuple i) v = .ok false := by
  have htuples : ∀ k j, Value.tuple i = .tuple k → v ≠ .tuple j := by
    rintro k j - rfl
    cases hv
  have hlists : ∀ k j, Value.tuple i = .list k → v ≠ .list j := fun _ _ h => nomatch h
  have hdicts : ∀ k j, Value.tuple i = .dict k → v ≠ .dict j := fun _ _ h => nomatch h
  rw [equalsAt_leaves hlists htuples hdicts, leavesEqual_comm, leavesEqual_tuple hv]

namespace Copies

variable {same same' : Value → Value → Bool} {room : Nat} {a a' b b' : Value}

theorem isHashableAt (hvw : h.Copies h' v w) (hv : h.isHashableAt room v = .ok ()) :
    h'.isHashableAt room w = .ok () := by
  induction room generalizing v w
  case zero =>
    cases hvw with
    | scalar hscalar => exact isHashableAt_of_isScalar hscalar h' 0
    | list | tuple | dict => rw [Heap.isHashableAt] at hv; cases hv
  case succ room ih =>
    have hrow := hvw.items
    cases hvw with
    | scalar hscalar => exact isHashableAt_of_isScalar hscalar h' (room + 1)
    | list | dict => rw [Heap.isHashableAt] at hv; cases hv
    | tuple =>
      refine Attempt.forM_eq_ok_iff.mpr (forall_mem_right (forall₂_imp_mem ?_ hrow))
      exact fun a ha b _ hab => ih hab (Attempt.forM_eq_ok_iff.mp hv a ha)

theorem requireHashable (hvw : h.Copies h' v w) (hv : h.requireHashable v = .ok ()) :
    h'.requireHashable w = .ok () :=
  hvw.isHashableAt hv

-- What cannot change is compared as what it copies is.
theorem equalsAt_eq (ha : h.Throughout (·.isMutable = false) a)
    (hb : h.Throughout (·.isMutable = false) b) (haa : h.Copies h' a a') (hbb : h.Copies h' b b') :
    h'.equalsAt same' room a' b' = h.equalsAt same room a b := by
  induction room generalizing a a' b b'
  case zero => rfl
  case succ room ih =>
    have hself := And.intro ha.self hb.self
    have hrows := And.intro haa.items hbb.items
    cases haa with
    | list | dict => cases hself.1
    | scalar hscalar =>
      have hleaf := Value.isLeaf_of_isScalar hscalar
      rw [equalsAt_of_isLeaf hleaf, equalsAt_of_isLeaf hleaf]
      cases hbb with
      | list | dict => cases hself.2
      | scalar => rw [leavesEqual_of_isScalar hscalar h h']
      | tuple => rw [leavesEqual_tuple hscalar, leavesEqual_tuple hscalar]
    | tuple =>
      cases hbb with
      | list | dict => cases hself.2
      | scalar hscalar => rw [equalsAt_tuple_scalar hscalar, equalsAt_tuple_scalar hscalar]
      | tuple =>
        rw [equalsAt_tuples, equalsAt_tuples]
        refine itemsEqual_of_rows (R := fun u w => h.Throughout (·.isMutable = false) u ∧ h.Copies h' u w)
          (fun _ _ _ _ hu hw => ih hu.1 hw.1 hu.2 hw.2) ?_ ?_
        · exact forall₂_imp_mem (fun u hu w _ huw => ⟨ha.item hu, huw⟩) hrows.1
        · exact forall₂_imp_mem (fun u hu w _ huw => ⟨hb.item hu, huw⟩) hrows.2

theorem sameKey_eq (ha : h.requireHashable a = .ok ()) (hb : h.requireHashable b = .ok ())
    (haa : h.Copies h' a a') (hbb : h.Copies h' b b') : h'.sameKey a' b' = h.sameKey a b := by
  have hequal : h'.equals a' b' = h.equals a b :=
    equalsAt_eq (throughout_of_hashable ha) (throughout_of_hashable hb) haa hbb
  rw [Heap.sameKey_eq hb, Heap.sameKey_eq (hbb.requireHashable hb), isEqual, isEqual, hequal]

end Copies

-- What holds of the pairs of a row holds of those of another that stands for it.
theorem pairwise_of_forall₂ {α β : Type} {R : α → β → Prop} {S : α → α → Prop} {T : β → β → Prop}
    {as : List α} {bs : List β} (h : List.Forall₂ R as bs)
    (hST : ∀ a b a' b', R a b → R a' b' → S a a' → T b b') (has : as.Pairwise S) : bs.Pairwise T := by
  induction h
  case nil => exact .nil
  case cons hab hrest ih =>
    obtain ⟨ha, has⟩ := List.pairwise_cons.mp has
    refine .cons (forall_mem_right (forall₂_imp_mem ?_ hrest)) (ih has)
    exact fun a' ha' b' _ hab' => hST _ _ _ _ hab hab' (ha a' ha')

-- A copy of data is data.
theorem Data.copy (hv : h.Data n v) (hvw : h.Copies h' v w) : h'.Data n w := by
  induction hv generalizing w
  case scalar n v hv =>
    rw [hvw.eq_of_isScalar hv]
    exact .scalar n hv
  case list ih =>
    have hrow := hvw.items
    obtain ⟨j, rfl, hj⟩ := hvw.eq_list
    exact .list hj (forall_mem_right (forall₂_imp_mem (fun a ha b _ hab => ih a ha hab) hrow))
  case tuple ih =>
    have hrow := hvw.items
    obtain ⟨j, rfl, hj⟩ := hvw.eq_tuple
    exact .tuple hj (forall_mem_right (forall₂_imp_mem (fun a ha b _ hab => ih a ha hab) hrow))
  case dict hhashable hdistinct _ _ ihkeys ihvalues =>
    obtain ⟨j, rfl, hj⟩ := hvw.eq_dict
    have hrow := hvw.entries
    refine .dict hj ?_ ?_ ?_ ?_
    · exact forall_mem_right (forall₂_imp_mem
        (fun e he e' _ hcopy => hcopy.1.requireHashable (hhashable e he)) hrow)
    · refine pairwise_of_forall₂ (forall₂_imp_mem (S := fun e e' =>
        h.requireHashable e.1 = .ok () ∧ h.CopiesEntry h' e e') ?_ hrow) ?_ hdistinct
      · exact fun e he e' _ hcopy => ⟨hhashable e he, hcopy⟩
      · rintro e e' f f' ⟨he, hcopy⟩ ⟨hf, hcopy'⟩ hother
        rw [hcopy.1.sameKey_eq he hf hcopy'.1, hother]
    · exact forall_mem_right (forall₂_imp_mem (fun e he e' _ hcopy => ihkeys e he hcopy.1) hrow)
    · exact forall_mem_right (forall₂_imp_mem (fun e he e' _ hcopy => ihvalues e he hcopy.2) hrow)

/-! ### New keys -/

theorem insert_append {same : Value → Value → Bool} {entries : Entries} {key value : Value}
    (hnew : ∀ e ∈ entries, same e.1 key = false) :
    Entries.insert same key value entries = entries ++ [(key, value)] := by
  induction entries
  case nil => rfl
  case cons e entries ih =>
    obtain ⟨he, hnew⟩ := List.forall_mem_cons.mp hnew
    rw [Entries.insert, if_neg (by rw [he]; decide), ih hnew, List.cons_append]

-- A key that is not the same as any before it goes to the end.
theorem insertKey_append {entries : Entries} {key value : Value}
    (hhashable : h.requireHashable key = .ok ()) (hnew : ∀ e ∈ entries, h.sameKey e.1 key = false) :
    h.insertKey entries key value = .ok (entries ++ [(key, value)]) := by
  rw [insertKey, hhashable, ← insert_append hnew]
  rfl

/-! ### Equality -/

-- An entry is found under its own key, when no other has the same.
theorem find?_of_pairwise {same : Value → Value → Bool} {entries : Entries}
    (hdistinct : entries.Pairwise fun e f => same e.1 f.1 = false)
    (hself : ∀ e ∈ entries, same e.1 e.1) {e : Value × Value} (he : e ∈ entries) :
    List.find? (fun f => same f.1 e.1) entries = some e := by
  induction hdistinct
  case nil => cases he
  case cons f entries hf _ ih =>
    rw [List.find?_cons]
    cases he with
    | head => rw [hself _ List.mem_cons_self]
    | tail _ he =>
      rw [hf e he]
      exact ih (fun e he => hself e (.tail _ he)) he

theorem find?_of_forall₂ {α : Type} {R : α → α → Prop} {p q : α → Bool} {as bs : List α}
    (h : List.Forall₂ R as bs) (hpq : ∀ a b, R a b → q b = p a) {a : α} (ha : as.find? p = some a) :
    ∃ b, bs.find? q = some b ∧ R a b := by
  induction h
  case nil => cases ha
  case cons a' b' as bs hab _ ih =>
    rw [List.find?_cons] at ha ⊢
    rw [hpq a' b' hab]
    cases hp : p a' with
    | true =>
      rw [hp] at ha
      exact ⟨b', rfl, Option.some.inj ha ▸ hab⟩
    | false =>
      rw [hp] at ha
      exact ih ha

theorem entriesEqual_of_found {same : Value → Value → Bool} {eq : Value → Value → Attempt Bool}
    {entries others : Entries} (h : ∀ e ∈ others,
      ∃ f, List.find? (fun f => same f.1 e.1) entries = some f ∧ eq e.2 f.2 = .ok true) :
    entriesEqual same eq entries others = .ok true := by
  induction others
  case nil => rfl
  case cons e others ih =>
    obtain ⟨he, hothers⟩ := List.forall_mem_cons.mp h
    obtain ⟨f, hfind, hequal⟩ := he
    rw [entriesEqual, hfind]
    dsimp only
    rw [hequal]
    exact ih hothers

-- Data is equal to its copies.
theorem Data.equalsAt_copy (hv : h.Data n v) (hn : n ≤ nestingLimit) (hvw : h.Copies h v w) :
    h.equalsAt h.sameKey (n + 1) v w = .ok true := by
  induction hv generalizing w
  case scalar n v hv =>
    obtain ⟨e, he⟩ := exists_essence? (h := h) (Value.not_isNaN_of_isScalar hv)
    rw [hvw.eq_of_isScalar hv, equalsAt_of_isLeaf (Value.isLeaf_of_isScalar hv),
      leavesEqual_iff.mpr ⟨e, he, he⟩]
  case list ih =>
    have hrow := hvw.items
    obtain ⟨j, rfl, -⟩ := hvw.eq_list
    rw [equalsAt]
    split
    · rfl
    · refine itemsEqual_eq_true_iff.mpr (forall₂_imp_mem ?_ hrow)
      exact fun a ha b _ hab => ih a ha (by omega) hab
  case tuple ih =>
    have hrow := hvw.items
    obtain ⟨j, rfl, -⟩ := hvw.eq_tuple
    refine itemsEqual_eq_true_iff.mpr (forall₂_imp_mem ?_ hrow)
    exact fun a ha b _ hab => ih a ha (by omega) hab
  case dict n i _ hhashable hdistinct hkeys _ _ ihvalues =>
    obtain ⟨j, rfl, -⟩ := hvw.eq_dict
    have hself : ∀ e ∈ h.dict i, h.sameKey e.1 e.1 := fun e he => by
      rw [Heap.sameKey_eq (hhashable e he)]
      exact h.keyLaws.refl ((hkeys e he).isKey (by omega) (hhashable e he))
    have hrow : List.Forall₂ (fun e e' => e ∈ h.dict i ∧ h.CopiesEntry h e e') (h.dict i) (h.dict j) :=
      forall₂_imp_mem (fun e he e' _ hcopy => ⟨he, hcopy⟩) hvw.entries
    rw [equalsAt]
    simp only [if_pos hrow.length_eq]
    split
    · rfl
    · refine entriesEqual_of_found fun e he => ?_
      obtain ⟨f, hfind, -, hcopy⟩ := find?_of_forall₂ (q := fun f => h.sameKey f.1 e.1) hrow
        (fun f f' hf => hf.2.1.sameKey_eq (hhashable f hf.1) (hhashable e he) (hkeys e he).copies)
        (find?_of_pairwise hdistinct hself he)
      exact ⟨f, hfind, ihvalues e he (by omega) hcopy.2⟩

theorem Data.equals_copy (hv : h.Data n v) (hn : n ≤ nestingLimit) (hvw : h.Copies h v w) :
    h.equals v w = .ok true :=
  equalsAt_mono (hv.equalsAt_copy hn hvw) (by omega)

end Heap
end NoteCell
