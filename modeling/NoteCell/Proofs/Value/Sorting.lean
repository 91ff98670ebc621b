import Mathlib.Data.List.Sort
import NoteCell.Machine.Builtins
import NoteCell.Proofs.Machine.Actions
import NoteCell.Proofs.Value.Iterations
import NoteCell.Proofs.Value.Preorder

/-!
Sorting, and the least and greatest of some values: one order decides all of them, and values that
it does not tell apart stay as they came. So the least value is the first one of the sorted row.
-/
namespace NoteCell

/-! ### Insertion -/

section

variable {α : Type} {r : α → α → Prop} {l l' : List α} {p : α → Bool} {a last : α}

-- A relation that orders the members of a row, whatever it does elsewhere.
structure OrdersMembers (r : α → α → Prop) (l : List α) : Prop where
  total : ∀ a ∈ l, ∀ b ∈ l, r a b ∨ r b a
  trans : ∀ a ∈ l, ∀ b ∈ l, ∀ c ∈ l, r a b → r b c → r a c

theorem OrdersMembers.subset (hr : OrdersMembers r l) (hsub : l' ⊆ l) : OrdersMembers r l' where
  total a ha b hb := hr.total a (hsub ha) b (hsub hb)
  trans a ha b hb c hc := hr.trans a (hsub ha) b (hsub hb) c (hsub hc)

theorem OrdersMembers.flip (hr : OrdersMembers r l) : OrdersMembers (fun a b => r b a) l where
  total a ha b hb := hr.total b hb a ha
  trans a ha b hb c hc hab hbc := hr.trans c hc b hb a ha hbc hab

variable [DecidableRel r]

theorem OrdersMembers.pairwise_insertionSort (hr : OrdersMembers r l) :
    (l.insertionSort r).Pairwise r := by
  let s : {a // a ∈ l} → {a // a ∈ l} → Prop := fun a b => r a b
  have : DecidableRel s := fun a b => inferInstanceAs (Decidable (r a b))
  have : Std.Total s := ⟨fun a b => hr.total a a.2 b b.2⟩
  have : IsTrans _ s := ⟨fun a b c => hr.trans a a.2 b b.2 c c.2⟩
  have hmap : (l.attach.insertionSort s).map Subtype.val = l.insertionSort r := by
    rw [List.map_insertionSort s r Subtype.val _ fun _ _ _ _ => Iff.rfl,
      List.attach_map_subtype_val]
  rw [← hmap, List.pairwise_map]
  exact List.pairwise_insertionSort s _

-- Members between which the relation does not decide stay in their order.
theorem filter_insertionSort (hp : ∀ a ∈ l, ∀ b ∈ l, p a → p b → r a b) :
    (l.insertionSort r).filter p = l.filter p := by
  have htied : (l.filter p).Pairwise r := by
    refine List.pairwise_of_forall_mem_list fun a ha b hb => ?_
    rw [List.mem_filter] at ha hb
    exact hp a ha.1 b hb.1 ha.2 hb.2
  have hsublist : (l.filter p).Sublist ((l.insertionSort r).filter p) := by
    simpa using (List.sublist_insertionSort htied List.filter_sublist).filter p
  exact (hsublist.eq_of_length ((List.perm_insertionSort r l).filter p).length_eq.symm).symm

-- An inserted member becomes the last one if it does not stay before the last one.
theorem getLast?_orderedInsert (hl : l.Pairwise r)
    (htrans : ∀ b ∈ l, r a b → r b last → r a last) (hlast : l.getLast? = some last) :
    (l.orderedInsert r a).getLast? = some (if r a last then last else a) := by
  induction l
  case nil => cases hlast
  case cons b rest ih =>
    rw [List.orderedInsert_cons]
    by_cases hab : r a b
    · have halast : r a last := by
        rcases List.mem_cons.mp (List.mem_of_getLast? hlast) with rfl | hmem
        · exact hab
        · exact htrans b List.mem_cons_self hab (List.rel_of_pairwise_cons hl hmem)
      rw [if_pos hab, if_pos halast, List.getLast?_cons_cons, hlast]
    · rw [if_neg hab]
      cases rest with
      | nil =>
        obtain rfl : b = last := Option.some.inj hlast
        rw [if_neg hab]
        rfl
      | cons c rest =>
        rw [List.getLast?_cons_cons] at hlast
        rw [List.getLast?_cons, ih hl.of_cons (fun b hb => htrans b (.tail _ hb)) hlast]
        rfl

end

namespace Heap

section

variable {before : Value → Value → Attempt Bool} {v : Value} {row items : List Value}

-- A row that is sorted from its end goes on as long as a value stays.
def Stays (before : Value → Value → Attempt Bool) (v w : Value) : Prop := before v w ≠ .ok true

instance : DecidableRel (Stays before) :=
  fun v w => inferInstanceAs (Decidable (before v w ≠ .ok true))

theorem insertSorted_eq (hrow : ∀ w ∈ row, ∃ b, before v w = .ok b) :
    insertSorted before v row = .ok (row.orderedInsert (Stays before) v) := by
  induction row
  case nil => rfl
  case cons w rest ih =>
    obtain ⟨⟨b, hb⟩, hrest⟩ := List.forall_mem_cons.mp hrow
    rw [insertSorted, hb, List.orderedInsert_cons]
    cases b with
    | false =>
      have hstays : Stays before v w := by rw [Stays, hb]; nofun
      rw [if_pos hstays]
      rfl
    | true =>
      have hstays : ¬ Stays before v w := not_not_intro hb
      rw [if_neg hstays]
      change (insertSorted before v rest >>= fun row => pure (w :: row)) = _
      rw [ih hrest]
      rfl

-- The items in the row that is sorted from its end.
def fromEnd (before : Value → Value → Attempt Bool) (items : List Value) : List Value :=
  items.reverse.insertionSort (Stays before)

theorem fromEnd_concat : fromEnd before (items ++ [v])
    = (fromEnd before items).orderedInsert (Stays before) v := by
  rw [fromEnd, List.reverse_append]
  rfl

theorem perm_fromEnd : (fromEnd before items).Perm items :=
  (List.perm_insertionSort _ _).trans items.reverse_perm

theorem foldlM_insertSorted (hitems : items.Pairwise fun v w => ∃ b, before w v = .ok b) :
    items.foldlM (fun sorted v => insertSorted before v sorted) []
      = .ok (fromEnd before items) := by
  induction items using List.reverseRecOn
  case nil => rfl
  case append_singleton items v ih =>
    obtain ⟨hitems, -, hv⟩ := List.pairwise_append.mp hitems
    rw [List.foldlM_append, ih hitems, fromEnd_concat]
    refine (bind_pure _).trans (insertSorted_eq fun w hw => ?_)
    exact hv w (perm_fromEnd.mem_iff.mp hw) v List.mem_cons_self

theorem sortBy_eq (hitems : items.Pairwise fun v w => ∃ b, before w v = .ok b) :
    sortBy before items = .ok (fromEnd before items).reverse := by
  rw [sortBy, foldlM_insertSorted hitems]
  rfl

end

variable {h : Heap} {op op' : CompareOp} {reverse : Bool} {a b v w : Value} {items : List Value}
  {o : Ordering}

/-! ### The order of the items -/

theorem order_swap (ha : h.Ranked a) (ho : h.order op a b = .ok o) : h.order op' b a = .ok o.swap :=
  orderAt_swap ha.isDict ho

theorem order_op (ha : h.Ranked a) (hb : h.Ranked b) (ho : h.order op a b = .ok o) :
    h.order op' a b = .ok o := by
  have hswap : h.order op b a = .ok o.swap := order_swap ha ho
  rw [order_swap hb hswap, Ordering.swap_swap]

-- Two values of which each can be compared with the other.
def Comparable (h : Heap) (v w : Value) : Prop :=
  (h.order .less v w).isOk ∧ (h.order .less w v).isOk

instance : DecidableRel h.Comparable := fun _ _ => inferInstanceAs (Decidable (_ ∧ _))

theorem Comparable.symm (hvw : h.Comparable v w) : h.Comparable w v := And.symm hvw

instance : Std.Symm h.Comparable := ⟨fun _ _ => .symm⟩

theorem Comparable.exists_order (hvw : h.Comparable v w) : ∃ o, h.order .less v w = .ok o := by
  cases ho : h.order .less v w with
  | error f => cases ho ▸ hvw.1
  | ok o => exact ⟨o, rfl⟩

def NotLess (h : Heap) (v w : Value) : Prop := h.order .less v w ≠ .ok .lt

theorem sortsBefore_eq : h.sortsBefore reverse v w
    = (if reverse then h.order .less w v else h.order .less v w).map fun o => decide (o = .lt) := by
  cases reverse <;> rfl

theorem sortsBefore_eq_true_iff : h.sortsBefore reverse v w = .ok true
    ↔ (if reverse then h.order .less w v else h.order .less v w) = .ok .lt := by
  rw [sortsBefore_eq]
  cases (if reverse then h.order .less w v else h.order .less v w) with
  | error f => exact ⟨nofun, nofun⟩
  | ok o => simp [Except.map]

theorem stays_false : Stays (h.sortsBefore false) = h.NotLess := by
  funext v w
  exact propext (not_congr sortsBefore_eq_true_iff)

theorem stays_true : Stays (h.sortsBefore true) = fun v w => h.NotLess w v := by
  funext v w
  exact propext (not_congr sortsBefore_eq_true_iff)

theorem exists_sortsBefore (hvw : h.Comparable v w) : ∃ b, h.sortsBefore reverse w v = .ok b := by
  obtain ⟨o, ho⟩ := hvw.exists_order
  obtain ⟨p, hp⟩ := hvw.symm.exists_order
  rw [sortsBefore_eq, ho, hp]
  cases reverse <;> exact ⟨_, rfl⟩

-- Items of a row that can be sorted.
structure Sortable (h : Heap) (items : List Value) : Prop where
  ranked : ∀ v ∈ items, h.Ranked v
  comparable : items.Pairwise h.Comparable

namespace Sortable

theorem ordersMembers (hitems : h.Sortable items) : OrdersMembers h.NotLess items where
  total a ha b hb := by
    by_contra hneither
    rw [not_or, NotLess, NotLess, not_not, not_not] at hneither
    have hswap : h.order .less b a = .ok .gt := order_swap (hitems.ranked a ha) hneither.1
    cases hswap.symm.trans hneither.2
  trans a ha b hb c hc hab hbc := by
    intro hac
    rcases eq_or_ne a b with rfl | hne
    · exact hbc hac
    rcases eq_or_ne b c with rfl | hne'
    · exact hab hac
    obtain ⟨o, ho⟩ := (hitems.comparable.forall ha hb hne).exists_order
    obtain ⟨p, hp⟩ := (hitems.comparable.forall hb hc hne').exists_order
    have hranked := hitems.ranked
    have hswap : ∀ {o : Ordering}, .ok o ≠ (.ok .lt : Attempt Ordering) → o.swap ≠ .gt := by
      rintro (_ | _ | _) hne <;> first | exact absurd rfl hne | nofun
    have hcb : h.order .less c b = .ok p.swap := order_swap (hranked b hb) hp
    exact orderAt_trans (hranked c hc) (hranked b hb) (hranked a ha) hcb
      (order_swap (hranked a ha) ho) (order_swap (hranked a ha) hac) (hswap (hp ▸ hbc))
      (hswap (ho ▸ hab)) rfl

-- Items that tie with the same item tie with each other.
theorem notLess_of_tie (hitems : h.Sortable items) (hv : v ∈ items) (ha : a ∈ items)
    (hb : b ∈ items) (hva : h.order .less v a = .ok .eq) (hvb : h.order .less v b = .ok .eq) :
    h.NotLess a b := by
  intro hab
  have hranked := hitems.ranked
  have hbv : h.order .less b v = .ok .eq := order_swap (hranked v hv) hvb
  exact orderAt_trans (hranked b hb) (hranked v hv) (hranked a ha) hbv hva
    (order_swap (hranked a ha) hab) nofun nofun rfl

theorem ordersMembers_stays (hitems : h.Sortable items) (reverse : Bool) :
    OrdersMembers (Stays (h.sortsBefore reverse)) items := by
  cases reverse with
  | false => exact stays_false (h := h) ▸ hitems.ordersMembers
  | true => exact stays_true (h := h) ▸ hitems.ordersMembers.flip

theorem pairwise_fromEnd (hitems : h.Sortable items) (reverse : Bool) :
    (fromEnd (h.sortsBefore reverse) items).Pairwise (Stays (h.sortsBefore reverse)) :=
  ((hitems.ordersMembers_stays reverse).subset
    fun _ => List.mem_reverse.mp).pairwise_insertionSort

theorem pairwise_comparable_fromEnd (hitems : h.Sortable items) (reverse : Bool) :
    (fromEnd (h.sortsBefore reverse) items).Pairwise h.Comparable :=
  (perm_fromEnd.pairwise_iff Comparable.symm).mpr hitems.comparable

end Sortable

/-! ### Sorted rows -/

theorem compare_of_not_lt (ha : h.Ranked a) (hb : h.Ranked b) (hab : h.Comparable a b)
    (hnot : h.NotLess a b) : Operators.compare h .greaterEq a b = .ok true
      ∧ Operators.compare h .lessEq b a = .ok true := by
  obtain ⟨o, ho⟩ := hab.exists_order
  have hlt : o ≠ .lt := fun heq => hnot (heq ▸ ho)
  rw [Operators.compare, Operators.compare, order_op ha hb ho, order_swap ha ho]
  cases o <;> first | contradiction | exact ⟨rfl, rfl⟩

theorem compare_lessEq_iff : Operators.compare h .lessEq a b = .ok true
    ↔ ∃ o, h.order .lessEq a b = .ok o ∧ o ≠ .gt := by
  rw [Operators.compare]
  cases h.order .lessEq a b with
  | error f =>
    constructor
    · intro htrue
      cases htrue
    · rintro ⟨o, ho, -⟩
      cases ho
  | ok o =>
    change Except.ok (decide (o ≠ .gt)) = .ok true ↔ _
    rw [Except.ok.injEq, decide_eq_true_iff]
    constructor
    · intro hne
      exact ⟨o, rfl, hne⟩
    · rintro ⟨p, ho, hne⟩
      cases ho
      exact hne

-- Of two items one is at most the other, and what is at most an item is at most what that one is
-- at most, as long as the two can be compared.
structure TotallyPreordered (h : Heap) (items : List Value) : Prop where
  total : items.Pairwise fun a b =>
    Operators.compare h .lessEq a b = .ok true ∨ Operators.compare h .lessEq b a = .ok true
  trans : ∀ a ∈ items, ∀ b ∈ items, ∀ c ∈ items, h.Comparable a c →
    Operators.compare h .lessEq a b = .ok true → Operators.compare h .lessEq b c = .ok true →
    Operators.compare h .lessEq a c = .ok true

theorem Sortable.totallyPreordered (hitems : h.Sortable items) : h.TotallyPreordered items where
  total := hitems.comparable.imp_of_mem fun {a b} ha hb hab => by
    have ha := hitems.ranked a ha
    have hb := hitems.ranked b hb
    by_cases hlt : h.order .less a b = .ok .lt
    · exact .inl (compare_lessEq_iff.mpr ⟨.lt, order_op ha hb hlt, nofun⟩)
    · exact .inr (compare_of_not_lt ha hb hab hlt).2
  trans a ha b hb c hc hac hle hle' := by
    have ha := hitems.ranked a ha
    have hc := hitems.ranked c hc
    obtain ⟨o, ho, hgt⟩ := compare_lessEq_iff.mp hle
    obtain ⟨p, hp, hgt'⟩ := compare_lessEq_iff.mp hle'
    obtain ⟨q, hq⟩ := hac.exists_order
    have hq : h.order .lessEq a c = .ok q := order_op ha hc hq
    exact compare_lessEq_iff.mpr
      ⟨q, hq, orderAt_trans ha (hitems.ranked b hb) hc ho hp hq hgt hgt'⟩

-- A row of items arranged so that each compares with those behind it in some way. Items that tie
-- stand as they came.
structure Arranges (h : Heap) (op : CompareOp) (items row : List Value) : Prop where
  perm : row.Perm items
  ordered : row.Pairwise fun v w => Operators.compare h op v w = .ok true
  stable : ∀ v ∈ items, row.filter (fun w => h.order .less v w = .ok .eq)
    = items.filter (fun w => h.order .less v w = .ok .eq)

def sortedBy (reverse : Bool) : CompareOp := if reverse then .greaterEq else .lessEq

theorem Sortable.sorted (hitems : h.Sortable items) (reverse : Bool) :
    ∃ row, h.sorted reverse items = .ok row ∧ h.Arranges (sortedBy reverse) items row
      ∧ row.head? = (fromEnd (h.sortsBefore reverse) items).getLast? := by
  refine ⟨_, sortBy_eq (hitems.comparable.imp exists_sortsBefore), ⟨?_, ?_, ?_⟩, List.head?_reverse⟩
  · exact (List.reverse_perm _).trans perm_fromEnd
  · rw [List.pairwise_reverse]
    refine ((hitems.pairwise_fromEnd reverse).and
      (hitems.pairwise_comparable_fromEnd reverse)).imp_of_mem fun ha hb hab => ?_
    obtain ⟨hstays, hcomparable⟩ := hab
    rw [perm_fromEnd.mem_iff] at ha hb
    cases reverse with
    | false =>
      rw [stays_false] at hstays
      exact (compare_of_not_lt (hitems.ranked _ ha) (hitems.ranked _ hb) hcomparable hstays).2
    | true =>
      rw [stays_true] at hstays
      exact (compare_of_not_lt (hitems.ranked _ hb) (hitems.ranked _ ha) hcomparable.symm hstays).1
  · intro v hv
    have hties : ∀ a ∈ items.reverse, ∀ b ∈ items.reverse, h.order .less v a = .ok .eq →
        h.order .less v b = .ok .eq → Stays (h.sortsBefore reverse) a b := by
      intro a ha b hb hva hvb
      rw [List.mem_reverse] at ha hb
      cases reverse with
      | false => exact stays_false (h := h) ▸ hitems.notLess_of_tie hv ha hb hva hvb
      | true => exact stays_true (h := h) ▸ hitems.notLess_of_tie hv hb ha hvb hva
    rw [List.filter_reverse, fromEnd, filter_insertionSort (by simpa using hties),
      List.filter_reverse, List.reverse_reverse]

/-! ### The least and the greatest -/

theorem extremum_concat {first best : Value} {rest : List Value} {wanted : Ordering}
    (hbest : h.extremum op wanted first rest = .ok best) (ho : h.order op v best = .ok o) :
    h.extremum op wanted first (rest ++ [v]) = .ok (if o = wanted then v else best) := by
  rw [Heap.extremum, List.foldlM_append]
  change (h.extremum op wanted first rest >>= _) = _
  rw [hbest]
  change (h.order op v best >>= fun o => if o = wanted then pure v else pure best) >>= pure = _
  rw [ho]
  change (if o = wanted then pure v else pure best : Attempt Value) >>= pure = _
  split <;> rfl

-- The row that is sorted so far ends in the best item so far.
theorem Sortable.extremum {first : Value} {rest : List Value} {wanted : Ordering}
    (hwanted : ∀ v w o, h.Ranked v → h.Ranked w → h.order op v w = .ok o →
      (Stays (h.sortsBefore reverse) v w ↔ o ≠ wanted)) (hitems : h.Sortable (first :: rest)) :
    ∃ m, h.extremum op wanted first rest = .ok m
      ∧ (fromEnd (h.sortsBefore reverse) (first :: rest)).getLast? = some m := by
  induction rest using List.reverseRecOn
  case nil => exact ⟨first, rfl, rfl⟩
  case append_singleton rest v ih =>
    have hmembers := hitems.ordersMembers_stays reverse
    obtain ⟨hranked, hcomparable⟩ := hitems
    rw [← List.cons_append] at hranked hcomparable hmembers ⊢
    obtain ⟨hcomparable, -, hlast⟩ := List.pairwise_append.mp hcomparable
    have hrest : h.Sortable (first :: rest) :=
      ⟨fun u hu => hranked u (List.mem_append_left _ hu), hcomparable⟩
    obtain ⟨best, hbest, hend⟩ := ih hrest
    have hmem : best ∈ first :: rest := perm_fromEnd.mem_iff.mp (List.mem_of_getLast? hend)
    have hv : h.Ranked v := hranked v (List.mem_append_right _ List.mem_cons_self)
    obtain ⟨o, ho⟩ := (hlast best hmem v List.mem_cons_self).symm.exists_order
    have hop : h.order op v best = .ok o := order_op hv (hrest.ranked best hmem) ho
    have hstays : Stays (h.sortsBefore reverse) v best ↔ o ≠ wanted :=
      hwanted v best o hv (hrest.ranked best hmem) hop
    refine ⟨if Stays (h.sortsBefore reverse) v best then best else v, ?_, ?_⟩
    · rw [extremum_concat hbest hop]
      simp only [hstays, ne_eq, ite_not]
    · rw [fromEnd_concat]
      refine getLast?_orderedInsert (hrest.pairwise_fromEnd reverse) (fun b hb => ?_) hend
      exact hmembers.trans v (List.mem_append_right _ List.mem_cons_self) b
        (List.mem_append_left _ (perm_fromEnd.mem_iff.mp hb)) best (List.mem_append_left _ hmem)

theorem Sortable.minimum {first : Value} {rest : List Value}
    (hitems : h.Sortable (first :: rest)) : ∃ m, h.extremum .less .lt first rest = .ok m
      ∧ (fromEnd (h.sortsBefore false) (first :: rest)).getLast? = some m := by
  refine Sortable.extremum (fun v w o _ _ ho => ?_) hitems
  rw [stays_false, NotLess, ho, ne_eq, Except.ok.injEq]

theorem Sortable.maximum {first : Value} {rest : List Value}
    (hitems : h.Sortable (first :: rest)) : ∃ m, h.extremum .greater .gt first rest = .ok m
      ∧ (fromEnd (h.sortsBefore true) (first :: rest)).getLast? = some m := by
  refine Sortable.extremum (fun v w o hv hw ho => ?_) hitems
  rw [stays_true]
  change h.order .less w v ≠ .ok .lt ↔ _
  rw [order_swap hv ho]
  cases o <;> decide

end Heap

/-! ### Calls -/

-- A world with one more list.
def World.withList (w : World) (row : List Value) : World :=
  { w with heap := { w.heap with lists := w.heap.lists.push row.toArray } }

theorem World.list_withList {w : World} {id : Nat} (row : List Value)
    (hid : id < w.heap.lists.size) : (w.withList row).heap.list id = w.heap.list id := by
  simp [World.withList, Heap.list, Array.getElem?_push, hid.ne]

namespace Builtins

variable {w : World} {v m first : Value} {items rest row : List Value}

theorem run_sorted (reverse : Option Value) (hitems : w.heap.itemsOf v = .ok items)
    (hrow : w.heap.sorted (reverse.any w.heap.isTrue) items = .ok row) :
    (call .sorted ⟨[v], reverse.toList.map fun r => ("reverse", r)⟩).run.run w
      = (.ok (.list w.heap.lists.size), w.withList row) := by
  have hkeywords : Arguments.takeKeyword ⟨[v], reverse.toList.map fun r => ("reverse", r)⟩ "reverse"
      = (reverse, ⟨[v], []⟩) := by
    cases reverse <;> simp [Arguments.takeKeyword, lookup?]
  change (sorted _).run.run w = _
  rw [sorted, hkeywords]
  change (Action.lift (.ok ()) >>= fun _ => Action.lift (.ok v) >>= fun v => Action.heap >>= fun h =>
    Action.lift (h.itemsOf v) >>= fun items =>
      Action.lift (h.sorted (reverse.any h.isTrue) items) >>= fun row =>
        Action.newList row.toArray).run.run w = _
  rw [Action.run_lift_bind, Action.run_lift_bind, Action.run_heap_bind, hitems,
    Action.run_lift_bind, hrow, Action.run_lift_bind]
  rfl

theorem run_extremum {name : String} {op : CompareOp} {wanted : Ordering}
    (hitems : w.heap.itemsOf v = .ok (first :: rest))
    (hm : w.heap.extremum op wanted first rest = .ok m) :
    (extremum name op wanted ⟨[v], []⟩).run.run w = (.ok m, w) := by
  change (Action.lift (w.heap.itemsOf v) >>= _).run.run w = _
  rw [hitems]
  change (Action.lift (w.heap.extremum op wanted first rest)).run.run w = _
  rw [hm]
  rfl

-- Sorting a list in either direction, and its least and greatest items, go by the same order. The
-- list itself stays as it is.
theorem sorted_spec {id : Nat} (hid : id < w.heap.lists.size)
    (hitems : w.heap.Sortable (w.heap.list id).toList) :
    w.heap.TotallyPreordered (w.heap.list id).toList
      ∧ ∃ up down, w.heap.Arranges .lessEq (w.heap.list id).toList up
        ∧ w.heap.Arranges .greaterEq (w.heap.list id).toList down
        ∧ (call .sorted ⟨[.list id], []⟩).run.run w
          = (.ok (.list w.heap.lists.size), w.withList up)
        ∧ (call .sorted ⟨[.list id], [("reverse", .bool true)]⟩).run.run w
          = (.ok (.list w.heap.lists.size), w.withList down)
        ∧ (w.withList up).heap.list id = w.heap.list id
        ∧ (w.withList down).heap.list id = w.heap.list id
        ∧ ((w.heap.list id).toList ≠ [] →
          (∃ m, up.head? = some m ∧ (call .min ⟨[.list id], []⟩).run.run w = (.ok m, w))
          ∧ ∃ m, down.head? = some m ∧ (call .max ⟨[.list id], []⟩).run.run w = (.ok m, w)) := by
  obtain ⟨up, hup, harranges, hhead⟩ := hitems.sorted false
  obtain ⟨down, hdown, harranges', hhead'⟩ := hitems.sorted true
  have hlist := w.heap.itemsOf_list id
  refine ⟨hitems.totallyPreordered, up, down, harranges, harranges', run_sorted none hlist hup,
    run_sorted (some (.bool true)) hlist hdown, World.list_withList up hid,
    World.list_withList down hid, fun hne => ?_⟩
  obtain ⟨first, rest, hcons⟩ := List.exists_cons_of_ne_nil hne
  rw [hcons] at hitems hhead hhead' hlist
  obtain ⟨m, hm, hlast⟩ := hitems.minimum
  obtain ⟨m', hm', hlast'⟩ := hitems.maximum
  exact ⟨⟨m, hhead.trans hlast, run_extremum hlist hm⟩,
    m', hhead'.trans hlast', run_extremum hlist hm'⟩

-- `[[1, "b"], [True, "a"], [1.0, "a"], []]`
theorem sorted_spec_rows :
    let w : World := ⟨{ Heap.empty with
      lists := #[#[.list 1, .list 2, .list 3, .list 4], #[.int 1, .str "b"],
        #[.bool true, .str "a"], #[.float 1.0, .str "a"], #[]] }, [], false⟩
    ∃ up, w.heap.Arranges .lessEq [.list 1, .list 2, .list 3, .list 4] up
      ∧ (call .sorted ⟨[.list 0], []⟩).run.run w = (.ok (.list 5), w.withList up)
      ∧ ∃ m, up.head? = some m ∧ (call .min ⟨[.list 0], []⟩).run.run w = (.ok m, w) := by
  intro w
  have hparts : ∀ v ∈ (w.heap.list 0).toList, (v.isDict = false ∧ v.isNaN = false)
      ∧ ∀ u ∈ w.heap.items v, u.isLeaf ∧ u.isDict = false ∧ u.isNaN = false := by
    decide +kernel
  have hitems : w.heap.Sortable (w.heap.list 0).toList :=
    ⟨fun v hv => .of_items_isLeaf (hparts v hv).1 (hparts v hv).2, by decide +kernel⟩
  obtain ⟨-, up, _, hup, -, hrun, -, -, -, hextremes⟩ := sorted_spec (by decide) hitems
  exact ⟨up, hup, hrun, (hextremes nofun).1⟩

end Builtins
end NoteCell
