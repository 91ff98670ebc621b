import NoteCell.Proofs.Number.Order
import NoteCell.Value.Equality

/-!
Equality of values, as the comparison decides it: symmetric and transitive, reflexive where nothing
is a NaN, and given back whenever values do not nest too deeply.
-/
namespace NoteCell

/-! ### Parts -/

-- What can change, and so is not hashable.
def Value.isMutable : Value → Bool
  | list _ | dict _ => true
  | _ => false

def Value.isDict : Value → Bool
  | dict _ => true
  | _ => false

-- What holds nothing.
def Value.isLeaf : Value → Bool
  | list _ | tuple _ | dict _ => false
  | _ => true

def Value.isNaN : Value → Bool
  | float x => x.isNaN
  | _ => false

theorem Attempt.forM_eq_ok_iff {α : Type} {f : α → Attempt PUnit} {l : List α} :
    l.forM f = .ok () ↔ ∀ a ∈ l, f a = .ok () := by
  induction l
  case nil => exact ⟨fun _ => List.forall_mem_nil _, fun _ => rfl⟩
  case cons a l ih =>
    rw [List.forM, List.forall_mem_cons, ← ih]
    cases ha : f a with
    | ok => exact (and_iff_right rfl).symm
    | error e => exact ⟨nofun, fun hl => nomatch hl.1⟩

namespace Heap

variable (h : Heap)

def items : Value → List Value
  | .list id => (h.list id).toList
  | .tuple id => (h.tuple id).toList
  | _ => []

-- A value stands so many levels deep in another.
inductive Part : Nat → Value → Value → Prop
  | self (v : Value) : Part 0 v v
  | item {depth : Nat} {v w u : Value} (hw : w ∈ h.items v) (hu : Part depth w u) :
    Part (depth + 1) v u

def Throughout (p : Value → Prop) (v : Value) : Prop := ∀ depth u, h.Part depth v u → p u

def NestsWithin (limit : Nat) (v : Value) : Prop := ∀ depth u, h.Part depth v u → depth ≤ limit

variable {h} {p : Value → Prop} {v w : Value} {limit : Nat}

theorem items_eq_nil_of_isLeaf (hv : v.isLeaf) : h.items v = [] := by
  cases v
  case list | tuple | dict => cases hv
  all_goals rfl

namespace Throughout

theorem self (hv : h.Throughout p v) : p v := hv 0 v (.self v)

theorem item (hv : h.Throughout p v) (hw : w ∈ h.items v) : h.Throughout p w :=
  fun depth u hu => hv (depth + 1) u (.item hw hu)

theorem imp {q : Value → Prop} (hpq : ∀ u, p u → q u) (hv : h.Throughout p v) :
    h.Throughout q v :=
  fun depth u hu => hpq u (hv depth u hu)

theorem of_items (hv : p v) (hitems : ∀ w ∈ h.items v, h.Throughout p w) : h.Throughout p v := by
  intro depth u hu
  cases hu with
  | self => exact hv
  | item hw hu => exact hitems _ hw _ u hu

theorem of_items_isLeaf (hv : p v) (hitems : ∀ w ∈ h.items v, w.isLeaf ∧ p w) :
    h.Throughout p v := by
  refine .of_items hv fun w hw => .of_items (hitems w hw).2 ?_
  rw [items_eq_nil_of_isLeaf (hitems w hw).1]
  exact List.forall_mem_nil _

end Throughout

namespace NestsWithin

theorem item (hv : h.NestsWithin (limit + 1) v) (hw : w ∈ h.items v) : h.NestsWithin limit w :=
  fun depth u hu => Nat.le_of_succ_le_succ (hv (depth + 1) u (.item hw hu))

theorem items_eq_nil (hv : h.NestsWithin 0 v) : h.items v = [] := by
  cases hitems : h.items v with
  | nil => rfl
  | cons w rest =>
    have hw : w ∈ h.items v := hitems ▸ List.mem_cons_self
    have := hv 1 w (.item hw (.self w))
    omega

theorem of_items (hitems : ∀ w ∈ h.items v, h.NestsWithin limit w) :
    h.NestsWithin (limit + 1) v := by
  intro depth u hu
  cases hu with
  | self => exact Nat.zero_le _
  | item hw hu => exact Nat.succ_le_succ (hitems _ hw _ u hu)

theorem of_items_eq_nil (hitems : h.items v = []) : h.NestsWithin limit v := by
  intro depth u hu
  cases hu with
  | self => exact Nat.zero_le _
  | item hw hu =>
    rw [hitems] at hw
    cases hw

theorem mono {limit' : Nat} (hv : h.NestsWithin limit v) (hle : limit ≤ limit') :
    h.NestsWithin limit' v :=
  fun depth u hu => Nat.le_trans (hv depth u hu) hle

end NestsWithin

/-! ### Hashable values -/

theorem isDict_eq_false (hv : v.isMutable = false) : v.isDict = false := by
  cases v
  case dict => cases hv
  all_goals rfl

variable {room : Nat}

-- A hashable value has hashable items and cannot change.
theorem isHashableAt_cases (hv : h.isHashableAt room v = .ok ()) :
    v.isMutable = false ∧ (h.items v = [] ∨ ∃ room', room = room' + 1 ∧
      ∀ w ∈ h.items v, h.isHashableAt room' w = .ok ()) := by
  cases v
  case list | dict => rw [isHashableAt.eq_def] at hv; cases hv
  case tuple id =>
    cases room with
    | zero => rw [isHashableAt] at hv; cases hv
    | succ room' => exact ⟨rfl, .inr ⟨room', rfl, Attempt.forM_eq_ok_iff.mp hv⟩⟩
  all_goals exact ⟨rfl, .inl rfl⟩

theorem throughout_of_hashable (hv : h.isHashableAt room v = .ok ()) :
    h.Throughout (·.isMutable = false) v := by
  induction room generalizing v
  case zero =>
    obtain ⟨hself, hitems | ⟨_, hroom, _⟩⟩ := isHashableAt_cases hv
    · exact .of_items hself (by simp [hitems])
    · cases hroom
  case succ room ih =>
    obtain ⟨hself, hitems | ⟨_, hroom, hitems⟩⟩ := isHashableAt_cases hv
    · exact .of_items hself (by simp [hitems])
    · cases hroom
      exact .of_items hself fun w hw => ih (hitems w hw)

theorem nestsWithin_of_hashable (hv : h.isHashableAt room v = .ok ()) : h.NestsWithin room v := by
  induction room generalizing v
  case zero =>
    obtain ⟨-, hitems | ⟨_, hroom, _⟩⟩ := isHashableAt_cases hv
    · exact .of_items_eq_nil hitems
    · cases hroom
  case succ room ih =>
    obtain ⟨-, hitems | ⟨_, hroom, hitems⟩⟩ := isHashableAt_cases hv
    · exact .of_items_eq_nil hitems
    · cases hroom
      exact .of_items fun w hw => ih (hitems w hw)

end Heap

/-! ### Numbers -/

noncomputable def Value.amount? (v : Value) : Option EReal := v.number?.bind Number.value?

theorem Value.isNaN_eq_false_iff {v : Value} :
    v.isNaN = false ↔ v.number? = none ∨ ∃ x, v.amount? = some x := by
  cases v
  case float x =>
    have hnan : Number.value? (.float x) = none ↔ x.isNaN := Number.value?_eq_none_iff
    rw [isNaN, ← Bool.not_eq_true, ← hnan, ← ne_eq, Option.ne_none_iff_exists']
    exact (or_iff_right nofun).symm
  case bool | int => exact ⟨fun _ => .inr ⟨_, rfl⟩, fun _ => rfl⟩
  all_goals exact ⟨fun _ => .inl rfl, fun _ => rfl⟩

theorem numbersEqual_iff {a b : Value} :
    numbersEqual a b ↔ ∃ x, a.amount? = some x ∧ b.amount? = some x := by
  rw [numbersEqual, Value.amount?, Value.amount?]
  cases a.number? with
  | none => simp
  | some m =>
    cases b.number? with
    | none => simp
    | some n =>
      simp only [Option.bind_some, decide_eq_true_eq]
      cases hm : m.value? with
      | none =>
        rw [Number.compare?_eq_none (.inl (Number.value?_eq_none_iff.mp hm))]
        simp
      | some x =>
        cases hn : n.value? with
        | none =>
          rw [Number.compare?_eq_none (.inr (Number.value?_eq_none_iff.mp hn))]
          simp
        | some y =>
          rw [Number.compare?_eq_some hm hn, Option.some_inj, compare_eq_iff_eq]
          constructor
          · rintro rfl
            exact ⟨x, rfl, rfl⟩
          · rintro ⟨z, hx, hy⟩
            exact (Option.some.inj hx).trans (Option.some.inj hy).symm

/-! ### Rows of items -/

section

variable {eq eq' : Value → Value → Attempt Bool} {as bs : List Value} {r : Bool}

theorem allEqual_eq_true_iff (hlength : as.length = bs.length) :
    allEqual eq as bs = .ok true ↔ List.Forall₂ (fun a b => eq a b = .ok true) as bs := by
  induction as generalizing bs
  case nil =>
    obtain rfl := List.length_eq_zero_iff.mp hlength.symm
    exact ⟨fun _ => .nil, fun _ => rfl⟩
  case cons a as ih =>
    cases bs with
    | nil => cases hlength
    | cons b bs =>
      rw [List.forall₂_cons, ← ih (Nat.succ.inj hlength), allEqual]
      cases eq a b with
      | error e => exact ⟨nofun, nofun⟩
      | ok equal =>
        cases equal with
        | false => exact ⟨nofun, nofun⟩
        | true => exact ⟨fun h => ⟨rfl, h⟩, And.right⟩

theorem itemsEqual_eq_true_iff {as bs : Array Value} : itemsEqual eq as bs = .ok true ↔
    List.Forall₂ (fun a b => eq a b = .ok true) as.toList bs.toList := by
  rw [itemsEqual]
  split
  case isTrue hsize => exact allEqual_eq_true_iff hsize
  case isFalse hsize => exact ⟨nofun, fun h => absurd h.length_eq hsize⟩

theorem allEqual_returns (heq : ∀ a ∈ as, ∀ b ∈ bs, ∃ r, eq a b = .ok r) :
    ∃ r, allEqual eq as bs = .ok r := by
  induction as generalizing bs
  case nil => exact ⟨true, rfl⟩
  case cons a as ih =>
    cases bs with
    | nil => exact ⟨true, rfl⟩
    | cons b bs =>
      obtain ⟨equal, hab⟩ := heq a List.mem_cons_self b List.mem_cons_self
      rw [allEqual, hab]
      cases equal with
      | false => exact ⟨false, rfl⟩
      | true => exact ih fun a ha b hb => heq a (.tail _ ha) b (.tail _ hb)

theorem itemsEqual_returns {as bs : Array Value}
    (heq : ∀ a ∈ as.toList, ∀ b ∈ bs.toList, ∃ r, eq a b = .ok r) :
    ∃ r, itemsEqual eq as bs = .ok r := by
  rw [itemsEqual]
  split
  · exact allEqual_returns heq
  · exact ⟨false, rfl⟩

-- Turned around, and with another way to compare items that gives the same.
theorem allEqual_comm (heq : ∀ a ∈ as, ∀ b ∈ bs, eq a b = eq' b a) :
    allEqual eq as bs = allEqual eq' bs as := by
  induction as generalizing bs
  case nil => cases bs <;> rfl
  case cons a as ih =>
    cases bs with
    | nil => rfl
    | cons b bs =>
      rw [allEqual, allEqual, heq a List.mem_cons_self b List.mem_cons_self,
        ih fun a ha b hb => heq a (.tail _ ha) b (.tail _ hb)]

theorem itemsEqual_comm {as bs : Array Value}
    (heq : ∀ a ∈ as.toList, ∀ b ∈ bs.toList, eq a b = eq' b a) :
    itemsEqual eq as bs = itemsEqual eq' bs as := by
  rw [itemsEqual, itemsEqual, allEqual_comm heq]
  simp only [eq_comm (a := as.size)]

theorem entriesEqual_mono {same : Value → Value → Bool} {entries others : Entries}
    (heq : ∀ a b r, eq a b = .ok r → eq' a b = .ok r)
    (h : entriesEqual same eq entries others = .ok r) :
    entriesEqual same eq' entries others = .ok r := by
  induction others
  case nil => exact h
  case cons e rest ih =>
    rw [entriesEqual] at h ⊢
    split at h
    · exact h
    case h_2 other _ =>
      cases hvalue : eq e.2 other with
      | error e => rw [hvalue] at h; cases h
      | ok equal =>
        rw [heq _ _ _ hvalue]
        rw [hvalue] at h
        cases equal with
        | false => exact h
        | true => exact ih h

theorem allEqual_mono (heq : ∀ a b r, eq a b = .ok r → eq' a b = .ok r)
    (h : allEqual eq as bs = .ok r) : allEqual eq' as bs = .ok r := by
  induction as generalizing bs
  case nil => exact h
  case cons a as ih =>
    cases bs with
    | nil => exact h
    | cons b bs =>
      rw [allEqual] at h ⊢
      cases hab : eq a b with
      | error e => rw [hab] at h; cases h
      | ok equal =>
        rw [heq a b equal hab]
        rw [hab] at h
        cases equal with
        | false => exact h
        | true => exact ih h

theorem itemsEqual_mono {as bs : Array Value} (heq : ∀ a b r, eq a b = .ok r → eq' a b = .ok r)
    (h : itemsEqual eq as bs = .ok r) : itemsEqual eq' as bs = .ok r := by
  rw [itemsEqual] at h ⊢
  split at h
  case isTrue hsize => rw [if_pos hsize]; exact allEqual_mono heq h
  case isFalse hsize => rw [if_neg hsize]; exact h

-- A row compared with itself fails at the first item that does.
theorem allEqual_self_error {e : Failure} (heq : ∀ a ∈ as, eq a a = .ok true ∨ eq a a = .error e)
    (h : ∃ a ∈ as, eq a a = .error e) : allEqual eq as as = .error e := by
  induction as
  case nil => obtain ⟨a, ha, -⟩ := h; cases ha
  case cons a as ih =>
    rw [allEqual]
    rcases heq a List.mem_cons_self with ha | ha
    · rw [ha]
      refine ih (fun b hb => heq b (.tail _ hb)) ?_
      obtain ⟨b, hb, herror⟩ := h
      cases hb with
      | head => rw [ha] at herror; cases herror
      | tail _ hb => exact ⟨b, hb, herror⟩
    · rw [ha]
      rfl

end

theorem forall₂_imp_mem {α β : Type} {R S : α → β → Prop} {as : List α} {bs : List β}
    (hRS : ∀ a ∈ as, ∀ b ∈ bs, R a b → S a b) (h : List.Forall₂ R as bs) :
    List.Forall₂ S as bs :=
  List.forall₂_iff_zip.mpr ⟨h.length_eq, fun hab =>
    hRS _ (List.of_mem_zip hab).1 _ (List.of_mem_zip hab).2 (List.forall₂_zip h hab)⟩

theorem forall_mem_right {α β : Type} {p : β → Prop} {as : List α} {bs : List β}
    (h : List.Forall₂ (fun _ b => p b) as bs) : ∀ b ∈ bs, p b := by
  induction h
  case nil => exact List.forall_mem_nil _
  case cons hb _ ih => exact List.forall_mem_cons.mpr ⟨hb, ih⟩

theorem forall₂_trans_mem {α β γ : Type} {R : α → β → Prop} {S : β → γ → Prop} {T : α → γ → Prop}
    {as : List α} {bs : List β} {cs : List γ}
    (hRST : ∀ a, ∀ b ∈ bs, ∀ c ∈ cs, R a b → S b c → T a c) (hab : List.Forall₂ R as bs)
    (hbc : List.Forall₂ S bs cs) : List.Forall₂ T as cs := by
  induction hab generalizing cs
  case nil => cases hbc; exact .nil
  case cons a b as bs hab _ ih =>
    cases hbc with
    | cons hbc htail =>
      exact .cons (hRST a b List.mem_cons_self _ List.mem_cons_self hab hbc)
        (ih (fun a b hb c hc => hRST a b (.tail _ hb) c (.tail _ hc)) htail)

namespace Heap

variable {h : Heap}

/-! ### Values without items -/

-- What values other than lists, tuples and dicts are compared by. A NaN has nothing to be equal by.
inductive Essence where
  | number (x : EReal)
  | method (m : BoundMethod)
  | object (v : Value)

noncomputable def essence? (h : Heap) : Value → Option Essence
  | .method id => some (.method (h.method id))
  | v =>
    match v.number? with
    | some n => n.value?.map .number
    | none => some (.object v)

theorem essence?_eq_number_iff {v : Value} {x : EReal} :
    h.essence? v = some (.number x) ↔ v.amount? = some x := by
  cases v <;> simp [essence?, Value.amount?, Value.number?]

theorem essence?_of_number? {v : Value} {n : Number} (hv : v.number? = some n) :
    h.essence? v = n.value?.map .number := by
  cases v <;> first | (cases hv; rfl) | cases hv

theorem exists_method_of_essence? {v : Value} {m : BoundMethod}
    (hv : h.essence? v = some (.method m)) : ∃ id, v = .method id ∧ h.method id = m := by
  cases v <;> simp_all [essence?, Value.number?]

theorem eq_of_essence?_object {v w : Value} (hv : h.essence? v = some (.object w)) : v = w := by
  cases v <;> simp_all [essence?, Value.number?]

theorem exists_essence? {v : Value} (hv : v.isNaN = false) : ∃ e, h.essence? v = some e := by
  obtain hnumber | ⟨x, hx⟩ := Value.isNaN_eq_false_iff.mp hv
  · cases v
    case method id => exact ⟨_, rfl⟩
    case bool | int | float => cases hnumber
    all_goals exact ⟨_, rfl⟩
  · exact ⟨_, essence?_eq_number_iff.mpr hx⟩

-- How values are compared of which not both are lists, tuples or dicts.
def leavesEqual (h : Heap) : Value → Value → Bool
  | .method i, .method j => h.method i = h.method j
  | .float x, .float y => numbersEqual (.float x) (.float y)
  | a, b => a = b || numbersEqual a b

theorem leavesEqual_iff {a b : Value} :
    h.leavesEqual a b ↔ ∃ e, h.essence? a = some e ∧ h.essence? b = some e := by
  have hnumbers : numbersEqual a b ↔
      ∃ x, h.essence? a = some (.number x) ∧ h.essence? b = some (.number x) := by
    simp only [numbersEqual_iff, essence?_eq_number_iff]
  rw [leavesEqual.eq_def]
  split
  case h_1 i j => simp [essence?, eq_comm]
  case h_2 x y =>
    rw [hnumbers]
    simp [essence?, Value.number?]
  case h_3 hmethods hfloats =>
    rw [Bool.or_eq_true, decide_eq_true_iff, hnumbers]
    constructor
    · rintro (rfl | ⟨x, hx⟩)
      · have hnan : a.isNaN = false := by
          cases a
          case float x => exact absurd rfl (hfloats x x rfl)
          all_goals rfl
        obtain ⟨e, he⟩ := exists_essence? hnan
        exact ⟨e, he, he⟩
      · exact ⟨_, hx⟩
    · rintro ⟨e, ha, hb⟩
      cases e with
      | number x => exact .inr ⟨x, ha, hb⟩
      | method m =>
        obtain ⟨i, rfl, -⟩ := exists_method_of_essence? ha
        obtain ⟨j, rfl, -⟩ := exists_method_of_essence? hb
        exact absurd rfl (hmethods i j rfl)
      | object v => exact .inl ((eq_of_essence?_object ha).trans (eq_of_essence?_object hb).symm)

/-! ### Pairs of values -/

-- Two values, told apart by whether both have items.
inductive Paired : Value → Value → Prop
  | lists (i j : Nat) : Paired (.list i) (.list j)
  | tuples (i j : Nat) : Paired (.tuple i) (.tuple j)
  | dicts (i j : Nat) : Paired (.dict i) (.dict j)
  | leaves {a b : Value} (hlists : ∀ i j, a = .list i → b ≠ .list j)
    (htuples : ∀ i j, a = .tuple i → b ≠ .tuple j) (hdicts : ∀ i j, a = .dict i → b ≠ .dict j) :
    Paired a b

theorem paired (a b : Value) : Paired a b := by
  by_cases hlists : ∃ i j, a = .list i ∧ b = .list j
  · obtain ⟨i, j, rfl, rfl⟩ := hlists
    exact .lists i j
  by_cases htuples : ∃ i j, a = .tuple i ∧ b = .tuple j
  · obtain ⟨i, j, rfl, rfl⟩ := htuples
    exact .tuples i j
  by_cases hdicts : ∃ i j, a = .dict i ∧ b = .dict j
  · obtain ⟨i, j, rfl, rfl⟩ := hdicts
    exact .dicts i j
  exact .leaves (fun i j ha hb => hlists ⟨i, j, ha, hb⟩) (fun i j ha hb => htuples ⟨i, j, ha, hb⟩)
    (fun i j ha hb => hdicts ⟨i, j, ha, hb⟩)

section

variable {same same' : Value → Value → Bool} {room : Nat} {a b c : Value} {i j : Nat} {r : Bool}

theorem equalsAt_leaves (hlists : ∀ i j, a = .list i → b ≠ .list j)
    (htuples : ∀ i j, a = .tuple i → b ≠ .tuple j) (hdicts : ∀ i j, a = .dict i → b ≠ .dict j) :
    h.equalsAt same (room + 1) a b = .ok (h.leavesEqual a b) := by
  rw [equalsAt.eq_def]
  dsimp only
  split
  · exact absurd rfl (hlists _ _ rfl)
  · exact absurd rfl (htuples _ _ rfl)
  · exact absurd rfl (hdicts _ _ rfl)
  · rfl
  · rfl
  case _ hmethods hfloats =>
    rw [leavesEqual.eq_def]
    split
    · exact absurd rfl (hmethods _ _ rfl)
    · exact absurd rfl (hfloats _ _ rfl)
    · rfl

theorem equalsAt_tuples : h.equalsAt same (room + 1) (.tuple i) (.tuple j)
    = itemsEqual (h.equalsAt same room) (h.tuple i) (h.tuple j) :=
  rfl

theorem leavesEqual_comm : h.leavesEqual a b = h.leavesEqual b a := by
  rw [Bool.eq_iff_iff, leavesEqual_iff, leavesEqual_iff]
  simp only [and_comm]

theorem isLeaf_of_leavesEqual (hlists : ∀ i j, a = .list i → b ≠ .list j)
    (htuples : ∀ i j, a = .tuple i → b ≠ .tuple j) (hdicts : ∀ i j, a = .dict i → b ≠ .dict j)
    (heq : h.leavesEqual a b) : a.isLeaf := by
  obtain ⟨e, ha, hb⟩ := leavesEqual_iff.mp heq
  cases a
  case list i =>
    cases ha
    exact absurd (eq_of_essence?_object hb) (hlists i i rfl)
  case tuple i =>
    cases ha
    exact absurd (eq_of_essence?_object hb) (htuples i i rfl)
  case dict i =>
    cases ha
    exact absurd (eq_of_essence?_object hb) (hdicts i i rfl)
  all_goals rfl

theorem equalsAt_of_isLeaf (ha : a.isLeaf) :
    h.equalsAt same (room + 1) a b = .ok (h.leavesEqual a b) := by
  apply equalsAt_leaves <;> rintro i j rfl <;> cases ha

-- What can be a key is equal to values with equal items, or of the same essence.
theorem equalsAt_eq_true_cases (hb : b.isMutable = false)
    (heq : h.equalsAt same room a b = .ok true) : ∃ room', room = room' + 1 ∧
      ((∃ i j, a = .tuple i ∧ b = .tuple j ∧
          List.Forall₂ (fun v w => h.equalsAt same room' v w = .ok true) (h.items a) (h.items b))
        ∨ (a.isLeaf ∧ b.isLeaf ∧ ∃ e, h.essence? a = some e ∧ h.essence? b = some e)) := by
  cases room with
  | zero => rw [equalsAt] at heq; cases heq
  | succ room =>
    refine ⟨room, rfl, ?_⟩
    cases paired a b with
    | lists i j => cases hb
    | dicts i j => cases hb
    | tuples i j => exact .inl ⟨i, j, rfl, rfl, itemsEqual_eq_true_iff.mp heq⟩
    | leaves hlists htuples hdicts =>
      rw [equalsAt_leaves hlists htuples hdicts] at heq
      have hleaves : h.leavesEqual a b := Except.ok.inj heq
      exact .inr ⟨isLeaf_of_leavesEqual hlists htuples hdicts hleaves,
        isLeaf_of_leavesEqual (fun j i hb ha => hlists i j ha hb)
          (fun j i hb ha => htuples i j ha hb) (fun j i hb ha => hdicts i j ha hb)
          (leavesEqual_comm ▸ hleaves), leavesEqual_iff.mp hleaves⟩

/-! ### Laws -/

theorem equalsAt_mono {room' : Nat} (heq : h.equalsAt same room a b = .ok r) (hle : room ≤ room') :
    h.equalsAt same room' a b = .ok r := by
  induction room generalizing room' a b r
  case zero => rw [equalsAt] at heq; cases heq
  case succ room ih =>
    obtain ⟨room', rfl⟩ : ∃ k, room' = k + 1 := ⟨room' - 1, by omega⟩
    have ih : ∀ v w r, h.equalsAt same room v w = .ok r → h.equalsAt same room' v w = .ok r :=
      fun v w r hvw => ih hvw (by omega)
    cases paired a b with
    | leaves hlists htuples hdicts =>
      rw [equalsAt_leaves hlists htuples hdicts] at heq ⊢
      exact heq
    | tuples i j =>
      rw [equalsAt_tuples] at heq ⊢
      exact itemsEqual_mono ih heq
    | lists i j =>
      rw [equalsAt] at heq ⊢
      split at heq
      case isTrue hij => rw [if_pos hij]; exact heq
      case isFalse hij => rw [if_neg hij]; exact itemsEqual_mono ih heq
    | dicts i j =>
      rw [equalsAt] at heq ⊢
      split at heq
      case isTrue hij => rw [if_pos hij]; exact heq
      case isFalse hij =>
        rw [if_neg hij]
        split at heq
        case isTrue hlength => rw [if_pos hlength]; exact entriesEqual_mono ih heq
        case isFalse hlength => rw [if_neg hlength]; exact heq

-- Where there is no dict, those of the heap do not matter, nor do keys.
theorem equalsAt_withDicts (dicts : Array Entries) (ha : h.Throughout (·.isDict = false) a) :
    { h with dicts }.equalsAt same room a b = h.equalsAt same' room b a := by
  induction room generalizing a b
  case zero => rfl
  case succ room ih =>
    cases paired a b with
    | leaves hlists htuples hdicts =>
      rw [equalsAt_leaves hlists htuples hdicts, equalsAt_leaves (fun j i hb ha => hlists i j ha hb)
        (fun j i hb ha => htuples i j ha hb) (fun j i hb ha => hdicts i j ha hb)]
      exact congrArg Except.ok leavesEqual_comm
    | tuples i j =>
      rw [equalsAt_tuples, equalsAt_tuples]
      exact itemsEqual_comm fun v hv w _ => ih (ha.item hv)
    | lists i j =>
      rw [equalsAt, equalsAt]
      simp only [eq_comm (a := i)]
      congr 1
      exact itemsEqual_comm fun v hv w _ => ih (ha.item hv)
    | dicts i j => cases ha.self

theorem equalsAt_comm (ha : h.Throughout (·.isDict = false) a) :
    h.equalsAt same room a b = h.equalsAt same' room b a :=
  equalsAt_withDicts h.dicts ha

theorem equalsAt_self_of_items (ha : a.isNaN = false)
    (hitems : ∀ w ∈ h.items a, h.equalsAt same room w w = .ok true) :
    h.equalsAt same (room + 1) a a = .ok true := by
  cases hleaf : a.isLeaf with
  | true =>
    obtain ⟨e, he⟩ := exists_essence? ha
    rw [equalsAt_of_isLeaf hleaf, leavesEqual_iff.mpr ⟨e, he, he⟩]
  | false =>
    cases a
    case tuple i =>
      rw [equalsAt_tuples, itemsEqual_eq_true_iff, List.forall₂_same]
      exact hitems
    case list i =>
      rw [equalsAt, if_pos rfl]
      rfl
    case dict i =>
      rw [equalsAt, if_pos rfl]
      rfl
    all_goals cases hleaf

theorem equalsAt_self (ha : h.Throughout (·.isNaN = false) a) (hnests : h.NestsWithin room a) :
    h.equalsAt same (room + 1) a a = .ok true := by
  induction room generalizing a
  case zero => exact equalsAt_self_of_items ha.self (by simp [hnests.items_eq_nil])
  case succ room ih =>
    exact equalsAt_self_of_items ha.self fun w hw => ih (ha.item hw) (hnests.item hw)

theorem equalsAt_trans (hb : h.Throughout (·.isMutable = false) b)
    (hc : h.Throughout (·.isMutable = false) c)
    (hab : h.equalsAt same room a b = .ok true) (hbc : h.equalsAt same room b c = .ok true) :
    h.equalsAt same room a c = .ok true := by
  induction room generalizing a b c
  case zero => rw [equalsAt] at hab; cases hab
  case succ room ih =>
    obtain ⟨_, hroom, hab⟩ := equalsAt_eq_true_cases hb.self hab
    cases hroom
    obtain ⟨_, hroom, hbc⟩ := equalsAt_eq_true_cases hc.self hbc
    cases hroom
    rcases hab with ⟨i, j, rfl, rfl, hab⟩ | ⟨ha, hleaf, e, hea, heb⟩
    · rcases hbc with ⟨_, k, _, rfl, hbc⟩ | ⟨hleaf, -⟩
      · rw [equalsAt_tuples, itemsEqual_eq_true_iff]
        refine forall₂_trans_mem ?_ hab hbc
        exact fun u v hv w hw => ih (hb.item hv) (hc.item hw)
      · cases hleaf
    · rcases hbc with ⟨_, _, rfl, -⟩ | ⟨-, -, e', heb', hec⟩
      · cases hleaf
      · obtain rfl := Option.some.inj (heb.symm.trans heb')
        rw [equalsAt_of_isLeaf ha, leavesEqual_iff.mpr ⟨e, hea, hec⟩]

/-! ### Depth -/

-- A comparison that fails has nested too deeply on both sides.
theorem equalsAt_returns (ha : h.Throughout (·.isMutable = false) a)
    (hnests : h.NestsWithin room a) : ∃ r, h.equalsAt same (room + 1) a b = .ok r := by
  induction room generalizing a b
  case zero =>
    cases paired a b with
    | leaves hlists htuples hdicts => exact ⟨_, equalsAt_leaves hlists htuples hdicts⟩
    | tuples i j =>
      have hnil : (h.tuple i).toList = [] := hnests.items_eq_nil
      rw [equalsAt_tuples]
      exact itemsEqual_returns (by simp [hnil])
    | lists i j => cases ha.self
    | dicts i j => cases ha.self
  case succ room ih =>
    cases paired a b with
    | leaves hlists htuples hdicts => exact ⟨_, equalsAt_leaves hlists htuples hdicts⟩
    | tuples i j =>
      rw [equalsAt_tuples]
      exact itemsEqual_returns fun v hv w _ => ih (ha.item hv) (hnests.item hv)
    | lists i j => cases ha.self
    | dicts i j => cases ha.self

-- A value that is found equal was gone through.
theorem nestsWithin_of_equalsAt (hb : h.Throughout (·.isMutable = false) b)
    (heq : h.equalsAt same (room + 1) a b = .ok true) : h.NestsWithin room b := by
  induction room generalizing a b
  case zero =>
    apply NestsWithin.of_items_eq_nil
    obtain ⟨_, hroom, ⟨i, j, rfl, rfl, hitems⟩ | ⟨-, hleaf, -⟩⟩ :=
      equalsAt_eq_true_cases hb.self heq
    · cases hroom
      have hnone : ∀ w ∈ h.items (.tuple j), False := by
        refine forall_mem_right (forall₂_imp_mem ?_ hitems)
        exact fun v _ w _ heq => nomatch heq
      exact List.eq_nil_iff_forall_not_mem.mpr hnone
    · exact items_eq_nil_of_isLeaf hleaf
  case succ room ih =>
    obtain ⟨_, hroom, ⟨i, j, rfl, rfl, hitems⟩ | ⟨-, hleaf, -⟩⟩ :=
      equalsAt_eq_true_cases hb.self heq
    · cases hroom
      exact .of_items (forall_mem_right (forall₂_imp_mem (fun v _ w hw => ih (hb.item hw)) hitems))
    · exact .of_items_eq_nil (items_eq_nil_of_isLeaf hleaf)

theorem equalsAt_self_error_of_items {e : Failure} (ha : a.isMutable = false)
    (hitems : ∀ w ∈ h.items a,
      h.equalsAt same room w w = .ok true ∨ h.equalsAt same room w w = .error e)
    (hfails : ∃ w ∈ h.items a, h.equalsAt same room w w = .error e) :
    h.equalsAt same (room + 1) a a = .error e := by
  cases a
  case tuple i =>
    rw [equalsAt_tuples, itemsEqual, if_pos rfl]
    exact allEqual_self_error hitems hfails
  case list | dict => cases ha
  all_goals
    obtain ⟨w, hw, -⟩ := hfails
    cases hw

theorem equalsAt_self_error (ha : h.Throughout (·.isMutable = false) a)
    (hnan : h.Throughout (·.isNaN = false) a) (hdeep : ¬ h.NestsWithin room a) :
    h.equalsAt same (room + 1) a a
      = .raise .recursion "maximum recursion depth exceeded in comparison" := by
  induction room generalizing a
  case zero =>
    obtain ⟨w, hw⟩ := List.exists_mem_of_ne_nil _ (mt NestsWithin.of_items_eq_nil hdeep)
    exact equalsAt_self_error_of_items ha.self (fun _ _ => .inr rfl) ⟨w, hw, rfl⟩
  case succ room ih =>
    have hitem := mt NestsWithin.of_items hdeep
    push Not at hitem
    obtain ⟨w, hw, hdeep⟩ := hitem
    refine equalsAt_self_error_of_items ha.self (fun v hv => ?_)
      ⟨w, hw, ih (ha.item hw) (hnan.item hw) hdeep⟩
    by_cases hnests : h.NestsWithin room v
    · exact .inl (equalsAt_self (hnan.item hv) hnests)
    · exact .inr (ih (ha.item hv) (hnan.item hv) hnests)

/-! ### Digests -/

theorem digestAt_of_whole {n : Nat} {m : Int64} (ha : a.amount? = some ((m.toInt : ℝ) : EReal)) :
    h.digestAt n a = [.int m] := by
  have hint : ∀ k : Int64, ((k.toInt : ℝ) : EReal) = ((m.toInt : ℝ) : EReal) → k = m := by
    intro k hk
    exact Int64.toInt_inj.mp (by exact_mod_cast EReal.coe_injective hk)
  cases a
  case bool b => rw [digestAt, hint _ (Option.some.inj ha)]
  case int k => rw [digestAt, hint _ (Option.some.inj ha)]
  case float x => rw [digestAt, Whole.ofFloat?_eq_some_iff.mpr ha]
  all_goals cases ha

-- Numbers that are equal have the same digest, whatever their types.
theorem digestAt_eq_of_amount? {n : Nat} {x : EReal} (ha : a.amount? = some x)
    (hb : b.amount? = some x) : h.digestAt n a = h.digestAt n b := by
  by_cases hwhole : ∃ m : Int64, x = ((m.toInt : ℝ) : EReal)
  · obtain ⟨m, rfl⟩ := hwhole
    rw [digestAt_of_whole ha, digestAt_of_whole hb]
  · have hfloat : ∀ {v : Value}, v.amount? = some x → ∃ y, v = .float y := by
      intro v hv
      cases v
      case float y => exact ⟨y, rfl⟩
      case bool | int => exact absurd ⟨_, (Option.some.inj hv).symm⟩ hwhole
      all_goals cases hv
    obtain ⟨y, rfl⟩ := hfloat ha
    obtain ⟨z, rfl⟩ := hfloat hb
    have hzero : x ≠ 0 := fun hx => hwhole ⟨0, by rw [hx]; simp⟩
    rw [Double.eq_of_unpack (Double.eq_of_value? (Double.canonical_unpack _)
      (Double.canonical_unpack _) ha hb hzero)]

theorem digestAt_eq_of_essence? {n : Nat} {e : Essence} (ha : h.essence? a = some e)
    (hb : h.essence? b = some e) : h.digestAt n a = h.digestAt n b := by
  cases e with
  | number x =>
    exact digestAt_eq_of_amount? (essence?_eq_number_iff.mp ha) (essence?_eq_number_iff.mp hb)
  | method m =>
    obtain ⟨i, rfl, hi⟩ := exists_method_of_essence? ha
    obtain ⟨j, rfl, hj⟩ := exists_method_of_essence? hb
    rw [digestAt, digestAt, hi, hj]
  | object v => rw [eq_of_essence?_object ha, eq_of_essence?_object hb]

theorem digestAt_eq {n : Nat} (hb : h.isHashableAt n b = .ok ())
    (heq : h.equalsAt same room a b = .ok true) : h.digestAt n a = h.digestAt n b := by
  induction n generalizing room a b
  case zero =>
    obtain ⟨_, rfl, ⟨i, j, rfl, rfl, -⟩ | ⟨-, -, e, hea, heb⟩⟩ :=
      equalsAt_eq_true_cases (isHashableAt_cases hb).1 heq
    · rw [isHashableAt] at hb
      cases hb
    · exact digestAt_eq_of_essence? hea heb
  case succ n ih =>
    obtain ⟨_, rfl, ⟨i, j, rfl, rfl, heq⟩ | ⟨-, -, e, hea, heb⟩⟩ :=
      equalsAt_eq_true_cases (isHashableAt_cases hb).1 heq
    · have hhashable : ∀ w ∈ h.items (.tuple j), h.isHashableAt n w = .ok () :=
        Attempt.forM_eq_ok_iff.mp hb
      have hdigests : (h.tuple i).toList.map (h.digestAt n)
          = (h.tuple j).toList.map (h.digestAt n) := by
        rw [← List.forall₂_eq_eq_eq, List.forall₂_map_left_iff, List.forall₂_map_right_iff]
        exact forall₂_imp_mem (fun v _ w hw hvw => ih (hhashable w hw) hvw) heq
      have hsize : (h.tuple i).size = (h.tuple j).size := heq.length_eq
      rw [digestAt, digestAt, hsize, List.flatMap_def, List.flatMap_def, hdigests]
    · exact digestAt_eq_of_essence? hea heb

/-! ### Keys -/

-- No keys are compared below a key.
theorem equalsAt_same (hb : h.Throughout (·.isMutable = false) b) :
    h.equalsAt same room a b = h.equalsAt same' room a b := by
  have hdicts : h.Throughout (·.isDict = false) b := hb.imp fun _ => isDict_eq_false
  calc h.equalsAt same room a b = h.equalsAt same room b a := (equalsAt_comm hdicts).symm
    _ = h.equalsAt same' room a b := equalsAt_comm hdicts

theorem digest_and_keysEqual_iff (hb : h.requireHashable b = .ok ()) :
    (h.digest a = h.digest b && h.keysEqual a b) ↔ h.equals a b = .ok true := by
  rw [Bool.and_eq_true, decide_eq_true_iff, keysEqual, equals,
    equalsAt_same (throughout_of_hashable hb)]
  cases heq : h.equalsAt h.sameKey (nestingLimit + 1) a b with
  | error e => exact ⟨nofun, nofun⟩
  | ok r =>
    cases r with
    | false => exact ⟨nofun, nofun⟩
    | true => exact ⟨fun _ => rfl, fun _ => ⟨digestAt_eq hb heq, rfl⟩⟩

-- A key meets just the values that are equal to it.
theorem sameKey_iff (hb : h.requireHashable b = .ok ()) :
    h.sameKey a b ↔ h.equals a b = .ok true := by
  rw [sameKey.eq_def]
  split
  case h_1 m n =>
    rw [equals, equalsAt_of_isLeaf rfl, Except.ok.injEq, leavesEqual_iff, decide_eq_true_iff]
    simp [essence?, Value.number?, Number.value?, Int64.toInt_inj, eq_comm]
  case h_2 s t =>
    rw [equals, equalsAt_of_isLeaf rfl, Except.ok.injEq, leavesEqual_iff, decide_eq_true_iff]
    simp [essence?, Value.number?, eq_comm]
  case h_3 => exact digest_and_keysEqual_iff hb

theorem hasKey_iff {entries : Entries} (hb : h.requireHashable b = .ok ()) :
    h.hasKey entries b ↔ ∃ e ∈ entries, h.equals e.1 b = .ok true := by
  rw [hasKey, getKey?, Entries.find?, Option.isSome_map, List.find?_isSome]
  simp only [sameKey_iff hb]

end

end Heap
end NoteCell
