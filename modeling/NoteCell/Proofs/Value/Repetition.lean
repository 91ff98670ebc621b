import NoteCell.Proofs.Machine.Actions

/-!
Sequences repeated. A repeated sequence goes through the items of the sequence round and round, and
there is none if it would take more bytes than the limit. Whether it would is found out by products
that do not wrap, since one that does not fit is beyond the limit already.
-/
namespace NoteCell

-- One row goes through another so many times.
structure Repeats {α : Type} (xs : List α) (count : Int) (ys : List α) : Prop where
  length : (ys.length : Int) = xs.length * max count 0
  item : ∀ k < ys.length, ys[k]? = xs[k % xs.length]?

-- The bytes of a text in UTF-8.
def textBytes (s : String) : List UInt8 := s.toByteArray.data.toList

namespace Repetition

section

variable {α : Type} {xs : List α} {k : Nat} {count : Int64}

theorem length_flatten_replicate (xs : List α) (n : Nat) :
    (List.replicate n xs).flatten.length = n * xs.length := by
  rw [List.length_flatten, List.map_replicate, List.sum_replicate, smul_eq_mul]

theorem getElem?_flatten_replicate {n : Nat} (hk : k < n * xs.length) :
    (List.replicate n xs).flatten[k]? = xs[k % xs.length]? := by
  induction n generalizing k
  case zero => omega
  case succ n ih =>
    rw [List.replicate_succ, List.flatten_cons]
    by_cases hfirst : k < xs.length
    case pos => rw [List.getElem?_append_left hfirst, Nat.mod_eq_of_lt hfirst]
    case neg =>
      have hle := Nat.le_of_not_lt hfirst
      have hrest : k - xs.length < n * xs.length := by
        rw [Nat.succ_mul] at hk
        omega
      rw [List.getElem?_append_right hle, ih hrest, ← Nat.mod_eq_sub_mod hle]

theorem times_eq (count : Int64) : (times count : Int) = max count.toInt 0 := Int.toNat_eq_max _

theorem repeats_flatten_replicate (xs : List α) (count : Int64) :
    Repeats xs count.toInt (List.replicate (times count) xs).flatten where
  length := by
    rw [length_flatten_replicate, Nat.cast_mul, times_eq, mul_comm]
  item k hk := by
    rw [length_flatten_replicate] at hk
    exact getElem?_flatten_replicate hk

end

/-! ### The limit -/

section

variable {m n k length unit : Nat} {count : Int64}

theorem limit_lt_of_product? (h : product? m n = none) : limit < m * n := by
  rw [product?] at h
  split at h
  case isTrue => cases h
  case isFalse hlarge =>
    have hlimit : limit < Nat.pow 2 64 := by decide
    exact hlimit.trans_le (Nat.le_of_not_lt hlarge)

theorem eq_of_product? (h : product? m n = some k) : k = m * n := by
  rw [product?] at h
  split at h
  case isTrue => exact (Option.some.inj h).symm
  case isFalse => cases h

-- A product that is not made is beyond the limit, and a unit takes it no lower.
theorem fits_iff (hunit : 0 < unit) :
    fits length unit count ↔ length * times count * unit ≤ limit := by
  rw [fits]
  cases htotal : product? length (times count) with
  | none =>
    have hlarge := limit_lt_of_product? htotal
    have hle := Nat.le_mul_of_pos_right (length * times count) hunit
    exact iff_of_false nofun (Nat.not_le.mpr (hlarge.trans_le hle))
  | some total =>
    rw [← eq_of_product? htotal, Option.bind_eq_bind, Option.bind_some]
    cases hbytes : product? total unit with
    | none => exact iff_of_false nofun (Nat.not_le.mpr (limit_lt_of_product? hbytes))
    | some bytes =>
      rw [← eq_of_product? hbytes]
      exact decide_eq_true_iff

-- Whether a sequence of so many items, repeated, takes too many bytes.
def Exceeds (length unit : Nat) (count : Int) : Prop := 2 ^ 30 < (length : Int) * max count 0 * unit

theorem fits_eq_false_iff (hunit : 0 < unit) :
    fits length unit count = false ↔ Exceeds length unit count.toInt := by
  rw [← Bool.not_eq_true, fits_iff hunit, Nat.not_le, Exceeds, ← times_eq]
  exact_mod_cast Iff.rfl

end

/-! ### Rows and texts -/

variable {α : Type} {xs : Array α} {s : String} {count : Int64}

theorem items_of_exceeds (h : Exceeds xs.size itemBytes count.toInt) :
    items xs count = memoryError := by
  rw [items, (fits_eq_false_iff (by decide)).mpr h]
  rfl

theorem items_of_not_exceeds (h : ¬ Exceeds xs.size itemBytes count.toInt) :
    ∃ ys, items xs count = .ok ys ∧ Repeats xs.toList count.toInt ys.toList := by
  have hfits : fits xs.size itemBytes count = true :=
    eq_true_of_ne_false (mt (fits_eq_false_iff (by decide)).mp h)
  have hrepeats := repeats_flatten_replicate xs.toList count
  rw [items, hfits]
  by_cases hempty : xs.isEmpty
  case pos =>
    obtain rfl := Array.isEmpty_iff.mp hempty
    exact ⟨#[], rfl, by simpa using hrepeats⟩
  case neg =>
    refine ⟨(Array.replicate (times count) xs).flatten, ?_, by simpa using hrepeats⟩
    rw [if_neg hempty]
    rfl

theorem toList_join (ss : List String) :
    (String.join ss).toList = (ss.map String.toList).flatten := by
  induction ss
  case nil => rfl
  case cons s ss ih =>
    rw [String.join_cons, String.toList_append, ih, List.map_cons, List.flatten_cons]

theorem textBytes_join (ss : List String) :
    textBytes (String.join ss) = (ss.map textBytes).flatten := by
  induction ss
  case nil => rfl
  case cons s ss ih =>
    rw [String.join_cons, List.map_cons, List.flatten_cons, ← ih]
    simp [textBytes]

theorem length_textBytes (s : String) : (textBytes s).length = s.utf8ByteSize := rfl

theorem text_of_exceeds (h : Exceeds (textBytes s).length 1 count.toInt) :
    text s count = memoryError := by
  rw [text, ← length_textBytes, (fits_eq_false_iff Nat.one_pos).mpr h]
  rfl

theorem text_of_not_exceeds (h : ¬ Exceeds (textBytes s).length 1 count.toInt) :
    ∃ t, text s count = .ok t ∧ Repeats (textBytes s) count.toInt (textBytes t)
      ∧ Repeats s.toList count.toInt t.toList := by
  have hfits : fits s.utf8ByteSize 1 count = true :=
    eq_true_of_ne_false (mt (fits_eq_false_iff Nat.one_pos).mp h)
  have hbytes := repeats_flatten_replicate (textBytes s) count
  have hchars := repeats_flatten_replicate s.toList count
  rw [← List.map_replicate, ← textBytes_join] at hbytes
  rw [← List.map_replicate, ← toList_join] at hchars
  rw [text, hfits]
  have hjoin (hempty : s = "") : String.join (List.replicate (times count) s) = "" := by
    subst hempty
    exact String.toList_inj.mp (by simp)
  by_cases hempty : s.isEmpty
  case pos =>
    rw [hjoin (String.isEmpty_iff.mp hempty)] at hbytes hchars
    exact ⟨"", by rw [hempty]; rfl, hbytes, hchars⟩
  case neg => exact ⟨_, by rw [if_neg hempty]; rfl, hbytes, hchars⟩

end Repetition

/-! ### Products of sequences and counts -/

namespace Operators

variable {n v : Value} {count : Int64}

-- The sequence may stand on either side.
theorem binary_mul_of_repeat? {act : Action Value} (hn : n.index? = some count)
    (hact : repeat? v count = some act) : binary .mul v n = act ∧ binary .mul n v = act := by
  cases n
  case bool | int =>
    cases v
    case str | list | tuple =>
      obtain rfl := Option.some.inj hn
      obtain rfl := Option.some.inj hact
      exact ⟨rfl, rfl⟩
    all_goals cases hact
  all_goals cases hn

-- A product is refused for its size, and the world stays as it is; or something is made.
structure Ends (act : Action Value) (w : World) (exceeds : Prop) (made : Value → World → Prop) :
    Prop where
  refused : exceeds → act.run.run w = (.error (.raised ⟨.memory, ""⟩), w)
  given : ¬ exceeds → ∃ v w', act.run.run w = (.ok v, w') ∧ made v w'

-- Products of texts, lists and tuples with whole numbers and booleans.
structure Multiplies (n : Value) (count : Int) (w : World) : Prop where
  text : ∀ s, binary .mul n (.str s) = binary .mul (.str s) n
    ∧ Ends (binary .mul (.str s) n) w (Repetition.Exceeds (textBytes s).length 1 count)
      fun v w' => w' = w ∧ ∃ t, v = .str t ∧ Repeats (textBytes s) count (textBytes t)
        ∧ Repeats s.toList count t.toList
  list : ∀ id, binary .mul n (.list id) = binary .mul (.list id) n
    ∧ Ends (binary .mul (.list id) n) w (Repetition.Exceeds (w.heap.list id).size 32 count)
      fun v w' => v = .list w.heap.lists.size ∧ ∃ items,
        w' = { w with heap := { w.heap with lists := w.heap.lists.push items } }
        ∧ Repeats (w.heap.list id).toList count items.toList
  tuple : ∀ id, binary .mul n (.tuple id) = binary .mul (.tuple id) n
    ∧ Ends (binary .mul (.tuple id) n) w (Repetition.Exceeds (w.heap.tuple id).size 32 count)
      fun v w' => v = .tuple w.heap.tuples.size ∧ ∃ items,
        w' = { w with heap := { w.heap with tuples := w.heap.tuples.push items } }
        ∧ Repeats (w.heap.tuple id).toList count items.toList

theorem ends_of_look {xs : Heap → Array Value} {make : Array Value → Action Value} {w : World}
    {made : Value → World → Prop}
    (hmake : ∀ ys, Repeats (xs w.heap).toList count.toInt ys.toList →
      ∃ v w', (make ys).run.run w = (.ok v, w') ∧ made v w') :
    Ends (do make (← .look fun h => Repetition.items (xs h) count)) w
      (Repetition.Exceeds (xs w.heap).size 32 count.toInt) made := by
  have hrun : (do make (← .look fun h => Repetition.items (xs h) count) : Action Value).run.run w
      = (do make (← .lift (Repetition.items (xs w.heap) count)) : Action Value).run.run w := rfl
  constructor
  case refused =>
    intro hexceeds
    rw [hrun, Repetition.items_of_exceeds hexceeds]
    rfl
  case given =>
    intro hfits
    obtain ⟨ys, hys, hrepeats⟩ := Repetition.items_of_not_exceeds hfits
    rw [hrun, hys, Action.run_lift_bind]
    exact hmake ys hrepeats

theorem multiplies (hn : n.index? = some count) (w : World) : Multiplies n count.toInt w where
  text s := by
    obtain ⟨hright, hleft⟩ := binary_mul_of_repeat? (v := .str s) hn rfl
    rw [hleft, hright]
    refine ⟨rfl, ⟨fun hexceeds => ?_, fun hfits => ?_⟩⟩
    · rw [Action.run_lift_map, Repetition.text_of_exceeds hexceeds]
      rfl
    · obtain ⟨t, ht, hrepeats⟩ := Repetition.text_of_not_exceeds hfits
      rw [Action.run_lift_map, ht]
      exact ⟨_, _, rfl, rfl, t, rfl, hrepeats⟩
  list id := by
    obtain ⟨hright, hleft⟩ := binary_mul_of_repeat? (v := .list id) hn rfl
    rw [hleft, hright]
    exact ⟨rfl, ends_of_look fun ys hys => ⟨_, _, rfl, rfl, ys, rfl, hys⟩⟩
  tuple id := by
    obtain ⟨hright, hleft⟩ := binary_mul_of_repeat? (v := .tuple id) hn rfl
    rw [hleft, hright]
    exact ⟨rfl, ends_of_look fun ys hys => ⟨_, _, rfl, rfl, ys, rfl, hys⟩⟩

-- One item, as often as the limit lets it and once more.
theorem multiplies_limit :
    let w : World := ⟨{ Heap.empty with lists := #[#[.nothing]] }, [], false⟩
    (∃ items : Array Value, items.size = 2 ^ 25
        ∧ (binary .mul (.int 33554432) (.list 0)).run.run w
          = (.ok (.list 1), { w with heap := { w.heap with lists := w.heap.lists.push items } }))
      ∧ (binary .mul (.int 33554433) (.list 0)).run.run w
        = (.error (.raised ⟨.memory, ""⟩), w) := by
  intro w
  have hcount : (33554432 : Int64).toInt = 2 ^ 25 ∧ (33554433 : Int64).toInt = 2 ^ 25 + 1 := by
    decide
  have hexceeds : ¬ Repetition.Exceeds 1 32 (2 ^ 25) ∧ Repetition.Exceeds 1 32 (2 ^ 25 + 1) := by
    simp only [Repetition.Exceeds]
    decide
  obtain ⟨hsame, hends⟩ := (multiplies (n := .int 33554432) rfl w).list 0
  obtain ⟨hsame', hends'⟩ := (multiplies (n := .int 33554433) rfl w).list 0
  rw [hcount.1] at hends
  rw [hcount.2] at hends'
  obtain ⟨v, w', hrun, rfl, items, rfl, hrepeats⟩ := hends.given hexceeds.1
  refine ⟨⟨items, ?_, ?_⟩, ?_⟩
  · have hlength : (items.size : Int) = (1 : Nat) * max (2 ^ 25) 0 := hrepeats.length
    omega
  · rw [hsame]
    exact hrun
  · rw [hsame']
    exact hends'.refused hexceeds.2

end Operators
end NoteCell
