import NoteCell.Machine.Operators
import NoteCell.Proofs.Value.Equality
import NoteCell.Proofs.Value.Iterations

/-!
Membership: a value is found in a container if going through the container meets an equal one.
-/
namespace NoteCell.Operators

variable {h : Heap} {x : Value}

-- What a search among some items comes to, unless a comparison on the way fails.
def Finds (h : Heap) (x : Value) (items : List Value) : Attempt Bool → Prop
  | .ok found => found ↔ ∃ v ∈ items, h.equals v x = .ok true
  | .error f => ∃ v ∈ items, h.equals v x = .error f

theorem finds_anyEqual (items : List Value) : Finds h x items (anyEqual h x items) := by
  induction items
  case nil => simp [anyEqual, Finds, pure, Except.pure]
  case cons v rest ih =>
    rw [anyEqual]
    cases hv : h.equals v x with
    | error f => exact ⟨v, List.mem_cons_self, hv⟩
    | ok equal =>
      cases equal with
      | true => exact ⟨fun _ => ⟨v, List.mem_cons_self, hv⟩, fun _ => rfl⟩
      | false =>
        change Finds h x (v :: rest) (anyEqual h x rest)
        cases hrest : anyEqual h x rest with
        | error f =>
          rw [hrest] at ih
          obtain ⟨w, hw, hfails⟩ := ih
          exact ⟨w, List.mem_cons_of_mem v hw, hfails⟩
        | ok found =>
          rw [hrest] at ih
          simpa [Finds, hv] using ih

/-! ### Ranges -/

theorem amount?_eq_iff {m : Int64} (hx : ∀ f, x ≠ .float f) :
    x.amount? = some ((m.toInt : ℝ) : EReal) ↔ x.index? = some m := by
  have hint : ∀ n : Int64, some ((n.toInt : ℝ) : EReal) = some ((m.toInt : ℝ) : EReal)
      ↔ some n = some m := by
    intro n
    rw [Option.some_inj, Option.some_inj, EReal.coe_eq_coe_iff, Int.cast_inj, Int64.toInt_inj]
  cases x
  case bool b => exact hint _
  case int n => exact hint n
  case float f => exact absurd rfl (hx f)
  all_goals exact ⟨nofun, nofun⟩

-- Equal to a whole number is what denotes it.
theorem equals_int_iff {m : Int64} (hx : ∀ f, x ≠ .float f) :
    h.equals (.int m) x = .ok true ↔ x.index? = some m := by
  rw [Heap.equals, Heap.equalsAt_of_isLeaf rfl, Except.ok.injEq, Heap.leavesEqual_iff,
    ← amount?_eq_iff hx, ← Heap.essence?_eq_number_iff (h := h)]
  constructor
  · rintro ⟨e, he, hxe⟩
    exact hxe.trans he.symm
  · exact fun hxm => ⟨_, rfl, hxm⟩

theorem exists_mem_range_iff {r : Range} (hx : ∀ f, x ≠ .float f) :
    (∃ v ∈ (List.range r.length).map fun i => Value.int (Int64.ofInt (r.item i)),
        h.equals v x = .ok true)
      ↔ ∃ n, x.index? = some n ∧ ∃ i < r.length, r.item i = n.toInt := by
  have hitem : ∀ n i, i < r.length → (Int64.ofInt (r.item i) = n ↔ r.item i = n.toInt) := by
    intro n i hi
    rw [← Int64.toInt_inj, Range.toInt_item hi]
  simp only [List.mem_map, List.mem_range]
  constructor
  · rintro ⟨_, ⟨i, hi, rfl⟩, heq⟩
    exact ⟨_, (equals_int_iff hx).mp heq, i, hi, ((hitem _ i hi).mp rfl)⟩
  · rintro ⟨n, hn, i, hi, heq⟩
    exact ⟨_, ⟨i, hi, rfl⟩, (equals_int_iff hx).mpr ((hitem n i hi).mpr heq ▸ hn)⟩

-- The arithmetic of a search in a range does not overflow.
structure Reaches (r : Range) (n : Int64) : Prop where
  low : -2 ^ 63 ≤ n.toInt - r.start.toInt
  high : n.toInt - r.start.toInt < 2 ^ 63
  quotient : ¬ (n.toInt - r.start.toInt = -2 ^ 63 ∧ r.step.toInt = -1)

theorem finds_contains_range {r : Range} (hx : ∀ f, x ≠ .float f)
    (hreaches : ∀ n, x.index? = some n → Reaches r n) :
    Finds h x ((List.range r.length).map fun i => .int (Int64.ofInt (r.item i)))
      (contains h (.range r) x) := by
  have hitems := exists_mem_range_iff (h := h) (r := r) hx
  rw [contains]
  cases hindex : x.index? with
  | none =>
    rw [hindex] at hitems
    exact ⟨nofun, fun hmem => by obtain ⟨n, hn, -⟩ := hitems.mp hmem; cases hn⟩
  | some n =>
    obtain ⟨hlow, hhigh, hquotient⟩ := hreaches n hindex
    obtain ⟨found, hfound, hiff⟩ := Range.contains?_eq_some hlow hhigh hquotient
    rw [hindex] at hitems
    simp only [hfound]
    refine hiff.trans (Iff.trans ?_ hitems.symm)
    exact ⟨fun hmem => ⟨n, rfl, hmem⟩, fun ⟨_, hn, hmem⟩ => Option.some.inj hn ▸ hmem⟩

/-! ### Containers -/

-- What can be searched for a value: a dict for what is hashable, a range for what is no float and
-- not too far.
def Searchable (h : Heap) (x : Value) : Value → Prop
  | .list _ | .tuple _ => True
  | .dict _ => h.requireHashable x = .ok ()
  | .range r => (∀ f, x ≠ .float f) ∧ ∀ n, x.index? = some n → Reaches r n
  | _ => False

theorem finds_contains {c : Value} (hc : Searchable h x c) :
    ∃ items, h.itemsOf c = .ok items ∧ Finds h x items (contains h c x) := by
  cases c
  case list id => exact ⟨_, h.itemsOf_list id, finds_anyEqual _⟩
  case tuple id => exact ⟨_, h.itemsOf_tuple id, finds_anyEqual _⟩
  case range r => exact ⟨_, h.itemsOf_range r, finds_contains_range hc.1 hc.2⟩
  case dict id =>
    have hcontains : contains h (.dict id) x = .ok (h.hasKey (h.dict id) x) := by
      rw [contains, show h.requireHashable x = .ok () from hc]
      rfl
    refine ⟨_, h.itemsOf_dict id, ?_⟩
    rw [hcontains]
    have hiff : h.hasKey (h.dict id) x ↔ ∃ e ∈ h.dict id, h.equals e.1 x = .ok true :=
      Heap.hasKey_iff hc
    simpa [Finds] using hiff
  all_goals cases hc

-- Searching agrees with going through the items. In a range no float is found, equal or not, and
-- the search for a number breaks if it lies `2 ^ 63` below the start and steps are `-1`.
theorem contains_spec (h : Heap) (x : Value) :
    (∀ c, Searchable h x c → ∃ items, h.itemsOf c = .ok items ∧ Finds h x items (contains h c x))
      ∧ (∀ r f, x = .float f → contains h (.range r) x = .ok false)
      ∧ ∀ r n, x.index? = some n → r.spans n → n.toInt - r.start.toInt = -2 ^ 63 →
        r.step.toInt = -1 → contains h (.range r) x = .error .broken := by
  refine ⟨fun c => finds_contains, ?_, ?_⟩
  · rintro r f rfl
    rfl
  · intro r n hindex hspans hleast hstep
    rw [contains, hindex]
    simp only [Range.contains?_eq_none hspans hleast hstep]

theorem contains_spec_whole :
    (∃ items, Heap.empty.itemsOf (.range ⟨0, 10, 3, by decide⟩) = .ok items
      ∧ Finds Heap.empty (.bool false) items
        (contains Heap.empty (.range ⟨0, 10, 3, by decide⟩) (.bool false)))
    ∧ contains Heap.empty (.range ⟨0, 3, 1, by decide⟩) (.float 1.0) = .ok false
    ∧ contains Heap.empty (.range ⟨1, Int64.minValue, -1, by decide⟩)
      (.int (-9223372036854775807)) = .error .broken := by
  have hsearchable : Searchable Heap.empty (.bool false) (.range ⟨0, 10, 3, by decide⟩) := by
    refine ⟨nofun, fun n hn => ?_⟩
    obtain rfl := Option.some.inj hn
    exact ⟨by decide, by decide, by decide⟩
  exact ⟨(contains_spec _ _).1 _ hsearchable, (contains_spec _ _).2.1 _ _ rfl,
    (contains_spec _ _).2.2 _ _ rfl (by decide) (by decide) (by decide)⟩

end NoteCell.Operators
