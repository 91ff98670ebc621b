import NoteCell.Proofs.Value.Order

/-!
The order of values as a preorder: equal values compare alike, and what is at most a second value,
which is at most a third, is at most that. This needs values without dicts, of which equality can
depend on the side, and without NaNs, which count as equal to every number.
-/
namespace NoteCell

theorem Number.compare?_congr {x y z : Number} {b : EReal} (hy : y.value? = some b)
    (hz : z.value? = some b) : x.compare? y = x.compare? z := by
  cases hx : x.value? with
  | none =>
    have hnan : x.isNaN := value?_eq_none_iff.mp hx
    rw [compare?_eq_none (.inl hnan), compare?_eq_none (.inl hnan)]
  | some a => rw [compare?_eq_some hx hy, compare?_eq_some hx hz]

theorem Number.compare?_ne_gt_iff {x y : Number} {a b : EReal} (hx : x.value? = some a)
    (hy : y.value? = some b) : (x.compare? y).getD .eq ≠ .gt ↔ a ≤ b := by
  rw [compare?_eq_some hx hy]
  exact compare_le_iff_le

/-! ### Rows of items -/

section

variable {eq : Value → Value → Attempt Bool} {order : Value → Value → Attempt Ordering}
  {as bs cs : List Value} {r : Bool} {o : Ordering}

theorem allEqual_congr (hcongr : ∀ a ∈ as, ∀ b ∈ bs, ∀ c ∈ cs, ∀ r, eq b c = .ok true →
      eq a b = .ok r → eq a c = .ok r)
    (hall : List.Forall₂ (fun b c => eq b c = .ok true) bs cs) (hr : allEqual eq as bs = .ok r) :
    allEqual eq as cs = .ok r := by
  induction hall generalizing as
  case nil => cases as <;> exact hr
  case cons b c bs cs hbc _ ih =>
    cases as with
    | nil => exact hr
    | cons a as =>
      have hac := fun r => hcongr a List.mem_cons_self b List.mem_cons_self c List.mem_cons_self r
        hbc
      rw [allEqual] at hr ⊢
      cases hab : eq a b with
      | error f => rw [hab] at hr; cases hr
      | ok equal =>
        rw [hac equal hab]
        rw [hab] at hr
        cases equal with
        | false => exact hr
        | true =>
          exact ih (fun a ha b hb c hc => hcongr a (.tail _ ha) b (.tail _ hb) c (.tail _ hc)) hr

theorem itemsEqual_congr {as bs cs : Array Value}
    (hcongr : ∀ a ∈ as.toList, ∀ b ∈ bs.toList, ∀ c ∈ cs.toList, ∀ r, eq b c = .ok true →
      eq a b = .ok r → eq a c = .ok r)
    (hall : List.Forall₂ (fun b c => eq b c = .ok true) bs.toList cs.toList)
    (hr : itemsEqual eq as bs = .ok r) : itemsEqual eq as cs = .ok r := by
  have hsize : bs.size = cs.size := hall.length_eq
  rw [itemsEqual] at hr ⊢
  rw [← hsize]
  split at hr
  case isTrue has => rw [if_pos has]; exact allEqual_congr hcongr hall hr
  case isFalse has => rw [if_neg has]; exact hr

theorem orderItems_congr (hequal : ∀ a ∈ as, ∀ b ∈ bs, ∀ c ∈ cs, ∀ r, eq b c = .ok true →
      eq a b = .ok r → eq a c = .ok r)
    (horder : ∀ a ∈ as, ∀ b ∈ bs, ∀ c ∈ cs, ∀ o, eq b c = .ok true →
      order a b = .ok o → order a c = .ok o)
    (hall : List.Forall₂ (fun b c => eq b c = .ok true) bs cs)
    (ho : orderItems eq order as bs = .ok o) : orderItems eq order as cs = .ok o := by
  induction hall generalizing as
  case nil => cases as <;> exact ho
  case cons b c bs cs hbc _ ih =>
    cases as with
    | nil => exact ho
    | cons a as =>
      obtain ⟨hab, ho⟩ | ⟨hab, ho⟩ := orderItems_cons_cases ho <;>
        have hac := hequal a List.mem_cons_self b List.mem_cons_self c List.mem_cons_self _ hbc hab
      · rw [orderItems_cons_of_equal hac]
        exact ih (fun a ha b hb c hc => hequal a (.tail _ ha) b (.tail _ hb) c (.tail _ hc))
          (fun a ha b hb c hc => horder a (.tail _ ha) b (.tail _ hb) c (.tail _ hc)) ho
      · rw [orderItems_cons_of_differ hac]
        exact horder a List.mem_cons_self b List.mem_cons_self c List.mem_cons_self o hbc ho

end

namespace Heap

variable {h : Heap} {same same' : Value → Value → Bool} {op : CompareOp} {room fuel : Nat}
  {a b c : Value} {r : Bool} {o p q : Ordering}

/-! ### Equality -/

theorem leavesEqual_of_not_isLeaf (ha : a.isLeaf = false) : h.leavesEqual a b = decide (a = b) := by
  rw [Bool.eq_iff_iff, leavesEqual_iff, decide_eq_true_iff]
  have hessence : h.essence? a = some (.object a) := by
    cases a
    case list | tuple | dict => rfl
    all_goals cases ha
  constructor
  · rintro ⟨e, hea, heb⟩
    obtain rfl := Option.some.inj (hessence.symm.trans hea)
    exact (eq_of_essence?_object heb).symm
  · rintro rfl
    exact ⟨_, hessence, hessence⟩

theorem equalsAt_of_isLeaf_right (hb : b.isLeaf) :
    h.equalsAt same (room + 1) a b = .ok (h.leavesEqual a b) := by
  apply equalsAt_leaves <;> rintro i j - rfl <;> cases hb

-- Nothing but a list is equal to a list, and so on.
theorem equalsAt_eq_false (hb : b.isLeaf = false) (hlists : ∀ i j, a = .list i → b ≠ .list j)
    (htuples : ∀ i j, a = .tuple i → b ≠ .tuple j) (hdicts : ∀ i j, a = .dict i → b ≠ .dict j) :
    h.equalsAt same (room + 1) a b = .ok false := by
  have hne : b ≠ a := by
    rintro rfl
    cases b
    case list i => exact hlists i i rfl rfl
    case tuple i => exact htuples i i rfl rfl
    case dict i => exact hdicts i i rfl rfl
    all_goals cases hb
  rw [equalsAt_leaves hlists htuples hdicts, leavesEqual_comm, leavesEqual_of_not_isLeaf hb,
    decide_eq_false hne]

-- A value equal to another is equal to the same values.
theorem equalsAt_congr (hb : h.Throughout (·.isDict = false) b)
    (hab : h.equalsAt same room a b = .ok r) (hbc : h.equalsAt same room b c = .ok true) :
    h.equalsAt same room a c = .ok r := by
  induction room generalizing a b c r
  case zero => rw [equalsAt] at hab; cases hab
  case succ room ih =>
    have hitems : ∀ u ∈ h.items a, ∀ v ∈ h.items b, ∀ w ∈ h.items c, ∀ r,
        h.equalsAt same room v w = .ok true → h.equalsAt same room u v = .ok r →
        h.equalsAt same room u w = .ok r :=
      fun u _ v hv w _ r hvw huv => ih (hb.item hv) huv hvw
    cases paired b c with
    | leaves hlists htuples hdicts =>
      rw [equalsAt_leaves hlists htuples hdicts] at hbc
      have hleaves : h.leavesEqual b c := Except.ok.inj hbc
      have hbleaf := isLeaf_of_leavesEqual hlists htuples hdicts hleaves
      have hcleaf := isLeaf_of_leavesEqual (fun j i hc hb => hlists i j hb hc)
        (fun j i hc hb => htuples i j hb hc) (fun j i hc hb => hdicts i j hb hc)
        (leavesEqual_comm ▸ hleaves)
      obtain ⟨e, heb, hec⟩ := leavesEqual_iff.mp hleaves
      rw [equalsAt_of_isLeaf_right hbleaf] at hab
      rw [equalsAt_of_isLeaf_right hcleaf, ← hab, Except.ok.injEq, Bool.eq_iff_iff,
        leavesEqual_iff, leavesEqual_iff, heb, hec]
    | dicts j k => cases hb.self
    | tuples j k =>
      have hall := itemsEqual_eq_true_iff.mp hbc
      cases paired a (.tuple j) with
      | tuples i _ => exact itemsEqual_congr hitems hall hab
      | leaves hlists htuples hdicts =>
        rw [equalsAt_eq_false rfl hlists htuples hdicts] at hab
        rw [← hab]
        exact equalsAt_eq_false rfl (by simp) (fun i _ ha => absurd rfl (htuples i j ha)) (by simp)
    | lists j k =>
      cases paired a (.list j) with
      | lists i _ =>
        by_cases hij : i = j
        · subst hij
          rw [equalsAt, if_pos rfl] at hab
          exact hbc.trans hab
        by_cases hjk : j = k
        · exact hjk ▸ hab
        by_cases hik : i = k
        · -- A list is equal to itself, so the others have to be equal both ways round.
          subst hik
          rw [equalsAt_comm hb, hab] at hbc
          rw [equalsAt, if_pos rfl]
          exact hbc.symm
        rw [equalsAt, if_neg hij] at hab
        rw [equalsAt, if_neg hjk] at hbc
        rw [equalsAt, if_neg hik]
        exact itemsEqual_congr hitems (itemsEqual_eq_true_iff.mp hbc) hab
      | leaves hlists htuples hdicts =>
        rw [equalsAt_eq_false rfl hlists htuples hdicts] at hab
        rw [← hab]
        exact equalsAt_eq_false rfl (fun i _ ha => absurd rfl (hlists i j ha)) (by simp) (by simp)

theorem equals_congr (hb : h.Throughout (·.isDict = false) b) (hab : h.equals a b = .ok r)
    (hbc : h.equals b c = .ok true) : h.equals a c = .ok r :=
  equalsAt_congr hb hab hbc

theorem equals_comm (ha : h.Throughout (·.isDict = false) a) : h.equals a b = h.equals b a :=
  equalsAt_comm ha

theorem equals_congr_left (ha : h.Throughout (·.isDict = false) a)
    (hb : h.Throughout (·.isDict = false) b) (hab : h.equals a b = .ok true)
    (hbc : h.equals b c = .ok r) : h.equals a c = .ok r := by
  rw [equals_comm ha] at hab ⊢
  rw [equals_comm hb] at hbc
  exact equals_congr hb hbc hab

/-! ### Order -/

theorem exists_number?_of_equals {y : Number} (hy : b.number? = some y)
    (hbc : h.equals b c = .ok true) :
    ∃ z x, c.number? = some z ∧ y.value? = some x ∧ z.value? = some x := by
  have hleaf : b.isLeaf := by cases b <;> first | rfl | cases hy
  rw [equals, equalsAt_of_isLeaf hleaf, Except.ok.injEq, leavesEqual_iff,
    essence?_of_number? hy] at hbc
  obtain ⟨e, heb, hec⟩ := hbc
  obtain ⟨x, hyx, rfl⟩ := Option.map_eq_some_iff.mp heb
  obtain ⟨z, hz, hzx⟩ := Option.bind_eq_some_iff.mp (essence?_eq_number_iff.mp hec)
  exact ⟨z, x, hz, hyx, hzx⟩

theorem eq_of_equals_text {s : String} (hbc : h.equals (.str s) c = .ok true) : c = .str s := by
  rw [equals, equalsAt_of_isLeaf rfl, Except.ok.injEq, leavesEqual_iff] at hbc
  obtain ⟨e, heb, hec⟩ := hbc
  cases heb
  exact eq_of_essence?_object hec

theorem AreRows.trans (hab : AreRows a b) (hbc : AreRows b c) : AreRows a c := by
  cases hab with
  | lists i j => cases hbc with | lists _ k => exact .lists i k
  | tuples i j => cases hbc with | tuples _ k => exact .tuples i k

theorem areRows_of_equals (hrows : AreRows a b) (hbc : h.equals b c = .ok true) : AreRows b c := by
  have hleaf : b.isLeaf = false := by cases hrows <;> rfl
  cases paired b c with
  | lists j k => exact .lists j k
  | tuples j k => exact .tuples j k
  | dicts j k => cases hrows
  | leaves hlists htuples hdicts =>
    rw [equals, equalsAt_leaves hlists htuples hdicts, leavesEqual_of_not_isLeaf hleaf] at hbc
    obtain rfl := of_decide_eq_true (Except.ok.inj hbc)
    exact hrows.symm.trans hrows

-- A value in front of another is in front of all that equal it, and so on.
theorem orderAt_congr (hb : h.Throughout (·.isDict = false) b) (ho : h.orderAt op fuel a b = .ok o)
    (hbc : h.equals b c = .ok true) : h.orderAt op fuel a c = .ok o := by
  induction fuel generalizing a b c o
  case zero => rw [orderAt] at ho; cases ho
  case succ fuel ih =>
    obtain ⟨_, hfuel, hcases⟩ := orderAt_cases ho
    cases hfuel
    obtain ⟨x, y, hx, hy, rfl⟩ | ⟨s, t, rfl, rfl, rfl⟩ | ⟨hrows, hitems⟩ := hcases
    · obtain ⟨z, v, hz, hyv, hzv⟩ := exists_number?_of_equals hy hbc
      rw [orderAt_numbers hx hz, Number.compare?_congr hyv hzv]
    · exact eq_of_equals_text hbc ▸ ho
    · rcases equals_rows (areRows_of_equals hrows hbc) hbc with rfl | hall
      · exact ho
      rw [orderAt_rows (hrows.trans (areRows_of_equals hrows hbc))]
      exact orderItems_congr (fun u _ v hv w _ r hvw huv => equals_congr (hb.item hv) huv hvw)
        (fun u _ v hv w _ o hvw huv => ih (hb.item hv) huv hvw) hall hitems

theorem orderAt_congr_left (hb : h.Throughout (·.isDict = false) b)
    (hc : h.Throughout (·.isDict = false) c) (hab : h.equals a b = .ok true)
    (ho : h.orderAt op fuel b c = .ok o) : h.orderAt op fuel a c = .ok o := by
  rw [← equals_comm hb] at hab
  have hca : h.orderAt op fuel c a = .ok o.swap := orderAt_congr hb (orderAt_swap hb ho) hab
  rw [orderAt_swap hc hca, Ordering.swap_swap]

-- Values in which there is no dict and no NaN.
def Ranked (h : Heap) (v : Value) : Prop :=
  h.Throughout (fun u => u.isDict = false ∧ u.isNaN = false) v

namespace Ranked

theorem isDict (ha : h.Ranked a) : h.Throughout (·.isDict = false) a := ha.imp fun _ => And.left

theorem isNaN (ha : h.Ranked a) : h.Throughout (·.isNaN = false) a := ha.imp fun _ => And.right

theorem items (ha : h.Ranked a) : ∀ w ∈ h.items a, h.Ranked w := fun _ hw => ha.item hw

end Ranked

theorem order_ne_eq (ha : h.Ranked a) (hb : h.Ranked b) (hab : h.equals a b = .ok false)
    (ho : h.orderAt op fuel a b = .ok o) : o ≠ .eq := by
  intro heq
  rcases (eq_iff_equals_or_undecided hab ho).mp heq with htrue | hundecided
  · cases htrue
  · exact not_undecided ha.isNaN hb.isNaN hundecided

theorem orderItems_trans {as bs cs : List Value} (has : ∀ a ∈ as, h.Ranked a)
    (hbs : ∀ b ∈ bs, h.Ranked b) (hcs : ∀ c ∈ cs, h.Ranked c)
    (htrans : ∀ a ∈ as, ∀ b ∈ bs, ∀ c ∈ cs, ∀ o p q, h.orderAt op fuel a b = .ok o →
      h.orderAt op fuel b c = .ok p → h.orderAt op fuel a c = .ok q → o ≠ .gt → p ≠ .gt → q ≠ .gt)
    (hab : orderItems h.equals (h.orderAt op fuel) as bs = .ok o)
    (hbc : orderItems h.equals (h.orderAt op fuel) bs cs = .ok p)
    (hac : orderItems h.equals (h.orderAt op fuel) as cs = .ok q) (ho : o ≠ .gt) (hp : p ≠ .gt) :
    q ≠ .gt := by
  induction as generalizing bs cs
  case nil => cases cs <;> cases hac <;> nofun
  case cons a as ih =>
    cases bs with
    | nil => cases hab; exact absurd rfl ho
    | cons b bs =>
    cases cs with
    | nil => cases hbc; exact absurd rfl hp
    | cons c cs =>
      obtain ⟨ha, has⟩ := List.forall_mem_cons.mp has
      obtain ⟨hb, hbs⟩ := List.forall_mem_cons.mp hbs
      obtain ⟨hc, hcs⟩ := List.forall_mem_cons.mp hcs
      obtain ⟨heab, hab⟩ | ⟨heab, hab⟩ := orderItems_cons_cases hab <;>
        obtain ⟨hebc, hbc⟩ | ⟨hebc, hbc⟩ := orderItems_cons_cases hbc
      · rw [orderItems_cons_of_equal (equals_congr hb.isDict heab hebc)] at hac
        exact ih has hbs hcs (fun a ha b hb c hc => htrans a (.tail _ ha) b (.tail _ hb) c
          (.tail _ hc)) hab hbc hac
      · rw [orderItems_cons_of_differ (equals_congr_left ha.isDict hb.isDict heab hebc),
          orderAt_congr_left hb.isDict hc.isDict heab hbc] at hac
        exact Except.ok.inj hac ▸ hp
      · rw [orderItems_cons_of_differ (equals_congr hb.isDict heab hebc),
          orderAt_congr hb.isDict hab hebc] at hac
        exact Except.ok.inj hac ▸ ho
      · obtain ⟨heac, -⟩ | ⟨-, hac⟩ := orderItems_cons_cases hac
        · -- Below `b` and above it at once.
          have hcb : h.orderAt op fuel c b = .ok o :=
            orderAt_congr_left ha.isDict hb.isDict (equals_comm ha.isDict ▸ heac) hab
          have hswap := Except.ok.inj (hcb.symm.trans (orderAt_swap hb.isDict hbc))
          have hne := order_ne_eq ha hb heab hab
          cases p <;> cases hswap <;> contradiction
        · exact htrans a List.mem_cons_self b List.mem_cons_self c List.mem_cons_self o p q hab hbc
            hac ho hp

theorem exists_number?_of_orderAt {y : Number} (hy : b.number? = some y)
    (hbc : h.orderAt op fuel b c = .ok p) : ∃ z, c.number? = some z := by
  obtain ⟨_, -, ⟨_, z, -, hz, -⟩ | ⟨s, t, rfl, -⟩ | ⟨hrows, -⟩⟩ := orderAt_cases hbc
  · exact ⟨z, hz⟩
  · cases hy
  · cases hrows <;> cases hy

theorem exists_text_of_orderAt {t : String} (hbc : h.orderAt op fuel (.str t) c = .ok p) :
    ∃ u, c = .str u ∧ p = compare t u := by
  obtain ⟨_, -, ⟨_, _, ht, -⟩ | ⟨_, u, ht, hu, hp⟩ | ⟨hrows, -⟩⟩ := orderAt_cases hbc
  · cases ht
  · cases ht
    exact ⟨u, hu, hp⟩
  · cases hrows

theorem areRows_of_orderAt (hrows : AreRows a b) (hbc : h.orderAt op fuel b c = .ok p) :
    AreRows b c := by
  obtain ⟨_, -, ⟨_, _, hb, -⟩ | ⟨_, _, rfl, -⟩ | ⟨hrows', -⟩⟩ := orderAt_cases hbc
  · cases hrows <;> cases hb
  · cases hrows
  · exact hrows'

theorem exists_value? {x : Number} (ha : a.isNaN = false) (hx : a.number? = some x) :
    ∃ v, x.value? = some v := by
  rw [← isNaN_number? hx, ← Bool.not_eq_true, ← Number.value?_eq_none_iff] at ha
  exact Option.ne_none_iff_exists'.mp ha

theorem orderAt_trans (ha : h.Ranked a) (hb : h.Ranked b) (hc : h.Ranked c)
    (hab : h.orderAt op fuel a b = .ok o) (hbc : h.orderAt op fuel b c = .ok p)
    (hac : h.orderAt op fuel a c = .ok q) (ho : o ≠ .gt) (hp : p ≠ .gt) : q ≠ .gt := by
  induction fuel generalizing a b c o p q
  case zero => rw [orderAt] at hab; cases hab
  case succ fuel ih =>
    obtain ⟨_, hfuel, hcases⟩ := orderAt_cases hab
    cases hfuel
    obtain ⟨x, y, hx, hy, rfl⟩ | ⟨s, t, rfl, rfl, rfl⟩ | ⟨hrows, hab⟩ := hcases
    · obtain ⟨z, hz⟩ := exists_number?_of_orderAt hy hbc
      rw [orderAt_numbers hy hz] at hbc
      rw [orderAt_numbers hx hz] at hac
      cases hbc
      cases hac
      obtain ⟨u, hu⟩ := exists_value? ha.isNaN.self hx
      obtain ⟨v, hv⟩ := exists_value? hb.isNaN.self hy
      obtain ⟨w, hw⟩ := exists_value? hc.isNaN.self hz
      rw [Number.compare?_ne_gt_iff hu hv] at ho
      rw [Number.compare?_ne_gt_iff hv hw] at hp
      exact (Number.compare?_ne_gt_iff hu hw).mpr (ho.trans hp)
    · obtain ⟨u, rfl, rfl⟩ := exists_text_of_orderAt hbc
      cases hac
      change compare s u ≠ .gt
      exact Ordering.ne_gt_iff_isLE.mpr (Std.TransCmp.isLE_trans
        (Ordering.ne_gt_iff_isLE.mp ho) (Ordering.ne_gt_iff_isLE.mp hp))
    · have hrows' := areRows_of_orderAt hrows hbc
      rw [orderAt_rows hrows'] at hbc
      rw [orderAt_rows (hrows.trans hrows')] at hac
      exact orderItems_trans ha.items hb.items hc.items (fun a ha' b hb' c hc' o p q => ih
        (ha.items a ha') (hb.items b hb') (hc.items c hc')) hab hbc hac ho hp

end Heap
end NoteCell
