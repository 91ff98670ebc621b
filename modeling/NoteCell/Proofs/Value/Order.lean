import NoteCell.Machine.Operators
import NoteCell.Proofs.Value.Equality

/-!
Order of values, and how the comparisons hang together: what is not less is equal, and the other way
round, unless a NaN decides.
-/
namespace NoteCell

/-! ### Rows of items -/

section

variable {eq : Value → Value → Attempt Bool} {order order' : Value → Value → Attempt Ordering}
  {as bs : List Value} {a b v w : Value} {o : Ordering}

theorem orderItems_cons_of_equal (hab : eq a b = .ok true) :
    orderItems eq order (a :: as) (b :: bs) = orderItems eq order as bs := by
  rw [orderItems, hab]
  rfl

theorem orderItems_cons_of_differ (hab : eq a b = .ok false) :
    orderItems eq order (a :: as) (b :: bs) = order a b := by
  rw [orderItems, hab]
  rfl

theorem orderItems_cons_cases (ho : orderItems eq order (a :: as) (b :: bs) = .ok o) :
    (eq a b = .ok true ∧ orderItems eq order as bs = .ok o)
      ∨ (eq a b = .ok false ∧ order a b = .ok o) := by
  cases hab : eq a b with
  | error f => rw [orderItems, hab] at ho; cases ho
  | ok equal =>
    cases equal with
    | true => exact .inl ⟨rfl, (orderItems_cons_of_equal hab).symm.trans ho⟩
    | false => exact .inr ⟨rfl, (orderItems_cons_of_differ hab).symm.trans ho⟩

-- Where two rows first differ.
inductive FirstDifference (eq : Value → Value → Attempt Bool) :
    List Value → List Value → Value → Value → Prop
  | here {a b : Value} {as bs : List Value} (hab : eq a b = .ok false) :
    FirstDifference eq (a :: as) (b :: bs) a b
  | later {a b v w : Value} {as bs : List Value} (hab : eq a b = .ok true)
    (hrest : FirstDifference eq as bs v w) : FirstDifference eq (a :: as) (b :: bs) v w

theorem FirstDifference.differ (hd : FirstDifference eq as bs v w) : eq v w = .ok false := by
  induction hd with
  | here hab => exact hab
  | later _ _ ih => exact ih

theorem FirstDifference.mem (hd : FirstDifference eq as bs v w) : v ∈ as ∧ w ∈ bs := by
  induction hd with
  | here => exact ⟨List.mem_cons_self, List.mem_cons_self⟩
  | later _ _ ih => exact ih.imp (List.mem_cons_of_mem _) (List.mem_cons_of_mem _)

theorem orderItems_of_firstDifference (hd : FirstDifference eq as bs v w) :
    orderItems eq order as bs = order v w := by
  induction hd with
  | here hab => exact orderItems_cons_of_differ hab
  | later hab _ ih => exact (orderItems_cons_of_equal hab).trans ih

theorem orderItems_of_forall₂ (heq : List.Forall₂ (fun a b => eq a b = .ok true) as bs) :
    orderItems eq order as bs = .ok .eq := by
  induction heq with
  | nil => rfl
  | cons hab _ ih => exact (orderItems_cons_of_equal hab).trans ih

-- The first difference decides, or the lengths if there is none.
theorem orderItems_cases (ho : orderItems eq order as bs = .ok o) :
    (∃ v w, FirstDifference eq as bs v w ∧ order v w = .ok o)
      ∨ (o = .eq → List.Forall₂ (fun a b => eq a b = .ok true) as bs) := by
  induction as generalizing bs
  case nil =>
    cases bs with
    | nil => exact .inr fun _ => .nil
    | cons b bs =>
      cases ho
      exact .inr nofun
  case cons a as ih =>
    cases bs with
    | nil =>
      cases ho
      exact .inr nofun
    | cons b bs =>
      obtain ⟨hab, ho⟩ | ⟨hab, ho⟩ := orderItems_cons_cases ho
      · obtain ⟨v, w, hd, hvw⟩ | hall := ih ho
        · exact .inl ⟨v, w, .later hab hd, hvw⟩
        · exact .inr fun heq => .cons hab (hall heq)
      · exact .inl ⟨a, b, .here hab, ho⟩

theorem orderItems_swap (heq : ∀ a ∈ as, ∀ b ∈ bs, eq a b = eq b a)
    (horder : ∀ a ∈ as, ∀ b ∈ bs, ∀ o, order a b = .ok o → order' b a = .ok o.swap)
    (ho : orderItems eq order as bs = .ok o) : orderItems eq order' bs as = .ok o.swap := by
  induction as generalizing bs
  case nil =>
    cases bs <;> cases ho <;> rfl
  case cons a as ih =>
    cases bs with
    | nil => cases ho; rfl
    | cons b bs =>
      have hba := heq a List.mem_cons_self b List.mem_cons_self
      obtain ⟨hab, ho⟩ | ⟨hab, ho⟩ := orderItems_cons_cases ho
      · rw [orderItems_cons_of_equal (hba.symm.trans hab)]
        exact ih (fun a ha b hb => heq a (.tail _ ha) b (.tail _ hb))
          (fun a ha b hb => horder a (.tail _ ha) b (.tail _ hb)) ho
      · rw [orderItems_cons_of_differ (hba.symm.trans hab)]
        exact horder a List.mem_cons_self b List.mem_cons_self o ho

theorem orderItems_self (hself : ∀ a ∈ as, ∀ o, order a a = .ok o → o = .eq)
    (ho : orderItems eq order as as = .ok o) : o = .eq := by
  induction as
  case nil => cases ho; rfl
  case cons a as ih =>
    obtain ⟨-, ho⟩ | ⟨-, ho⟩ := orderItems_cons_cases ho
    · exact ih (fun a ha => hself a (.tail _ ha)) ho
    · exact hself a List.mem_cons_self o ho

end

namespace Heap

variable {h : Heap} {op op' : CompareOp} {fuel : Nat} {a b : Value} {o : Ordering}

/-! ### Order of values -/

-- Both lists or both tuples.
inductive AreRows : Value → Value → Prop
  | lists (i j : Nat) : AreRows (.list i) (.list j)
  | tuples (i j : Nat) : AreRows (.tuple i) (.tuple j)

theorem orderAt_numbers {x y : Number} (ha : a.number? = some x) (hb : b.number? = some y) :
    h.orderAt op (fuel + 1) a b = .ok ((x.compare? y).getD .eq) := by
  rw [orderAt.eq_def]
  simp only [ha, hb]
  rfl

theorem orderAt_rows (hrows : AreRows a b) : h.orderAt op (fuel + 1) a b
    = orderItems h.equals (h.orderAt op fuel) (h.items a) (h.items b) := by
  cases hrows <;> rfl

theorem orderAt_cases (ho : h.orderAt op fuel a b = .ok o) : ∃ fuel', fuel = fuel' + 1 ∧
    ((∃ x y, a.number? = some x ∧ b.number? = some y ∧ o = (x.compare? y).getD .eq)
      ∨ (∃ s t, a = .str s ∧ b = .str t ∧ o = compare s t)
      ∨ (AreRows a b
        ∧ orderItems h.equals (h.orderAt op fuel') (h.items a) (h.items b) = .ok o)) := by
  cases fuel with
  | zero => rw [orderAt] at ho; cases ho
  | succ fuel =>
    refine ⟨fuel, rfl, ?_⟩
    rw [orderAt.eq_def] at ho
    dsimp only at ho
    split at ho
    case h_1 x y ha hb => exact .inl ⟨x, y, ha, hb, (Except.ok.inj ho).symm⟩
    case h_2 =>
      split at ho
      case h_1 s t _ => exact .inr (.inl ⟨s, t, rfl, rfl, (Except.ok.inj ho).symm⟩)
      case h_2 i j _ => exact .inr (.inr ⟨.lists i j, ho⟩)
      case h_3 i j _ => exact .inr (.inr ⟨.tuples i j, ho⟩)
      case h_4 => cases ho

/-! ### Equality of numbers, texts and rows -/

theorem equals_numbers_iff {x y : Number} (ha : a.number? = some x) (hb : b.number? = some y) :
    h.equals a b = .ok true ↔ ∃ p, x.value? = some p ∧ y.value? = some p := by
  have hleaf : a.isLeaf := by cases a <;> first | rfl | cases ha
  rw [equals, equalsAt_of_isLeaf hleaf, Except.ok.injEq, leavesEqual_iff, essence?_of_number? ha,
    essence?_of_number? hb]
  constructor
  · rintro ⟨e, hx, hy⟩
    obtain ⟨p, hxp, rfl⟩ := Option.map_eq_some_iff.mp hx
    obtain ⟨q, hyq, heq⟩ := Option.map_eq_some_iff.mp hy
    cases heq
    exact ⟨p, hxp, hyq⟩
  · rintro ⟨p, hx, hy⟩
    exact ⟨.number p, by rw [hx]; rfl, by rw [hy]; rfl⟩

theorem equals_texts_iff {s t : String} : h.equals (.str s) (.str t) = .ok true ↔ s = t := by
  rw [equals, equalsAt_of_isLeaf rfl, Except.ok.injEq, leavesEqual_iff]
  simp [essence?, Value.number?, eq_comm]

theorem equals_rows (hrows : AreRows a b) (heq : h.equals a b = .ok true) :
    a = b ∨ List.Forall₂ (fun v w => h.equals v w = .ok true) (h.items a) (h.items b) := by
  have hmono : ∀ v w, h.equalsAt h.sameKey nestingLimit v w = .ok true →
      h.equals v w = .ok true := fun v w hvw => equalsAt_mono hvw (Nat.le_succ _)
  cases hrows with
  | lists i j =>
    rw [equals, equalsAt] at heq
    split at heq
    case isTrue hij => exact .inl (congrArg Value.list hij)
    case isFalse => exact .inr ((itemsEqual_eq_true_iff.mp heq).imp hmono)
  | tuples i j => exact .inr ((itemsEqual_eq_true_iff.mp heq).imp hmono)

theorem equals_of_forall₂ (hrows : AreRows a b) {r : Bool} (hr : h.equals a b = .ok r)
    (hitems : List.Forall₂ (fun v w => h.equals v w = .ok true) (h.items a) (h.items b)) :
    r = true := by
  have hmono : ∀ v w r, h.equalsAt h.sameKey nestingLimit v w = .ok r → h.equals v w = .ok r :=
    fun v w r hvw => equalsAt_mono hvw (Nat.le_succ _)
  have hrow : ∀ as bs : Array Value, as.toList = h.items a → bs.toList = h.items b →
      itemsEqual (h.equalsAt h.sameKey nestingLimit) as bs = .ok r → r = true := by
    intro as bs has hbs hequal
    rw [← has, ← hbs] at hitems
    exact Except.ok.inj ((itemsEqual_mono hmono hequal).symm.trans
      (itemsEqual_eq_true_iff.mpr hitems))
  cases hrows with
  | lists i j =>
    rw [equals, equalsAt] at hr
    split at hr
    case isTrue => exact (Except.ok.inj hr).symm
    case isFalse => exact hrow _ _ rfl rfl hr
  | tuples i j => exact hrow _ _ rfl rfl hr

/-! ### Order and equality -/

-- The first items that differ are numbers of which one is a NaN.
inductive Undecided (h : Heap) : Value → Value → Prop
  | numbers {a b : Value} {x y : Number} (ha : a.number? = some x) (hb : b.number? = some y)
    (hnan : x.isNaN ∨ y.isNaN) : Undecided h a b
  | rows {a b v w : Value} (hrows : AreRows a b)
    (hfirst : FirstDifference h.equals (h.items a) (h.items b) v w)
    (hvw : Undecided h v w) : Undecided h a b

theorem AreRows.symm (hrows : AreRows a b) : AreRows b a := by
  cases hrows with
  | lists i j => exact .lists j i
  | tuples i j => exact .tuples j i

theorem orderAt_swap (ha : h.Throughout (·.isDict = false) a)
    (ho : h.orderAt op fuel a b = .ok o) : h.orderAt op' fuel b a = .ok o.swap := by
  induction fuel generalizing a b o
  case zero => rw [orderAt] at ho; cases ho
  case succ fuel ih =>
    obtain ⟨_, hfuel, hcases⟩ := orderAt_cases ho
    cases hfuel
    obtain ⟨x, y, hx, hy, rfl⟩ | ⟨s, t, rfl, rfl, rfl⟩ | ⟨hrows, ho⟩ := hcases
    · rw [orderAt_numbers hy hx, Number.getD_compare?_swap]
    · rw [← Std.OrientedCmp.eq_swap]
      rfl
    · rw [orderAt_rows hrows.symm]
      refine orderItems_swap (fun v hv w _ => ?_) (fun v hv w _ o => ih (ha.item hv)) ho
      exact equalsAt_comm (ha.item hv)

theorem orderAt_self (ho : h.orderAt op fuel a a = .ok o) : o = .eq := by
  induction fuel generalizing a o
  case zero => rw [orderAt] at ho; cases ho
  case succ fuel ih =>
    obtain ⟨_, hfuel, hcases⟩ := orderAt_cases ho
    cases hfuel
    obtain ⟨x, y, hx, hy, rfl⟩ | ⟨s, t, rfl, ht, rfl⟩ | ⟨hrows, ho⟩ := hcases
    · obtain rfl := Option.some.inj (hx.symm.trans hy)
      exact x.getD_compare?_self
    · cases ht
      exact compare_eq_iff_eq.mpr rfl
    · exact orderItems_self (fun a _ o => ih) ho

theorem eq_of_equals (heq : h.equals a b = .ok true) (ho : h.orderAt op fuel a b = .ok o) :
    o = .eq := by
  obtain ⟨fuel, rfl, hcases⟩ := orderAt_cases ho
  obtain ⟨x, y, hx, hy, rfl⟩ | ⟨s, t, rfl, rfl, rfl⟩ | ⟨hrows, hitems⟩ := hcases
  · obtain ⟨p, hxp, hyp⟩ := (equals_numbers_iff hx hy).mp heq
    rw [Number.compare?_eq_some hxp hyp, compare_eq_iff_eq.mpr rfl]
    rfl
  · exact compare_eq_iff_eq.mpr (equals_texts_iff.mp heq)
  · rcases equals_rows hrows heq with rfl | hall
    · exact orderAt_self ho
    · rw [orderItems_of_forall₂ hall] at hitems
      exact (Except.ok.inj hitems).symm

theorem equals_or_undecided {r : Bool} (hr : h.equals a b = .ok r)
    (ho : h.orderAt op fuel a b = .ok .eq) : r = true ∨ h.Undecided a b := by
  induction fuel generalizing a b r
  case zero => rw [orderAt] at ho; cases ho
  case succ fuel ih =>
    have hequal : h.equals a b = .ok true → r = true := fun htrue =>
      Except.ok.inj (hr.symm.trans htrue)
    obtain ⟨_, hfuel, hcases⟩ := orderAt_cases ho
    cases hfuel
    obtain ⟨x, y, hx, hy, heq⟩ | ⟨s, t, rfl, rfl, heq⟩ | ⟨hrows, hitems⟩ := hcases
    · obtain ⟨p, q, hxp, hyq, hcompare⟩ | ⟨hnan, -⟩ := Number.compare?_cases x y
      · rw [hcompare] at heq
        obtain rfl := compare_eq_iff_eq.mp heq.symm
        exact .inl (hequal ((equals_numbers_iff hx hy).mpr ⟨p, hxp, hyq⟩))
      · exact .inr (.numbers hx hy hnan)
    · exact .inl (hequal (equals_texts_iff.mpr (compare_eq_iff_eq.mp heq.symm)))
    · obtain ⟨v, w, hfirst, hvw⟩ | hall := orderItems_cases hitems
      · exact .inr (.rows hrows hfirst ((ih hfirst.differ hvw).resolve_left nofun))
      · exact .inl (equals_of_forall₂ hrows hr (hall rfl))

theorem eq_of_undecided (hu : h.Undecided a b) (ho : h.orderAt op fuel a b = .ok o) : o = .eq := by
  induction hu generalizing fuel with
  | numbers ha hb hnan =>
    obtain ⟨fuel, rfl, -⟩ := orderAt_cases ho
    rw [orderAt_numbers ha hb, Number.compare?_eq_none hnan] at ho
    exact (Except.ok.inj ho).symm
  | rows hrows hfirst _ ih =>
    obtain ⟨fuel, rfl, -⟩ := orderAt_cases ho
    rw [orderAt_rows hrows, orderItems_of_firstDifference hfirst] at ho
    exact ih ho

theorem eq_iff_equals_or_undecided {equal : Bool} (hequal : h.equals a b = .ok equal)
    (ho : h.orderAt op fuel a b = .ok o) : o = .eq ↔ equal ∨ h.Undecided a b := by
  constructor
  · rintro rfl
    exact equals_or_undecided hequal ho
  · rintro (htrue | hu)
    · exact eq_of_equals (htrue ▸ hequal) ho
    · exact eq_of_undecided hu ho

theorem isNaN_number? {x : Number} (ha : a.number? = some x) : x.isNaN = a.isNaN := by
  cases a <;> cases ha <;> rfl

theorem not_undecided (ha : h.Throughout (·.isNaN = false) a)
    (hb : h.Throughout (·.isNaN = false) b) : ¬ h.Undecided a b := by
  intro hu
  induction hu with
  | numbers hx hy hnan =>
    rw [isNaN_number? hx, isNaN_number? hy, ha.self, hb.self] at hnan
    exact hnan.elim nofun nofun
  | rows _ hfirst _ ih => exact ih (ha.item hfirst.mem.1) (hb.item hfirst.mem.2)

end Heap

/-! ### Comparisons -/

namespace Operators

variable {h : Heap} {a b : Value}

theorem exists_order {less : Bool} (hless : compare h .less a b = .ok less) :
    ∃ o, h.order .less a b = .ok o ∧ less = decide (o = .lt) := by
  cases ho : h.order .less a b with
  | error f =>
    rw [compare, ho] at hless
    cases hless
  | ok o =>
    rw [compare, ho] at hless
    exact ⟨o, rfl, (Except.ok.inj hless).symm⟩

-- For values without dicts. If `a < b` and `a == b` give an answer, all comparisons do.
theorem compare_coherent {less equal : Bool} (ha : h.Throughout (·.isDict = false) a)
    (hb : h.Throughout (·.isDict = false) b) (hless : compare h .less a b = .ok less)
    (hequal : compare h .eq a b = .ok equal) :
    ∃ atMost greater atLeast lessBack atMostBack, compare h .lessEq a b = .ok atMost
      ∧ compare h .greater a b = .ok greater ∧ compare h .greaterEq a b = .ok atLeast
      ∧ compare h .less b a = .ok lessBack ∧ compare h .lessEq b a = .ok atMostBack
      ∧ (atMost ↔ less ∨ equal ∨ h.Undecided a b)
      ∧ (h.Throughout (·.isNaN = false) a → h.Throughout (·.isNaN = false) b →
        (atMost ↔ less ∨ equal))
      ∧ (atLeast ↔ atMostBack) ∧ (greater ↔ lessBack) ∧ (less → ¬ equal ∧ ¬ greater) := by
  obtain ⟨o, horder, rfl⟩ := exists_order hless
  have hback : ∀ op, h.order op b a = .ok o.swap := fun op => Heap.orderAt_swap ha horder
  have hforth : ∀ op, h.order op a b = .ok o := fun op => by
    rw [Heap.order, Heap.orderAt_swap hb (hback op), Ordering.swap_swap]
  have heq : o = .eq ↔ equal ∨ h.Undecided a b := Heap.eq_iff_equals_or_undecided hequal horder
  have hiff : decide (o ≠ .gt) ↔ decide (o = .lt) ∨ equal ∨ h.Undecided a b := by
    rw [← heq]
    cases o <;> decide
  refine ⟨decide (o ≠ .gt), decide (o = .gt), decide (o ≠ .lt), decide (o.swap = .lt),
    decide (o.swap ≠ .gt), by rw [compare, hforth]; rfl, by rw [compare, hforth]; rfl,
    by rw [compare, hforth]; rfl, by rw [compare, hback]; rfl, by rw [compare, hback]; rfl, hiff,
    ?_, ?_, ?_, ?_⟩
  · intro hnanA hnanB
    rw [hiff, or_iff_left (Heap.not_undecided hnanA hnanB)]
  · cases o <;> rfl
  · cases o <;> rfl
  · intro hlt
    obtain rfl := of_decide_eq_true hlt
    exact ⟨fun htrue => Ordering.noConfusion (heq.mpr (.inl htrue)), nofun⟩

-- `[1, "a"]` and `[1.0, "a"]`.
theorem compare_coherent_rows :
    let h : Heap := { Heap.empty with
      lists := #[#[.int 1, .str "a"], #[.float 1.0, .str "a"]] }
    ∃ atMost atLeast atMostBack, compare h .lessEq (.list 0) (.list 1) = .ok atMost
      ∧ compare h .greaterEq (.list 0) (.list 1) = .ok atLeast
      ∧ compare h .lessEq (.list 1) (.list 0) = .ok atMostBack ∧ atMost
      ∧ (atLeast ↔ atMostBack) := by
  intro h
  have hitems : ∀ v ∈ [Value.list 0, .list 1], v.isDict = false ∧ v.isNaN = false
      ∧ ∀ w ∈ h.items v, w.isLeaf ∧ w.isDict = false ∧ w.isNaN = false := by
    decide +kernel
  have hdict : ∀ v ∈ [Value.list 0, .list 1], h.Throughout (·.isDict = false) v :=
    fun v hv => .of_items_isLeaf (hitems v hv).1 fun w hw =>
      ((hitems v hv).2.2 w hw).imp_right And.left
  have hnan : ∀ v ∈ [Value.list 0, .list 1], h.Throughout (·.isNaN = false) v :=
    fun v hv => .of_items_isLeaf (hitems v hv).2.1 fun w hw =>
      ((hitems v hv).2.2 w hw).imp_right And.right
  obtain ⟨atMost, -, atLeast, -, atMostBack, hatMost, -, hatLeast, -, hatMostBack, -, hiff,
      hback, -, -⟩ :=
    @compare_coherent h (.list 0) (.list 1) false true (hdict _ (by decide)) (hdict _ (by decide))
      (by decide +kernel) (by decide +kernel)
  exact ⟨atMost, atLeast, atMostBack, hatMost, hatLeast, hatMostBack,
    (hiff (hnan _ (by decide)) (hnan _ (by decide))).mpr (.inr rfl), hback⟩

-- A NaN is at most 1, though neither less than it nor equal to it.
theorem lessEq_of_isNaN :
    let nan := Value.float (Float.ofBits 0x7FF8000000000000)
    compare Heap.empty .lessEq nan (.float 1.0) = .ok true
      ∧ compare Heap.empty .less nan (.float 1.0) = .ok false
      ∧ compare Heap.empty .eq nan (.float 1.0) = .ok false := by
  decide +kernel

end Operators
end NoteCell
