import NoteCell.Machine.Step
import NoteCell.Proofs.Number.Arithmetic
import NoteCell.Proofs.Value.Literals

/-!
Evaluated literals. Evaluating a literal makes a copy of the data that it was written for, of objects
that are new; so what the text of data is read as gives that data again.
-/
namespace NoteCell

open Heap

/-! ### Runs -/

-- Some steps lead from one machine to another, without an answer of the host.
def Machine.Runs (m m' : Machine) : Prop := ∃ n, Machine.step^[n] m = m'

namespace Machine.Runs

variable {m m' m₁ m₂ m₃ : Machine}

theorem refl (m : Machine) : m.Runs m := ⟨0, rfl⟩

theorem trans (h₁₂ : m₁.Runs m₂) (h₂₃ : m₂.Runs m₃) : m₁.Runs m₃ := by
  obtain ⟨n, rfl⟩ := h₁₂
  obtain ⟨k, rfl⟩ := h₂₃
  exact ⟨k + n, Function.iterate_add_apply step k n m₁⟩

theorem step (h : m.step.Runs m') : m.Runs m' := .trans ⟨1, rfl⟩ h

end Machine.Runs

-- Evaluating an expression gives a value and a world, wherever it stands.
def Expr.Evaluates (e : Expr) (world : World) (v : Value) (world' : World) : Prop :=
  ∀ frames context,
    Machine.Runs ⟨.eval e, frames, context, world⟩ ⟨.give v, frames, context, world'⟩

-- In any world, evaluating an expression makes a copy of a value and changes no list, tuple or dict.
def Expr.Builds (e : Expr) (h : Heap) (v : Value) : Prop :=
  ∀ world : World, ∃ w h', e.Evaluates world w { world with heap := h' }
    ∧ world.heap.Extends h' ∧ h.Copies h' v w

/-! ### Rows of operands -/

-- What a list or a tuple does with its items: an empty row is there already.
def Machine.evaluateRow (m : Machine) (es : List Expr) (op : Operation) : Machine :=
  match es with
  | [] => m.perform [] op
  | e :: es => m.operand [] e es op

namespace Expr.Builds

variable {h : Heap} {v : Value} {e : Expr}

-- From left to right: what the operands before have given stands in the frame, newest first.
theorem row {es : List Expr} {vs : List Value} (hes : List.Forall₂ (·.Builds h) (e :: es) (v :: vs))
    (done : List Value) (op : Operation) (world : World) :
    ∃ ws u h', world.heap.Extends h' ∧ List.Forall₂ (h.Copies h') (v :: vs) ws
      ∧ ∀ frames context, Machine.Runs ⟨.eval e, .operands done es op :: frames, context, world⟩
        (Machine.perform ⟨.give u, frames, context, { world with heap := h' }⟩ (done.reverse ++ ws) op) := by
  induction es generalizing e v vs done world
  case nil =>
    obtain ⟨he, hrest⟩ := List.forall₂_cons.mp hes
    cases hrest
    obtain ⟨w, h', hevaluates, hextends, hcopies⟩ := he world
    refine ⟨[w], w, h', hextends, .cons hcopies .nil, fun frames context => ?_⟩
    refine (hevaluates _ context).trans (.step ?_)
    rw [← List.reverse_cons]
    exact .refl _
  case cons e₂ es ih =>
    obtain ⟨he, hrest⟩ := List.forall₂_cons.mp hes
    obtain ⟨w, h₁, hevaluates, hextends, hcopies⟩ := he world
    cases hrest with
    | cons he₂ hrest =>
      obtain ⟨ws, u, h₂, hextends₂, hcopies₂, hruns⟩ :=
        ih (.cons he₂ hrest) (w :: done) { world with heap := h₁ }
      refine ⟨w :: ws, u, h₂, hextends.trans hextends₂,
        .cons (hcopies.grow (.refl h) hextends₂) hcopies₂, fun frames context => ?_⟩
      refine (hevaluates _ context).trans (.step ?_)
      have hrow := hruns frames context
      rw [List.reverse_cons, List.append_assoc] at hrow
      exact hrow

-- A row of operands of which an operation makes one new object.
theorem of_row {es : List Expr} {vs : List Value} (op : Operation) (value : Heap → Value)
    (grown : Heap → List Value → Heap) (hes : List.Forall₂ (·.Builds h) es vs)
    (hstep : ∀ frames context world, Machine.step ⟨.eval e, frames, context, world⟩
      = Machine.evaluateRow ⟨.eval e, frames, context, world⟩ es op)
    (hperform : ∀ control frames context world ws,
      Machine.perform ⟨control, frames, context, world⟩ ws op
        = ⟨.give (value world.heap), frames, context, { world with heap := grown world.heap ws }⟩)
    (hgrown : ∀ (h' : Heap) ws, h'.Extends (grown h' ws))
    (hcopies : ∀ h' ws, List.Forall₂ (h.Copies (grown h' ws)) vs ws →
      h.Copies (grown h' ws) v (value h')) : e.Builds h v := by
  intro world
  cases hes with
  | nil =>
    refine ⟨value world.heap, grown world.heap [], fun frames context => .step ?_, hgrown _ _,
      hcopies _ _ .nil⟩
    rw [hstep, Machine.evaluateRow, hperform]
    exact .refl _
  | cons he hes =>
    obtain ⟨ws, u, h', hextends, hrow, hruns⟩ := row (.cons he hes) [] op world
    refine ⟨value h', grown h' ws, fun frames context => .step ?_, hextends.trans (hgrown h' ws),
      hcopies h' ws (hrow.imp fun _ _ hcopy => hcopy.grow (.refl h) (hgrown h' ws))⟩
    have hend := hruns frames context
    rw [hperform] at hend
    rw [hstep]
    exact hend

/-! ### Lists and tuples -/

variable {id : Nat} {es : List Expr}

theorem list (hform : e.form = .list es) (hid : id < h.lists.size)
    (hes : List.Forall₂ (·.Builds h) es (h.items (.list id))) : e.Builds h (.list id) := by
  refine of_row .list (fun h' => .list h'.lists.size)
    (fun h' ws => { h' with lists := h'.lists.push ws.toArray }) hes (fun _ _ _ => ?_)
    (fun _ _ _ _ _ => rfl) (fun h' ws => .newList h' _)
    fun h' ws hcopies => .of_items_list hid (by simp) ?_
  · simp only [Machine.step, Machine.eval, hform]
    cases es <;> rfl
  · rw [Methods.items_push_list]
    exact hcopies

theorem tuple (hform : e.form = .tuple es) (hid : id < h.tuples.size)
    (hes : List.Forall₂ (·.Builds h) es (h.items (.tuple id))) : e.Builds h (.tuple id) := by
  refine of_row .tuple (fun h' => .tuple h'.tuples.size)
    (fun h' ws => { h' with tuples := h'.tuples.push ws.toArray }) hes (fun _ _ _ => ?_)
    (fun _ _ _ _ _ => rfl) (fun h' ws => .newTuple h' _)
    fun h' ws hcopies => .of_items_tuple hid (by simp) ?_
  · simp only [Machine.step, Machine.eval, hform]
    cases es <;> rfl
  · rw [items_push_tuple]
    exact hcopies

/-! ### Dicts -/

-- A key and a value that are put in where no key is the same.
theorem runs_entry {k w : Value} {ek ew : Expr} (hk : ek.Builds h k) (hw : ew.Builds h w)
    (hhashable : h.requireHashable k = .ok ()) {past done : Entries} {world : World}
    (hdone : List.Forall₂ (h.CopiesEntry world.heap) past done)
    (hpast : ∀ e ∈ past, h.requireHashable e.1 = .ok () ∧ h.sameKey e.1 k = false)
    (rest : List (Expr × Expr)) : ∃ e h', world.heap.Extends h'
      ∧ List.Forall₂ (h.CopiesEntry h') (past ++ [(k, w)]) (done ++ [e])
      ∧ ∀ control frames context, ∃ control', Machine.Runs
        (Machine.nextEntry ⟨control, frames, context, world⟩ done ((ek, ew) :: rest))
        (Machine.nextEntry ⟨control', frames, context, { world with heap := h' }⟩ (done ++ [e]) rest) := by
  obtain ⟨ws, u, h', hextends, hcopies, hruns⟩ :=
    row (.cons hk (.cons hw .nil)) [] (.entry done rest) world
  obtain ⟨k', _, hkey, hrest, rfl⟩ := List.forall₂_cons_left_iff.mp hcopies
  obtain ⟨w', _, hvalue, hnil, rfl⟩ := List.forall₂_cons_left_iff.mp hrest
  cases hnil
  have hdone' : List.Forall₂ (h.CopiesEntry h') past done :=
    hdone.imp fun _ _ hcopy => hcopy.grow (.refl h) hextends
  refine ⟨(k', w'), h', hextends, List.rel_append hdone' (.cons ⟨hkey, hvalue⟩ .nil),
    fun control frames context => ⟨.give u, ?_⟩⟩
  have hinsert : h'.insertKey done k' w' = .ok (done ++ [(k', w')]) := by
    refine insertKey_append (hkey.requireHashable hhashable) (forall_mem_right (forall₂_imp_mem ?_ hdone'))
    intro e he e' _ hcopy
    rw [hcopy.1.sameKey_eq (hpast e he).1 hhashable hkey, (hpast e he).2]
  have hperform : Machine.perform ⟨.give u, frames, context, { world with heap := h' }⟩ [k', w']
      (.entry done rest)
      = Machine.act ⟨.give u, frames, context, { world with heap := h' }⟩
        (Action.lift (h'.insertKey done k' w')) fun m entries => m.nextEntry entries rest := rfl
  have hrow := hruns frames context
  rw [List.reverse_nil, List.nil_append, hperform, hinsert] at hrow
  exact hrow

-- The entries so far are copies of those that have been gone through, and no key is put in twice.
theorem runs_entries {es : List (Expr × Expr)} {entries : Entries}
    (hes : List.Forall₂ (fun p e => p.1.Builds h e.1 ∧ p.2.Builds h e.2) es entries)
    {past done : Entries} {world : World} (hdone : List.Forall₂ (h.CopiesEntry world.heap) past done)
    (hhashable : ∀ e ∈ past ++ entries, h.requireHashable e.1 = .ok ())
    (hdistinct : (past ++ entries).Pairwise fun e f => h.sameKey e.1 f.1 = false) :
    ∃ made h', world.heap.Extends h' ∧ List.Forall₂ (h.CopiesEntry h') (past ++ entries) made
      ∧ ∀ control frames context, ∃ control', Machine.Runs
        (Machine.nextEntry ⟨control, frames, context, world⟩ done es)
        (Machine.nextEntry ⟨control', frames, context, { world with heap := h' }⟩ made []) := by
  induction hes generalizing past done world
  case nil =>
    rw [List.append_nil]
    exact ⟨done, world.heap, .refl _, hdone, fun control _ _ => ⟨control, .refl _⟩⟩
  case cons p e es entries hp _ ih =>
    have hpast : ∀ f ∈ past, h.requireHashable f.1 = .ok () ∧ h.sameKey f.1 e.1 = false := fun f hf =>
      ⟨hhashable f (List.mem_append_left _ hf),
        (List.pairwise_append.mp hdistinct).2.2 f hf e List.mem_cons_self⟩
    have hkey : h.requireHashable e.1 = .ok () :=
      hhashable e (List.mem_append_right _ List.mem_cons_self)
    obtain ⟨e', h₁, hextends₁, hdone₁, hruns₁⟩ := runs_entry hp.1 hp.2 hkey hdone hpast es
    rw [List.append_cons] at hhashable hdistinct ⊢
    obtain ⟨made, h₂, hextends₂, hmade, hruns₂⟩ := @ih _ _ { world with heap := h₁ } hdone₁
      hhashable hdistinct
    refine ⟨made, h₂, hextends₁.trans hextends₂, hmade, fun control frames context => ?_⟩
    obtain ⟨control₁, hruns₁⟩ := hruns₁ control frames context
    obtain ⟨control₂, hruns₂⟩ := hruns₂ control₁ frames context
    exact ⟨control₂, hruns₁.trans hruns₂⟩

theorem dict {es : List (Expr × Expr)} (hform : e.form = .dict es) (hid : id < h.dicts.size)
    (hhashable : ∀ e ∈ h.dict id, h.requireHashable e.1 = .ok ())
    (hdistinct : (h.dict id).Pairwise fun e f => h.sameKey e.1 f.1 = false)
    (hes : List.Forall₂ (fun p e => p.1.Builds h e.1 ∧ p.2.Builds h e.2) es (h.dict id)) :
    e.Builds h (.dict id) := by
  intro world
  obtain ⟨made, h', hextends, hcopies, hruns⟩ :=
    @runs_entries h es _ hes [] [] world .nil hhashable hdistinct
  have hnew := Extends.newDict h' made
  refine ⟨.dict h'.dicts.size, _, fun frames context => .step ?_, hextends.trans hnew, ?_⟩
  · have hstep : Machine.step ⟨.eval e, frames, context, world⟩
        = Machine.nextEntry ⟨.eval e, frames, context, world⟩ [] es := by
      simp only [Machine.step, Machine.eval, hform]
    obtain ⟨control, hruns⟩ := hruns (.eval e) frames context
    exact hstep ▸ hruns
  · have hmade : { h' with dicts := h'.dicts.push made }.dict h'.dicts.size = made := by
      simp [Heap.dict]
    refine .of_entries hid (by simp) ?_
    rw [hmade]
    exact hcopies.imp fun _ _ hcopy => hcopy.grow (.refl h) hnew

end Expr.Builds

/-! ### Scalars -/

theorem ExprForm.map_of_leaf {α : Type} {f : α → α} {form : ExprForm α} (hleaf : form.children = []) :
    form.map f = form := by
  cases form
  case dict entries => cases entries <;> first | rfl | cases hleaf
  all_goals simp_all [map, children]

namespace Expr

variable {h : Heap} {v u : Value} {e operand : Expr} {world : World} {form : ExprForm Expr}

theorem map_form_of_bare (h : e.bare = ofForm form) : e.form.map bare = form :=
  (form_bare e).symm.trans (congrArg Expr.form h)

theorem form_of_bare (h : e.bare = ofForm form) (hleaf : form.children = []) : e.form = form := by
  have hform := map_form_of_bare h
  rw [← hform, ExprForm.children_map, List.map_eq_nil_iff] at hleaf
  rw [← hform, ExprForm.map_of_leaf hleaf]

theorem form_of_bare_unary {op : UnaryOp} {operand : Expr} (h : e.bare = ofForm (.unary op operand)) :
    ∃ operand', e.form = .unary op operand' ∧ operand'.bare = operand := by
  have hform := map_form_of_bare h
  cases hcase : e.form
  case unary =>
    rw [hcase] at hform
    cases hform
    exact ⟨_, rfl, rfl⟩
  all_goals
    rw [hcase] at hform
    cases hform

theorem evaluates_leaf (hform : e.form = form) (hleaf : ∀ m : Machine, m.eval (ofForm form) = m.give v)
    (world : World) : e.Evaluates world v world := by
  intro frames context
  have hstep : Machine.step ⟨.eval e, frames, context, world⟩
      = Machine.eval ⟨.eval e, frames, context, world⟩ (ofForm form) := by
    rw [← hform]
    rfl
  rw [hleaf] at hstep
  exact .step (hstep ▸ .refl _)

-- The operand first, and then the operator.
theorem evaluates_unary {op : UnaryOp} (hform : e.form = .unary op operand)
    (hoperand : operand.Evaluates world u world)
    (hvalue : (Operators.unary op u).run.run world = (.ok v, world)) : e.Evaluates world v world := by
  intro frames context
  have hstep : Machine.step ⟨.eval e, frames, context, world⟩
      = ⟨.eval operand, .operands [] [] (.unary op) :: frames, context, world⟩ := by
    simp only [Machine.step, Machine.eval, hform]
    rfl
  have hgive : Machine.step ⟨.give u, .operands [] [] (.unary op) :: frames, context, world⟩
      = ⟨.give v, frames, context, world⟩ := by
    change Machine.act ⟨.give u, frames, context, world⟩ (Operators.unary op u) Machine.give = _
    simp only [Machine.act, hvalue]
    rfl
  refine .step (hstep ▸ (hoperand _ context).trans (.step ?_))
  exact hgive ▸ .refl _

theorem evaluates_scalar (hv : v.isScalar) (he : e.bare = ofForm v.literalForm) (world : World) :
    e.Evaluates world v world := by
  cases v
  case nothing => exact evaluates_leaf (form_of_bare he rfl) (fun _ => rfl) world
  case bool b => exact evaluates_leaf (form_of_bare he rfl) (fun _ => rfl) world
  case str s => exact evaluates_leaf (form_of_bare he rfl) (fun _ => rfl) world
  case int k =>
    have hk : k ≠ Int64.minValue := of_decide_eq_true hv
    rw [Value.literalForm] at he
    split at he
    case isTrue =>
      obtain ⟨operand, hform, hoperand⟩ := form_of_bare_unary he
      have hleaf : operand.Evaluates world (.int (-k)) world :=
        evaluates_leaf (form_of_bare hoperand rfl) (fun _ => rfl) world
      have hexact : Arithmetic.exact (-(-k).toInt) = .ok (.int k) :=
        Arithmetic.exact_of_toInt_eq (by rw [toInt_neg_of_ne_minValue hk, neg_neg])
      refine evaluates_unary hform hleaf ((Operators.computes_neg (-k) world).trans ?_)
      rw [hexact]
      rfl
    case isFalse => exact evaluates_leaf (form_of_bare he rfl) (fun _ => rfl) world
  case float x =>
    rw [Value.literalForm] at he
    split at he
    case isTrue =>
      obtain ⟨operand, hform, hoperand⟩ := form_of_bare_unary he
      have hleaf : operand.Evaluates world (.float (-x)) world :=
        evaluates_leaf (form_of_bare hoperand rfl) (fun _ => rfl) world
      have hnegate : (Operators.unary .neg (.float (-x))).run.run world = (.ok (.float (-(-x))), world) :=
        Action.run_lift_map _ _ world
      rw [Double.neg_neg] at hnegate
      exact evaluates_unary hform hleaf hnegate
    case isFalse => exact evaluates_leaf (form_of_bare he rfl) (fun _ => rfl) world
  all_goals cases hv

end Expr

/-! ### Literals -/

theorem forall₂_of_map_eq {α β γ : Type} {f : α → γ} {g : β → γ} {as : List α} {bs : List β}
    (h : as.map f = bs.map g) : List.Forall₂ (fun a b => f a = g b) as bs := by
  have hequal : List.Forall₂ Eq (as.map f) (bs.map g) := h ▸ List.forall₂_refl _
  rwa [List.forall₂_map_left_iff, List.forall₂_map_right_iff] at hequal

-- What has the shape of the literal of data makes a copy of it.
theorem Heap.Data.builds {h : Heap} {n : Nat} {v : Value} {e : Expr} (hv : h.Data n v)
    (he : e.bare = h.literal n v) : e.Builds h v := by
  induction hv generalizing e
  case scalar n v hscalar =>
    rw [literal_of_isScalar hscalar] at he
    exact fun world => ⟨v, world.heap, Expr.evaluates_scalar hscalar he world, .refl _, .scalar hscalar⟩
  all_goals
    have hform := Expr.map_form_of_bare he
    generalize hcase : e.form = form at hform
    cases form
  case list.list n id hid _ ih es =>
    injection hform with hes
    refine .list hcase hid (forall₂_imp_mem ?_ (forall₂_of_map_eq hes))
    exact fun e _ w hw he => ih w hw he
  case tuple.tuple n id hid _ ih es =>
    injection hform with hes
    refine .tuple hcase hid (forall₂_imp_mem ?_ (forall₂_of_map_eq hes))
    exact fun e _ w hw he => ih w hw he
  case dict.dict n id hid hhashable hdistinct _ _ ihkeys ihvalues entries =>
    injection hform with hes
    refine .dict hcase hid hhashable hdistinct (forall₂_imp_mem ?_ (forall₂_of_map_eq hes))
    intro p _ e he hp
    injection hp with hkey hvalue
    exact ⟨ihkeys e he hkey, ihvalues e he hvalue⟩
  all_goals cases hform

/-! ### Texts of data, read back -/

-- Evaluating the one expression of a cell ends the cell.
theorem Expr.Evaluates.runs_cell {e : Expr} {info : NodeInfo} {world world' : World} {v : Value}
    (he : e.Evaluates world v world') (cell : String) :
    Machine.Runs (Machine.start [.node info (.expr e)] cell world)
      ⟨.ended (.finished (if v.isNothing then none else some v)), [], ⟨Heap.globals, 0, cell⟩, world'⟩ :=
  .step ((he [.cell []] ⟨Heap.globals, 0, cell⟩).trans (.step (.refl _)))

namespace Heap

-- Whatever data is nested at most 190 levels deep, its text is read as one expression. Evaluated in
-- any world, wherever it stands, that expression makes a copy of the data, with the same types at
-- every place and the same text; and the two are equal where the world still holds the data.
theorem repr_reads_back {h : Heap} {v : Value} (hv : h.Data 190 v) :
    ∃ c info e, parse (h.repr v) = .ok c ∧ c.body = [.node info (.expr e)]
      ∧ ∀ world : World, ∃ v' h', world.heap.Extends h'
        ∧ e.Evaluates world v' { world with heap := h' }
        ∧ (∀ cell, Machine.Runs (Machine.start c.body cell world)
          ⟨.ended (.finished (if v'.isNothing then none else some v')), [], ⟨globals, 0, cell⟩,
            { world with heap := h' }⟩)
        ∧ h.Copies h' v v' ∧ h'.repr v' = h.repr v
        ∧ (h.Extends world.heap → h'.equals v v' = .ok true) := by
  obtain ⟨c, info, e, hparse, hbody, hbare⟩ := hv.parse_repr (by decide)
  refine ⟨c, info, e, hparse, hbody, fun world => ?_⟩
  obtain ⟨v', h', hevaluates, hextends, hcopies⟩ := hv.builds hbare world
  refine ⟨v', h', hextends, hevaluates, fun cell => hbody ▸ hevaluates.runs_cell cell, hcopies, ?_,
    fun hkept => ?_⟩
  · rw [(hv.copy hcopies).repr_eq (by decide), hv.literal_copy hcopies, hv.repr_eq (by decide)]
  · have hgrown := hkept.trans hextends
    exact (hv.copy (hv.copies.grow (.refl h) hgrown)).equals_copy (by decide)
      (hcopies.grow hgrown (.refl h'))

-- Both quotation marks, a negative zero, an empty tuple in one of one item, and keys of three types.
theorem repr_reads_back_nested :
    let h : Heap := { Heap.empty with
      lists := #[#[.nothing, .str "it's \"", .float 1.5]]
      tuples := #[#[.int (-1), .float (-0.0)], #[.tuple 2], #[]]
      dicts := #[[(.tuple 0, .list 0), (.bool true, .tuple 1), (.str "k", .list 0)]] }
    let text := "\x7b(-1, -0.0): [None, 'it\\'s \"', 1.5], True: ((),), 'k': [None, 'it\\'s \"', 1.5]\x7d"
    h.Data 190 (.dict 0) ∧ h.repr (.dict 0) = text
      ∧ ∃ c info e, parse text = .ok c ∧ c.body = [.node info (.expr e)]
        ∧ ∃ v' h', e.Evaluates ⟨h, [], false⟩ v' ⟨h', [], false⟩
          ∧ h'.equals (.dict 0) v' = .ok true ∧ h'.repr v' = text := by
  intro h text
  have hscalars : ∀ v ∈ [Value.list 0, .tuple 0, .tuple 2], ∀ w ∈ h.items v, w.isScalar := by
    decide +kernel
  have hlist : h.Data 2 (.list 0) :=
    .list (by decide) fun w hw => .scalar 1 (hscalars _ (by decide) w hw)
  have htuple : h.Data 2 (.tuple 0) :=
    .tuple (by decide) fun w hw => .scalar 1 (hscalars _ (by decide) w hw)
  have hempty : h.Data 1 (.tuple 2) :=
    .tuple (by decide) fun w hw => .scalar 0 (hscalars _ (by decide) w hw)
  have hsingle : h.Data 2 (.tuple 1) := .tuple (by decide) (List.forall_mem_singleton.mpr hempty)
  have hdata : h.Data 3 (.dict 0) := by
    refine .dict (by decide) (by decide +kernel) (by decide +kernel) ?_ ?_
    · exact List.forall_mem_cons.mpr ⟨htuple, List.forall_mem_cons.mpr
        ⟨.scalar 2 rfl, List.forall_mem_singleton.mpr (.scalar 2 rfl)⟩⟩
    · exact List.forall_mem_cons.mpr ⟨hlist, List.forall_mem_cons.mpr
        ⟨hsingle, List.forall_mem_singleton.mpr hlist⟩⟩
  have htext : h.repr (.dict 0) = text := by decide +kernel
  have hshallow : h.Data 190 (.dict 0) := hdata.mono (by decide)
  obtain ⟨c, info, e, hparse, hbody, hread⟩ := repr_reads_back hshallow
  obtain ⟨v', h', -, hevaluates, -, -, hrepr, hequal⟩ := hread ⟨h, [], false⟩
  exact ⟨hshallow, htext, c, info, e, htext ▸ hparse, hbody, v', h', hevaluates, hequal (.refl h),
    hrepr.trans htext⟩

end Heap
end NoteCell
