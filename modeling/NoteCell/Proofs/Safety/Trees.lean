import NoteCell.Machine.Libraries
import NoteCell.Proofs.Tree.Shape
import NoteCell.Suspension.Insertion

/-!
Safe trees: every statement that leaves something has something to leave, every target can be
assigned to, and the function `input` is used as the program at hand may use it.
-/
namespace NoteCell

/-! ### Uses of `input` -/

-- The children of a form but for what it calls.
def ExprForm.operands {α : Type} : ExprForm α → List α
  | call _ args keywords => args ++ keywords.map (·.2)
  | form => form.children

def Expr.isInput (e : Expr) : Bool :=
  match e.form with
  | .name s => s == "input"
  | _ => false

-- The names that a statement binds, beside its targets.
def StmtForm.binders {σ : Type} : StmtForm σ → List String
  | define name params _ _ => name :: params.map (·.name)
  | imports names | importFrom _ names => names.map Libraries.bindingName
  | _ => []

-- How a program may use `input`, beside calling it by its name.
structure Usage where
  -- Whether it is a value like others, which is held and passed on, and its name one like others.
  held : Prop
  -- What every node of an expression meets.
  form : ExprForm Expr → Prop
  operand {f : ExprForm Expr} : form f → ∀ o ∈ f.operands, o.isInput → held

def Usage.any : Usage := ⟨True, fun _ => True, fun _ _ _ _ => trivial⟩

theorem ExprForm.mem_children_of_mem_operands {α : Type} {form : ExprForm α} {o : α}
    (h : o ∈ form.operands) : o ∈ form.children := by
  cases form
  case call => exact List.mem_cons_of_mem _ h
  all_goals exact h

/-! ### Expressions -/

variable (u : Usage)

-- What may be called: every node is as it may be.
def Expr.Proper : Expr → Prop := All fun _ form => u.form form

-- What may be evaluated anywhere.
structure Expr.Safe (e : Expr) : Prop where
  proper : e.Proper u
  held : e.isInput → u.held

structure Expr.SafeTarget (e : Expr) : Prop where
  safe : e.Safe u
  assignable : e.unassignable? = none

namespace Expr

variable {u} {e : Expr}

theorem isInput_iff : e.isInput = true ↔ e.form = .name "input" := by
  obtain ⟨info, form⟩ := e
  cases form <;> simp [isInput, Expr.form]

theorem calls_iff : e.calls "input" = true
    ↔ ∃ func args keywords, e.form = .call func args keywords ∧ func.isInput := by
  obtain ⟨info, form⟩ := e
  cases form
  case call func args keywords =>
    obtain ⟨info', func⟩ := func
    cases func <;> simp [calls, callTarget?, isInput, Expr.form]
  all_goals simp [calls, callTarget?, Expr.form]

theorem Proper.form (h : e.Proper u) : u.form e.form := by
  cases e
  exact All.root h

theorem Proper.child (h : e.Proper u) {c : Expr} (hc : c ∈ e.form.children) : c.Proper u := by
  cases e
  exact All.child h c hc

theorem Proper.operand (h : e.Proper u) {o : Expr} (ho : o ∈ e.form.operands) : o.Safe u :=
  ⟨h.child (ExprForm.mem_children_of_mem_operands ho), u.operand h.form o ho⟩

theorem Safe.name (h : e.Safe u) {s : String} (hform : e.form = .name s) :
    s = "input" → u.held := by
  rintro rfl
  exact h.held (isInput_iff.mpr hform)

theorem unassignable?_of_first {items : List Expr} (h : firstUnassignable? items = none) :
    ∀ i ∈ items, i.unassignable? = none := by
  induction items
  case nil => simp
  case cons e es ih =>
    rw [firstUnassignable?, Option.or_eq_none_iff] at h
    exact List.forall_mem_cons.mpr ⟨h.1, ih h.2⟩

theorem firstUnassignable?_of_forall {items : List Expr} (h : ∀ i ∈ items, i.unassignable? = none) :
    firstUnassignable? items = none := by
  induction items
  case nil => rfl
  case cons e es ih =>
    obtain ⟨he, hes⟩ := List.forall_mem_cons.mp h
    rw [firstUnassignable?, he, ih hes]
    rfl

theorem SafeTarget.item (h : e.SafeTarget u) {items : List Expr}
    (hform : e.form = .tuple items ∨ e.form = .list items) : ∀ i ∈ items, i.SafeTarget u := by
  intro i hi
  have hoperand : i ∈ e.form.operands := by
    obtain hform | hform := hform <;> rw [hform] <;> exact hi
  refine ⟨h.safe.proper.operand hoperand, unassignable?_of_first ?_ i hi⟩
  have hassign := h.assignable
  obtain ⟨info, form⟩ := e
  obtain rfl | rfl : form = .tuple items ∨ form = .list items := hform
  all_goals simpa only [unassignable?] using hassign

theorem unassignable?_of_isName (h : e.IsName) : e.unassignable? = none := by
  obtain ⟨s, hs⟩ := h
  obtain ⟨info, form⟩ := e
  obtain rfl : form = .name s := hs
  rw [unassignable?]

theorem unassignable?_of_isLoopTarget (h : e.IsLoopTarget) : e.unassignable? = none := by
  obtain hname | ⟨a, b, items, hform, hnames⟩ := h
  · exact unassignable?_of_isName hname
  · obtain ⟨info, form⟩ := e
    obtain rfl : form = .tuple (a :: b :: items) := hform
    rw [unassignable?]
    exact firstUnassignable?_of_forall fun i hi => unassignable?_of_isName (hnames i hi)

theorem unassignable?_of_isPlace (h : e.isPlace) : e.unassignable? = none := by
  obtain ⟨info, form⟩ := e
  cases form
  case name | member | subscript => rw [unassignable?]
  all_goals simp [isPlace, Expr.form] at h

end Expr

-- Every expression may be evaluated where `input` is a value like others.
theorem Expr.safe_any (e : Expr) : e.Safe .any :=
  ⟨.of_forall fun _ _ => trivial, fun _ => trivial⟩

/-! ### Statements -/

-- A statement that may stand in some surroundings.
structure Stmt.Safe (around : Surroundings) (s : Stmt) : Prop where
  nodes : s.All fun _ form =>
    form.Regular ∧ (∀ e ∈ form.exprs, e.Safe u) ∧ ("input" ∈ form.binders → u.held)
  placed : s.stray? around = none

-- The surroundings of a body that a function has.
def Surroundings.function : Surroundings := ⟨true, false⟩

namespace Stmt.Safe

variable {u} {around : Surroundings} {s : Stmt}

theorem regular (h : s.Safe u around) : s.form.Regular := by
  cases s
  exact h.nodes.root.1

theorem expr (h : s.Safe u around) {e : Expr} (he : e ∈ s.form.exprs) : e.Safe u := by
  cases s
  exact h.nodes.root.2.1 e he

theorem binders (h : s.Safe u around) : "input" ∈ s.form.binders → u.held := by
  cases s
  exact h.nodes.root.2.2

theorem stray?_form (h : s.Safe u around) : s.form.stray? around = none := by
  cases s
  exact (stray?_eq_none_iff.mp h.placed).1

theorem stmt (h : s.Safe u around) {t : Stmt} (ht : t ∈ s.form.stmts) :
    t.Safe u (around.inside s.form) := by
  cases s
  exact ⟨h.nodes.child t ht, (stray?_eq_none_iff.mp h.placed).2 t ht⟩

theorem targets (h : s.Safe u around) {targets : List Expr} {value : Expr}
    (hform : s.form = .assign targets value) : ∀ t ∈ targets, t.SafeTarget u := by
  intro t ht
  have hregular := h.regular
  have hexpr : t ∈ s.form.exprs := by
    rw [hform]
    exact List.mem_cons_of_mem _ ht
  rw [hform] at hregular
  exact ⟨h.expr hexpr, hregular.2 t ht⟩

theorem loopTarget (h : s.Safe u around) {target iter : Expr} {body : List Stmt}
    (hform : s.form = .forEach target iter body) : target.SafeTarget u := by
  have hregular := h.regular
  have hexpr : target ∈ s.form.exprs := by
    rw [hform]
    simp [StmtForm.exprs]
  rw [hform] at hregular
  exact ⟨h.expr hexpr, Expr.unassignable?_of_isLoopTarget hregular.1⟩

end Stmt.Safe

theorem Stmt.safe_any {around : Surroundings} {s : Stmt}
    (hregular : s.All fun _ form => form.Regular) (hplaced : s.stray? around = none) : s.Safe .any around :=
  ⟨hregular.imp fun _ _ h => ⟨h, fun e _ => e.safe_any, fun _ => trivial⟩, hplaced⟩

end NoteCell
