import Mathlib
import NoteCell.Parsing.Statement
import NoteCell.Tree.Completion
import NoteCell.Tree.ControlFlow

/-!
Shapes of trees. What parsing and printing have in common is the shape of a tree: its forms without
ids, places and depths. The depth of a tree is a matter of its shape, and a tree that was built node
by node records it correctly. Which statements are stray, and whether a tree meets the conditions
that reading it again relies on, are matters of its shape as well.
-/
namespace NoteCell

namespace ExprForm

variable {α β γ : Type}

theorem map_map (f : α → β) (g : β → γ) (form : ExprForm α) :
    (form.map f).map g = form.map (fun a => g (f a)) := by
  cases form <;> simp [map]

theorem map_congr {f g : α → β} {form : ExprForm α} (h : ∀ c ∈ form.children, f c = g c) :
    form.map f = form.map g := by
  cases form <;> simp_all [map, children]
  case dict => exact fun a b hm => ⟨h a a b hm (.inl rfl), h b a b hm (.inr rfl)⟩
  case compare => exact fun _ b hm => h.2 b _ hm
  case call => exact fun _ b hm => h.2 b (.inr ⟨_, hm⟩)

end ExprForm

namespace StmtForm

variable {σ τ υ : Type}

theorem exprs_map (f : Expr → Expr) (g : σ → τ) (form : StmtForm σ) :
    (form.map f g).exprs = form.exprs.map f := by
  cases form <;> simp [map, exprs]
  case define params _ _ =>
    exact (List.map_filterMap ..).symm
  case ret value | raise value => cases value <;> rfl

theorem map_map (f f' : Expr → Expr) (g : σ → τ) (g' : τ → υ) (form : StmtForm σ) :
    (form.map f g).map f' g' = form.map (fun e => f' (f e)) (fun s => g' (g s)) := by
  cases form <;> simp [map, Function.comp_def]

theorem map_congr {f f' : Expr → Expr} {g g' : σ → τ} {form : StmtForm σ}
    (he : ∀ e ∈ form.exprs, f e = f' e) (hs : ∀ s ∈ form.stmts, g s = g' s) :
    form.map f g = form.map f' g' := by
  cases form <;> simp_all [map, exprs, stmts]
  case define params _ _ => exact fun p hp => Option.map_congr fun e h => he e p hp h
  case ret value | raise value => cases value <;> simp_all

theorem map_attach (f : Expr → Expr) (g : σ → τ) (form : StmtForm σ) :
    form.attach.map f (fun s => g s.1) = form.map f g := by
  cases form <;> simp [attach, map]
  all_goals exact List.attach_map_val

end StmtForm

/-! ### Depth -/

theorem Expr.nestingOver_le {k : Nat} {depths : List Nat} :
    nestingOver depths ≤ k + 1 ↔ ∀ d ∈ depths, d ≤ k := by
  have foldl_le (m : Nat) : depths.foldl max m ≤ k ↔ m ≤ k ∧ ∀ d ∈ depths, d ≤ k := by
    induction depths generalizing m
    case nil => simp
    case cons d ds ih => simp [ih, and_assoc]
  have h := foldl_le 0
  simp only [nestingOver, Nat.zero_le, true_and] at h ⊢
  rw [← h]
  omega

theorem Expr.lt_nestingOver {d : Nat} {depths : List Nat} (h : d ∈ depths) :
    d < nestingOver depths := by
  obtain ⟨k, hk⟩ : ∃ k, nestingOver depths = k + 1 := ⟨_, Nat.add_comm 1 _⟩
  have := nestingOver_le.mp (Nat.le_of_eq hk) d h
  omega

def Expr.depth : Expr → Nat
  | node _ form => nestingOver (form.children.attach.map fun ⟨c, _h⟩ => depth c)
termination_by e => sizeOf e
decreasing_by exact sizeOf_lt_of_mem _h

theorem Expr.depth_node (info : NodeInfo) (form : ExprForm Expr) :
    (node info form).depth = nestingOver (form.children.map depth) := by
  rw [depth]
  congr 1
  exact List.attach_map_val

theorem Expr.depth_lt {info : NodeInfo} {form : ExprForm Expr} {c : Expr} (hc : c ∈ form.children) :
    c.depth < (node info form).depth := by
  rw [depth_node]
  exact lt_nestingOver (List.mem_map_of_mem hc)

def Stmt.depth : Stmt → Nat
  | node _ form => Expr.nestingOver
      (form.exprs.map Expr.depth ++ form.stmts.attach.map fun ⟨s, _h⟩ => depth s)
termination_by s => sizeOf s
decreasing_by exact sizeOf_lt_of_mem _h

theorem Stmt.depth_node (info : NodeInfo) (form : StmtForm Stmt) :
    (node info form).depth
      = Expr.nestingOver (form.exprs.map Expr.depth ++ form.stmts.map depth) := by
  rw [depth]
  congr 2
  exact List.attach_map_val

/-! ### What holds of every node -/

inductive Expr.All (P : NodeInfo → ExprForm Expr → Prop) : Expr → Prop
  | node {info : NodeInfo} {form : ExprForm Expr} (here : P info form)
      (below : ∀ c ∈ form.children, Expr.All P c) : Expr.All P (.node info form)

inductive Stmt.All (P : NodeInfo → StmtForm Stmt → Prop) : Stmt → Prop
  | node {info : NodeInfo} {form : StmtForm Stmt} (here : P info form)
      (below : ∀ s ∈ form.stmts, Stmt.All P s) : Stmt.All P (.node info form)

namespace Expr

variable {P Q : NodeInfo → ExprForm Expr → Prop} {info : NodeInfo} {form : ExprForm Expr}

theorem All.root : (Expr.node info form).All P → P info form
  | .node here _ => here

theorem All.child : (Expr.node info form).All P → ∀ c ∈ form.children, c.All P
  | .node _ below => below

theorem All.of_forall {e : Expr} (h : ∀ info form, P info form) : e.All P := by
  induction e using childrenInduction
  case h ih => exact .node (h _ _) ih

theorem All.imp {e : Expr} (h : e.All P) (himp : ∀ info form, P info form → Q info form) :
    e.All Q := by
  induction h
  case node here _ ih => exact .node (himp _ _ here) ih

theorem All.and {e : Expr} (h : e.All P) (h' : e.All Q) :
    e.All fun info form => P info form ∧ Q info form := by
  induction h
  case node here _ ih => exact .node ⟨here, h'.root⟩ fun c hc => ih c hc (h'.child c hc)

-- The recorded depths are the depths.
def WellNested : Expr → Prop :=
  All fun info form => info.nesting = nestingOver (form.children.map (·.info.nesting))

theorem WellNested.nesting_eq {e : Expr} (h : e.WellNested) : e.info.nesting = e.depth := by
  induction h
  case node info form here below ih =>
    rw [depth_node, Expr.info, here]
    exact congrArg nestingOver (List.map_congr_left ih)

theorem wellNested_build {location : Location} (h : ∀ c ∈ form.children, c.WellNested) :
    (build form location).WellNested :=
  .node rfl h

end Expr

namespace Stmt

variable {P Q : NodeInfo → StmtForm Stmt → Prop} {info : NodeInfo} {form : StmtForm Stmt}

theorem All.root : (Stmt.node info form).All P → P info form
  | .node here _ => here

theorem All.child : (Stmt.node info form).All P → ∀ s ∈ form.stmts, s.All P
  | .node _ below => below

theorem All.of_forall {s : Stmt} (h : ∀ info form, P info form) : s.All P := by
  induction s using stmtsInduction
  case h ih => exact .node (h _ _) ih

theorem All.imp {s : Stmt} (h : s.All P) (himp : ∀ info form, P info form → Q info form) :
    s.All Q := by
  induction h
  case node here _ ih => exact .node (himp _ _ here) ih

theorem All.and {s : Stmt} (h : s.All P) (h' : s.All Q) :
    s.All fun info form => P info form ∧ Q info form := by
  induction h
  case node here _ ih => exact .node ⟨here, h'.root⟩ fun t ht => ih t ht (h'.child t ht)

def WellNested : Stmt → Prop :=
  All fun info form => (∀ e ∈ form.exprs, e.WellNested)
    ∧ info.nesting = Expr.nestingOver
        (form.exprs.map (·.info.nesting) ++ form.stmts.map (·.info.nesting))

theorem WellNested.nesting_eq {s : Stmt} (h : s.WellNested) : s.info.nesting = s.depth := by
  induction h
  case node info form here below ih =>
    have he := List.map_congr_left fun e h => (here.1 e h).nesting_eq
    rw [depth_node, Stmt.info, here.2, he]
    congr 2
    exact List.map_congr_left ih

theorem wellNested_build {location : Location} (he : ∀ e ∈ form.exprs, e.WellNested)
    (hs : ∀ s ∈ form.stmts, s.WellNested) : (build form location).WellNested :=
  .node ⟨he, rfl⟩ hs

end Stmt

/-! ### Changing what is known about nodes -/

namespace Expr

def mapInfo (f : NodeInfo → NodeInfo) : Expr → Expr
  | node info form => node (f info) (form.attach.map fun ⟨c, _h⟩ => mapInfo f c)
termination_by e => sizeOf e
decreasing_by exact sizeOf_lt_of_mem _h

variable {f g : NodeInfo → NodeInfo}

theorem mapInfo_node (info : NodeInfo) (form : ExprForm Expr) :
    mapInfo f (node info form) = node (f info) (form.map (mapInfo f)) := by
  rw [mapInfo]
  exact congrArg _ (ExprForm.map_attach (mapInfo f) form)

theorem mapInfo_mapInfo (e : Expr) : (e.mapInfo f).mapInfo g = e.mapInfo (fun i => g (f i)) := by
  induction e using childrenInduction
  case h info form ih =>
    simp only [mapInfo_node, ExprForm.map_map]
    rw [ExprForm.map_congr ih]

theorem form_mapInfo (e : Expr) : (e.mapInfo f).form = e.form.map (mapInfo f) := by
  cases e
  rw [mapInfo_node, form, form]

theorem info_mapInfo (e : Expr) : (e.mapInfo f).info = f e.info := by
  cases e
  rw [mapInfo_node, info, info]

theorem depth_mapInfo (e : Expr) : (e.mapInfo f).depth = e.depth := by
  induction e using childrenInduction
  case h info form ih =>
    simp only [mapInfo_node, depth_node, ExprForm.children_map, List.map_map]
    exact congrArg nestingOver (List.map_congr_left ih)

-- The shape alone.
def bare : Expr → Expr := mapInfo fun _ => ⟨0, .unknown, 0⟩

theorem bare_node (info : NodeInfo) (form : ExprForm Expr) :
    (node info form).bare = node ⟨0, .unknown, 0⟩ (form.map bare) :=
  mapInfo_node info form

theorem form_bare (e : Expr) : e.bare.form = e.form.map bare := form_mapInfo e

theorem depth_eq_of_bare {e e' : Expr} (h : e'.bare = e.bare) : e'.depth = e.depth := by
  rw [← depth_mapInfo e, ← depth_mapInfo e']
  exact congrArg depth h

theorem bare_mapInfo (e : Expr) : (e.mapInfo f).bare = e.bare := mapInfo_mapInfo e

end Expr

namespace Stmt

def mapInfo (f : NodeInfo → NodeInfo) : Stmt → Stmt
  | node info form => node (f info) (form.attach.map (Expr.mapInfo f) fun ⟨s, _h⟩ => mapInfo f s)
termination_by s => sizeOf s
decreasing_by exact sizeOf_lt_of_mem _h

variable {f g : NodeInfo → NodeInfo}

theorem mapInfo_node (info : NodeInfo) (form : StmtForm Stmt) :
    mapInfo f (node info form) = node (f info) (form.map (Expr.mapInfo f) (mapInfo f)) := by
  rw [mapInfo]
  exact congrArg _ (StmtForm.map_attach (Expr.mapInfo f) (mapInfo f) form)

theorem mapInfo_mapInfo (s : Stmt) : (s.mapInfo f).mapInfo g = s.mapInfo (fun i => g (f i)) := by
  induction s using stmtsInduction
  case h info form ih =>
    simp only [mapInfo_node, StmtForm.map_map, Expr.mapInfo_mapInfo]
    rw [StmtForm.map_congr (fun _ _ => rfl) ih]

theorem form_mapInfo (s : Stmt) :
    (s.mapInfo f).form = s.form.map (Expr.mapInfo f) (mapInfo f) := by
  cases s
  rw [mapInfo_node, form, form]

theorem depth_mapInfo (s : Stmt) : (s.mapInfo f).depth = s.depth := by
  induction s using stmtsInduction
  case h info form ih =>
    simp only [mapInfo_node, depth_node, StmtForm.exprs_map, StmtForm.stmts_map, List.map_map]
    congr 2
    · exact List.map_congr_left fun e _ => e.depth_mapInfo
    · exact List.map_congr_left ih

def bare : Stmt → Stmt := mapInfo fun _ => ⟨0, .unknown, 0⟩

theorem bare_node (info : NodeInfo) (form : StmtForm Stmt) :
    (node info form).bare = node ⟨0, .unknown, 0⟩ (form.map Expr.bare bare) :=
  mapInfo_node info form

theorem depth_eq_of_bare {s s' : Stmt} (h : s'.bare = s.bare) : s'.depth = s.depth := by
  rw [← depth_mapInfo s, ← depth_mapInfo s']
  exact congrArg depth h

theorem bare_mapInfo (s : Stmt) : (s.mapInfo f).bare = s.bare := mapInfo_mapInfo s

end Stmt

-- What is a matter of the shape holds of every expression of one shape.
theorem Expr.All.of_bare {P : ExprForm Expr → Prop} {e e' : Expr} (h : e.All fun _ form => P form)
    (hb : e'.bare = e.bare) (hmap : ∀ form, P (form.map Expr.bare) ↔ P form) :
    e'.All fun _ form => P form := by
  induction h generalizing e'
  case node info form here _ ih =>
    obtain ⟨info', form'⟩ := e'
    rw [bare_node, bare_node] at hb
    injection hb with _ hform
    refine .node ((hmap form').mp (hform ▸ (hmap form).mpr here)) fun c hc => ?_
    have hchildren := congrArg ExprForm.children hform
    rw [ExprForm.children_map, ExprForm.children_map] at hchildren
    obtain ⟨d, hd, hbare⟩ := List.mem_map.mp (hchildren ▸ List.mem_map_of_mem (f := bare) hc)
    exact ih d hd hbare.symm

theorem StmtForm.forall_exprs_of_bare {P : Expr → Prop} {form form' : StmtForm Stmt}
    (h : ∀ e ∈ form.exprs, P e)
    (hform : form'.map Expr.bare Stmt.bare = form.map Expr.bare Stmt.bare)
    (hbare : ∀ {e e' : Expr}, P e → e'.bare = e.bare → P e') : ∀ e ∈ form'.exprs, P e := by
  intro e' he'
  have hexprs := congrArg exprs hform
  rw [exprs_map, exprs_map] at hexprs
  obtain ⟨e, he, heq⟩ := List.mem_map.mp (hexprs ▸ List.mem_map_of_mem (f := Expr.bare) he')
  exact hbare (h e he) heq.symm

-- What is a matter of the shape holds of every statement of one shape.
theorem Stmt.All.of_bare {P Q : NodeInfo → StmtForm Stmt → Prop} {s s' : Stmt} (h : s.All P)
    (hb : s'.bare = s.bare) (himp : ∀ info form info' form',
      form'.map Expr.bare Stmt.bare = form.map Expr.bare Stmt.bare → P info form → Q info' form') :
    s'.All Q := by
  induction h generalizing s'
  case node info form here _ ih =>
    obtain ⟨info', form'⟩ := s'
    rw [bare_node, bare_node] at hb
    injection hb with _ hform
    refine .node (himp info form info' form' hform here) fun t ht => ?_
    have hstmts := congrArg StmtForm.stmts hform
    rw [StmtForm.stmts_map, StmtForm.stmts_map] at hstmts
    obtain ⟨d, hd, hbare⟩ := List.mem_map.mp (hstmts ▸ List.mem_map_of_mem (f := bare) ht)
    exact ih d hd hbare.symm

-- The shape of a cell.
def Cell.bare (c : Cell) : List Stmt := c.body.map Stmt.bare

/-! ### Stray statements -/

theorem Stmt.stray?_node (around : Surroundings) (info : NodeInfo) (form : StmtForm Stmt) :
    (node info form).stray? around = match form.stray? around with
      | some stray => some (stray, info.location.start.getD 0)
      | none => form.stmts.findSome? (stray? (around.inside form)) := by
  rw [stray?]
  cases form.stray? around with
  | some stray => rfl
  | none =>
    conv_rhs => rw [← List.attach_map_subtype_val form.stmts, List.findSome?_map]
    rfl

-- Nothing is stray in a statement that is none itself and has nothing stray in it.
theorem Stmt.stray?_eq_none_iff {around : Surroundings} {info : NodeInfo} {form : StmtForm Stmt} :
    (node info form).stray? around = none
      ↔ form.stray? around = none ∧ ∀ s ∈ form.stmts, s.stray? (around.inside form) = none := by
  rw [stray?_node]
  cases form.stray? around <;> simp

theorem map_findSome?_congr {α β γ : Type} {f f' : α → Option β} {g : β → γ} {as : List α}
    (h : ∀ a ∈ as, (f' a).map g = (f a).map g) :
    (as.findSome? f').map g = (as.findSome? f).map g := by
  induction as
  case nil => rfl
  case cons a as ih =>
    obtain ⟨ha, has⟩ := List.forall_mem_cons.mp h
    have ih := ih has
    rw [List.findSome?_cons, List.findSome?_cons]
    cases hfa : f a <;> cases hfa' : f' a <;> simp_all

-- What is stray is a matter of the forms of statements, and only where it stands is not.
theorem Stmt.stray?_of_form {f : Expr → Expr} {g : Stmt → Stmt}
    (hg : ∀ s, (g s).form = s.form.map f g) (s : Stmt) (around : Surroundings) :
    ((g s).stray? around).map Prod.fst = (s.stray? around).map Prod.fst := by
  induction s using stmtsInduction generalizing around
  case h info form ih =>
    have hform : (form.map f g).stray? around = form.stray? around := by cases form <;> rfl
    have hinside : around.inside (form.map f g) = around.inside form := by cases form <;> rfl
    have hnode := hg (node info form)
    cases hchanged : g (node info form) with
    | node info' form' =>
      obtain rfl : form' = form.map f g := by rwa [hchanged] at hnode
      rw [stray?_node, stray?_node, hform, hinside, StmtForm.stmts_map]
      cases form.stray? around with
      | some stray => rfl
      | none =>
        rw [List.findSome?_map]
        exact map_findSome?_congr fun s hs => ih s hs _

theorem Stmt.strays_map {f : Expr → Expr} {g : Stmt → Stmt} (hg : ∀ s, (g s).form = s.form.map f g)
    (body : List Stmt) : ((body.map g).findSome? (stray? .none)).map Prod.fst
      = (body.findSome? (stray? .none)).map Prod.fst := by
  rw [List.findSome?_map]
  exact map_findSome?_congr fun s _ => s.stray?_of_form hg .none

-- Stray statements of a cell, but for where they stand.
theorem Cell.stray?_of_mapInfo {f : NodeInfo → NodeInfo} {c c' : Cell}
    (h : c'.body.map (Stmt.mapInfo f) = c.body.map (Stmt.mapInfo f)) :
    c'.stray?.map Prod.fst = c.stray?.map Prod.fst := by
  rw [stray?, stray?, ← Stmt.strays_map Stmt.form_mapInfo, h, Stmt.strays_map Stmt.form_mapInfo]

/-! ### Regular trees -/

def ExprForm.Regular : ExprForm Expr → Prop
  | .compare _ rest => rest ≠ []
  | .call _ _ keywords => (keywords.map (·.1)).Nodup
  | _ => True

-- Every node of an expression is regular.
def Expr.Regular : Expr → Prop := All fun _ form => form.Regular

theorem Expr.Regular.below {info : NodeInfo} {form : ExprForm Expr}
    (h : (node info form).Regular) {c : Expr} (hc : c ∈ form.children) : c.Regular :=
  All.child h c hc

def Expr.IsName (e : Expr) : Prop := ∃ s, e.form = .name s

-- What a loop assigns to: a name, or two names or more.
def Expr.IsLoopTarget (e : Expr) : Prop :=
  e.IsName ∨ ∃ a b items, e.form = .tuple (a :: b :: items) ∧ ∀ i ∈ a :: b :: items, i.IsName

def Alias.Regular (a : Alias) : Prop := a.path ≠ []

def StmtForm.Regular : StmtForm Stmt → Prop
  | .assign targets _ => targets ≠ [] ∧ ∀ t ∈ targets, t.unassignable? = none
  | .augAssign target _ _ => target.isPlace
  | .ifElse _ body _ | .whileLoop _ body | .define _ _ body _ => body ≠ []
  | .forEach target _ body => target.IsLoopTarget ∧ body ≠ []
  | .imports names => names ≠ [] ∧ ∀ a ∈ names, a.Regular
  | .importFrom path names => path ≠ [] ∧ names ≠ [] ∧ ∀ a ∈ names, a.Regular
  | _ => True

def Stmt.Regular : Stmt → Prop :=
  All fun _ form => form.Regular ∧ ∀ e ∈ form.exprs, e.Regular

/-! ### Regularity is a matter of shape -/

theorem ExprForm.regular_map {form : ExprForm Expr} (f : Expr → Expr) :
    (form.map f).Regular ↔ form.Regular := by
  cases form
  case compare => exact not_congr List.map_eq_nil_iff
  case call => simp only [ExprForm.map, Regular, List.map_map, Function.comp_def]
  all_goals exact Iff.rfl

theorem Expr.Regular.of_bare {e e' : Expr} (h : e.Regular) (hb : e'.bare = e.bare) : e'.Regular :=
  All.of_bare h hb fun _ => ExprForm.regular_map _

mutual

theorem Expr.unassignable?_isSome (e : Expr) :
    e.bare.unassignable?.isSome = e.unassignable?.isSome := by
  match e with
  | .node info form =>
    rw [bare_node]
    cases form
    case list items | tuple items =>
      simp only [ExprForm.map, unassignable?]
      exact Expr.firstUnassignable?_isSome items
    all_goals rfl

theorem Expr.firstUnassignable?_isSome (es : List Expr) :
    (firstUnassignable? (es.map bare)).isSome = (firstUnassignable? es).isSome := by
  match es with
  | [] => rfl
  | e :: es =>
    simp only [List.map_cons, firstUnassignable?, Option.isSome_or]
    rw [e.unassignable?_isSome, firstUnassignable?_isSome es]

end

theorem Expr.unassignable?_eq_none {e e' : Expr} (hb : e'.bare = e.bare)
    (h : e.unassignable? = none) : e'.unassignable? = none := by
  rw [← Option.not_isSome_iff_eq_none] at h ⊢
  rwa [← e'.unassignable?_isSome, hb, e.unassignable?_isSome]

theorem Expr.isPlace_bare (e : Expr) : e.bare.isPlace = e.isPlace := by
  cases e with
  | node info form =>
    rw [bare_node]
    cases form <;> rfl

theorem Expr.isPlace_of_bare {e e' : Expr} (hb : e'.bare = e.bare) : e'.isPlace = e.isPlace := by
  rw [← e'.isPlace_bare, hb, e.isPlace_bare]

theorem Expr.isName_bare {e : Expr} : e.bare.IsName ↔ e.IsName := by
  rw [IsName, IsName, form_bare]
  cases e.form <;> simp [ExprForm.map]

theorem Expr.isLoopTarget_bare {e : Expr} : e.bare.IsLoopTarget ↔ e.IsLoopTarget := by
  rw [IsLoopTarget, IsLoopTarget, isName_bare, form_bare]
  refine or_congr_right ⟨?_, ?_⟩
  · rintro ⟨a, b, items, hform, hnames⟩
    cases heq : e.form with
    | tuple es =>
      rw [heq] at hform
      match es, ExprForm.tuple.inj hform with
      | a' :: b' :: items', heq =>
        rw [← heq] at hnames
        refine ⟨a', b', items', rfl, fun i hi => isName_bare.mp (hnames _ ?_)⟩
        exact List.mem_map_of_mem (f := bare) hi
    | _ =>
      rw [heq] at hform
      cases hform
  · rintro ⟨a, b, items, hform, hnames⟩
    refine ⟨a.bare, b.bare, items.map bare, by rw [hform]; rfl, fun i hi => ?_⟩
    obtain ⟨e, he, rfl⟩ := List.mem_map.mp (show i ∈ (a :: b :: items).map bare from hi)
    exact isName_bare.mpr (hnames e he)

theorem StmtForm.regular_bare {form : StmtForm Stmt} :
    (form.map Expr.bare Stmt.bare).Regular ↔ form.Regular := by
  cases form
  case assign targets value =>
    have hbare (t : Expr) : t.bare.unassignable? = none ↔ t.unassignable? = none := by
      rw [← Option.not_isSome_iff_eq_none, ← Option.not_isSome_iff_eq_none,
        Expr.unassignable?_isSome]
    simp [StmtForm.map, Regular, hbare]
  case augAssign target op value => simp [StmtForm.map, Regular, Expr.isPlace_bare]
  case forEach => simp [StmtForm.map, Regular, Expr.isLoopTarget_bare]
  all_goals simp [StmtForm.map, Regular]

theorem Stmt.Regular.of_bare {s s' : Stmt} (h : s.Regular) (hb : s'.bare = s.bare) : s'.Regular :=
  All.of_bare h hb fun _ _ _ _ hform ⟨hregular, hexprs⟩ =>
    ⟨StmtForm.regular_bare.mp (hform ▸ StmtForm.regular_bare.mpr hregular),
      StmtForm.forall_exprs_of_bare hexprs hform Expr.Regular.of_bare⟩

end NoteCell
