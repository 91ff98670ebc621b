import NoteCell.Proofs.Reading.Statements
import NoteCell.Proofs.Suspension.Shape

/-!
Sources with suspension points. Putting them in keeps a tree writable, so the text that comes of it is
read back as its tree, and putting them in once more changes nothing.
-/
namespace NoteCell

variable {primitive : String}

/-! ### Trees that can be written down -/

-- What holds of awaits and is a matter of the form is left as it is.
theorem Expr.All.suspended {P : ExprForm Expr → Prop} {e : Expr}
    (hmap : ∀ form, P form → ∀ f, P (form.map f)) (hawait : ∀ e, P (.await e))
    (h : e.All fun _ form => P form) (inAwait : Bool) :
    (e.suspended primitive inAwait).All fun _ form => P form := by
  induction h generalizing inAwait
  case node info form here _ ih =>
    have hinner : (Expr.node info (form.map (Expr.suspended primitive (inAwait || form.isAwait)))).All
        fun _ form => P form := by
      refine .node (hmap form here _) fun c hc => ?_
      rw [ExprForm.children_map] at hc
      obtain ⟨d, hd, rfl⟩ := List.mem_map.mp hc
      exact ih d hd _
    rw [suspended_node]
    split
    · exact .node (hawait _) fun c hc => List.mem_singleton.mp hc ▸ hinner
    · exact hinner

theorem Expr.Regular.suspended {e : Expr} (h : e.Regular) (inAwait : Bool) :
    (e.suspended primitive inAwait).Regular :=
  All.suspended (fun _ h f => (ExprForm.regular_map f).mpr h) (fun _ => trivial) h inAwait

theorem Expr.Lexable.suspended {e : Expr} (h : e.Lexable) (inAwait : Bool) :
    (e.suspended primitive inAwait).Lexable :=
  All.suspended (fun _ h f => (ExprForm.lexable_map f).mpr h) (fun _ => trivial) h inAwait

/-! ### Targets -/

mutual

theorem Expr.unassignable?_suspended (e : Expr) (h : e.unassignable? = none) :
    (e.suspended primitive false).unassignable? = none := by
  match e, h with
  | .node info form, h =>
    cases form
    case name | member | subscript =>
      rw [suspended_of_not_call rfl]
      rfl
    case list items | tuple items =>
      rw [suspended_of_not_call rfl]
      simp only [unassignable?] at h
      simp only [ExprForm.map, unassignable?, ExprForm.isAwait]
      exact Expr.firstUnassignable?_suspended items h
    all_goals cases h

theorem Expr.firstUnassignable?_suspended (es : List Expr) (h : firstUnassignable? es = none) :
    firstUnassignable? (es.map (Expr.suspended primitive false)) = none := by
  match es, h with
  | [], _ => rfl
  | e :: es, h =>
    rw [firstUnassignable?, Option.or_eq_none_iff] at h
    rw [List.map_cons, firstUnassignable?, Expr.unassignable?_suspended e h.1,
      Expr.firstUnassignable?_suspended es h.2]
    rfl

end

theorem Expr.isPlace_suspended {e : Expr} (h : e.isPlace) : (e.suspended primitive false).isPlace := by
  obtain ⟨info, form⟩ := e
  cases form
  case name | member | subscript =>
    rw [suspended_of_not_call rfl]
    rfl
  all_goals cases h

theorem Expr.IsName.suspended {e : Expr} (h : e.IsName) : (e.suspended primitive false).IsName := by
  obtain ⟨info, form⟩ := e
  obtain ⟨s, rfl⟩ : ∃ s, form = .name s := h
  exact ⟨s, by rw [suspended_of_not_call rfl]; rfl⟩

theorem Expr.IsLoopTarget.suspended {e : Expr} (h : e.IsLoopTarget) :
    (e.suspended primitive false).IsLoopTarget := by
  obtain h | ⟨a, b, items, hform, hnames⟩ := h
  · exact .inl h.suspended
  · obtain ⟨info, form⟩ := e
    obtain rfl : form = .tuple (a :: b :: items) := hform
    refine .inr ⟨_, _, _, by rw [suspended_of_not_call rfl]; rfl, fun i hi => ?_⟩
    rw [← List.map_cons, ← List.map_cons] at hi
    obtain ⟨d, hd, rfl⟩ := List.mem_map.mp hi
    exact (hnames d hd).suspended

theorem StmtForm.Regular.suspended {form : StmtForm Stmt} (h : form.Regular) (g : Stmt → Stmt) :
    (form.map (Expr.suspended primitive false) g).Regular := by
  have hne {α β : Type} {f : α → β} {l : List α} (hl : l ≠ []) : l.map f ≠ [] :=
    fun hnil => hl (List.map_eq_nil_iff.mp hnil)
  cases form
  case assign targets value =>
    refine ⟨hne h.1, fun t ht => ?_⟩
    obtain ⟨d, hd, rfl⟩ := List.mem_map.mp ht
    exact d.unassignable?_suspended (h.2 d hd)
  case augAssign => exact Expr.isPlace_suspended h
  case ifElse | whileLoop | define => exact hne h
  case forEach => exact ⟨h.1.suspended, hne h.2⟩
  all_goals exact h

theorem Stmt.Regular.suspended {s : Stmt} (h : s.Regular) : (s.suspended primitive).Regular := by
  induction h
  case node info form here _ ih =>
    rw [suspended_node]
    refine .node ⟨here.1.suspended _, fun e he => ?_⟩ fun t ht => ?_
    · rw [StmtForm.exprs_map] at he
      obtain ⟨d, hd, rfl⟩ := List.mem_map.mp he
      exact (here.2 d hd).suspended false
    · rw [StmtForm.stmts_map] at ht
      obtain ⟨d, hd, rfl⟩ := List.mem_map.mp ht
      exact ih d hd

theorem Stmt.Lexable.suspended {s : Stmt} (h : s.Lexable) : (s.suspended primitive).Lexable := by
  induction h
  case node info form here _ ih =>
    rw [suspended_node]
    refine .node ⟨(StmtForm.lexable_map _ _).mpr here.1, fun e he => ?_⟩ fun t ht => ?_
    · rw [StmtForm.exprs_map] at he
      obtain ⟨d, hd, rfl⟩ := List.mem_map.mp he
      exact (here.2 d hd).suspended false
    · rw [StmtForm.stmts_map] at ht
      obtain ⟨d, hd, rfl⟩ := List.mem_map.mp ht
      exact ih d hd

/-! ### Sources -/

variable {source : String}

theorem transform_eq_of_parse {c : Cell} (h : parse source = .ok c) :
    transform primitive source = .ok (c.suspend primitive).repair := by
  rw [transform, h]
  simp only [Except.mapError, bind, Except.bind, Cell.locationFault?, Cell.missingLocations_repair]
  rfl

theorem transform_of_parse {c : Cell} (h : parse source = .ok c) :
    ∃ t, transform primitive source = .ok t
      ∧ t.bare = suspendedShape primitive c.bare :=
  ⟨_, transform_eq_of_parse h, by rw [Cell.bare_repair, Cell.bare_suspend]⟩

theorem transform_of_error {e : SyntaxError} (h : parse source = .error e) :
    transform primitive source = .error (.unreadable e) := by
  rw [transform, h]
  rfl

theorem withSuspensions_of_transform {t : Cell} (h : transform primitive source = .ok t) :
    withSuspensions primitive source = t.text := by
  rw [withSuspensions, insertSuspensions, h]
  rfl

theorem withSuspensions_of_error {e : SyntaxError} (h : parse source = .error e) :
    withSuspensions primitive source = source := by
  rw [withSuspensions, insertSuspensions, transform_of_error h]
  rfl

-- A source that cannot be read fails with the fault of reading it, and stays as it is. Any other gets
-- its suspension points: no node of its tree is left without a place.
theorem withSuspensions_fails_open (primitive source : String) :
    (match parse source with
      | .error e => transform primitive source = .error (.unreadable e)
        ∧ insertSuspensions primitive source = .error (.unreadable e)
        ∧ withSuspensions primitive source = source
      | .ok c => transform primitive source = .ok (c.suspend primitive).repair
        ∧ insertSuspensions primitive source = .ok (c.suspend primitive).repair.text
        ∧ withSuspensions primitive source = (c.suspend primitive).repair.text)
    ∧ ∀ id, transform primitive source ≠ .error (.unlocated id)
      ∧ insertSuspensions primitive source ≠ .error (.unlocated id) := by
  cases hparse : parse source with
  | error e =>
    have htransform := @transform_of_error primitive source e hparse
    have hinsert : insertSuspensions primitive source = .error (.unreadable e) := by
      rw [insertSuspensions, htransform]
      rfl
    refine ⟨⟨htransform, hinsert, withSuspensions_of_error hparse⟩, fun id => ?_⟩
    rw [htransform, hinsert]
    exact ⟨nofun, nofun⟩
  | ok c =>
    have htransform := @transform_eq_of_parse primitive source c hparse
    have hinsert : insertSuspensions primitive source = .ok (c.suspend primitive).repair.text := by
      rw [insertSuspensions, htransform]
      rfl
    refine ⟨⟨htransform, hinsert, withSuspensions_of_transform htransform⟩, fun id => ?_⟩
    rw [htransform, hinsert]
    exact ⟨nofun, nofun⟩

-- The tree with its suspension points can be written down like the one it comes from.
theorem writable_of_transform {c t : Cell} (h : parse source = .ok c)
    (hbare : t.bare = suspendedShape primitive c.bare) :
    ∃ w : Cell, w.Writable ∧ w.bare = t.bare := by
  obtain ⟨⟨body, rfl, hbody⟩, _⟩ := sound_of_parse h
  refine ⟨⟨body.map (Stmt.suspended primitive), 0⟩, ⟨fun s hs => ?_, fun s hs => ?_⟩, ?_⟩
  · obtain ⟨d, hd, rfl⟩ := List.mem_map.mp hs
    exact (hbody d hd).regular.suspended
  · obtain ⟨d, hd, rfl⟩ := List.mem_map.mp hs
    exact (hbody d hd).lexable.suspended
  · rw [hbare, Cell.bare_ofBody, suspendedShape_bare, Cell.bare, List.map_map]
    rfl

-- What is read from the text of a tree with its suspension points.
theorem parse_text_of_transform {c t : Cell} (h : parse source = .ok c)
    (hbare : t.bare = suspendedShape primitive c.bare) :
    match parse t.text with
    | .ok c' => t.Fits ∧ c'.bare = t.bare
    | .error _ => ¬ t.Fits := by
  obtain ⟨w, hw, hwt⟩ := writable_of_transform h hbare
  have hread := hw.parse_text
  rw [← Cell.text_eq_of_bare hwt]
  cases hparse : parse w.text with
  | ok c' =>
    rw [hparse] at hread
    exact ⟨hread.1.of_bare hwt.symm, hread.2.trans hwt⟩
  | error e =>
    rw [hparse] at hread
    exact fun hfits => hread (hfits.of_bare hwt)

/-! ### Putting in suspension points -/

-- Once is enough. A text beyond the limits is not read again, and so it stays as it is.
theorem withSuspensions_withSuspensions (primitive source : String) :
    withSuspensions primitive (withSuspensions primitive source)
      = withSuspensions primitive source := by
  cases hparse : parse source with
  | error e => rw [withSuspensions_of_error hparse, withSuspensions_of_error hparse]
  | ok c =>
    obtain ⟨t, ht, hbare⟩ := @transform_of_parse primitive source c hparse
    have hread := parse_text_of_transform hparse hbare
    rw [withSuspensions_of_transform ht]
    cases hparse' : parse t.text with
    | error e => exact withSuspensions_of_error hparse'
    | ok c' =>
      rw [hparse'] at hread
      obtain ⟨t', ht', hbare'⟩ := @transform_of_parse primitive t.text c' hparse'
      rw [withSuspensions_of_transform ht']
      refine Cell.text_eq_of_bare ?_
      rw [hbare', hread.2, hbare, suspendedShape_suspendedShape]

-- A source that is read has a tree with suspension points, and its text is read back as that tree
-- exactly if the tree and the lines of its text are within the limits.
theorem parse_withSuspensions {c : Cell} (h : parse source = .ok c) :
    ∃ t, transform primitive source = .ok t
      ∧ ((∃ c', parse (withSuspensions primitive source) = .ok c') ↔ t.Fits)
      ∧ ∀ c', parse (withSuspensions primitive source) = .ok c' → c'.bare = t.bare := by
  obtain ⟨t, ht, hbare⟩ := @transform_of_parse primitive source c h
  have hread := parse_text_of_transform h hbare
  refine ⟨t, ht, ?_⟩
  rw [withSuspensions_of_transform ht]
  cases hparse : parse t.text with
  | error e =>
    rw [hparse] at hread
    exact ⟨⟨nofun, fun hfits => absurd hfits hread⟩, nofun⟩
  | ok c' =>
    rw [hparse] at hread
    exact ⟨⟨fun _ => hread.1, fun _ => ⟨c', rfl⟩⟩, fun _ heq => Except.ok.inj heq ▸ hread.2⟩

theorem parse_withSuspensions_nested : ∃ c t, parse "x = [input(input('n'))]" = .ok c
    ∧ transform "input" "x = [input(input('n'))]" = .ok t
    ∧ ((∃ c', parse (withSuspensions "input" "x = [input(input('n'))]") = .ok c') ↔ t.Fits)
    ∧ ∀ c', parse (withSuspensions "input" "x = [input(input('n'))]") = .ok c' → c'.bare = t.bare := by
  have hreads : (parse "x = [input(input('n'))]").toBool = true := by decide +kernel
  cases hparse : parse "x = [input(input('n'))]" with
  | error e =>
    rw [hparse] at hreads
    cases hreads
  | ok c =>
    obtain ⟨t, ht, hfits, hbare⟩ := @parse_withSuspensions "input" "x = [input(input('n'))]" c hparse
    exact ⟨c, t, rfl, ht, hfits, hbare⟩

end NoteCell
