import NoteCell.Proofs.Grammar.DerivedStatements
import NoteCell.Proofs.Grammar.Sites
import NoteCell.Proofs.Lexing.LaidOut

/-!
The places of nodes. The tokens of a source stand one behind the other, so that what is built from
some of them has a place that starts before it stops, where some tokens do.
-/
namespace NoteCell.Grammar

/-! ### Rows of tokens -/

section

variable {ts us : List Located} {t : Located}

theorem startOf_append (hts : ts ≠ []) : startOf (ts ++ us) = startOf ts := by
  obtain ⟨t, ts, rfl⟩ := List.exists_cons_of_ne_nil hts
  rfl

theorem stopOf_append (hus : us ≠ []) : stopOf (ts ++ us) = stopOf us := by
  rw [stopOf, List.getLast?_append_of_ne_nil ts hus, stopOf]

theorem stopOf_cons (hts : ts ≠ []) : stopOf (t :: ts) = stopOf ts :=
  @stopOf_append [t] ts hts

theorem exists_startOf (hts : ts ≠ []) : ∃ t ∈ ts, t.span.start = startOf ts := by
  obtain ⟨t, ts, rfl⟩ := List.exists_cons_of_ne_nil hts
  exact ⟨t, List.mem_cons_self, rfl⟩

theorem exists_stopOf (hts : ts ≠ []) : ∃ t ∈ ts, t.span.stop = stopOf ts := by
  obtain ⟨ts, t, rfl⟩ := (List.eq_nil_or_concat' ts).resolve_left hts
  exact ⟨t, by simp, by simp [stopOf]⟩

end

-- Tokens one behind the other.
structure Ordered (ts : List Located) : Prop where
  forward : ∀ t ∈ ts, t.span.start ≤ t.span.stop
  behind : ts.Pairwise fun t u => t.span.stop ≤ u.span.start

namespace Ordered

variable {ts us : List Located} {t : Located}

theorem of_isInfix (h : Ordered ts) (hus : us <:+: ts) : Ordered us :=
  ⟨fun t ht => h.forward t (hus.subset ht), h.behind.sublist hus.sublist⟩

theorem le_startOf (h : Ordered (ts ++ us)) (hus : us ≠ []) : ∀ t ∈ ts, t.span.stop ≤ startOf us := by
  obtain ⟨u, hu, hstart⟩ := exists_startOf hus
  rw [← hstart]
  exact fun t ht => (List.pairwise_append.mp h.behind).2.2 t ht u hu

theorem stopOf_le_startOf (h : Ordered (ts ++ us)) (hts : ts ≠ []) (hus : us ≠ []) :
    stopOf ts ≤ startOf us := by
  obtain ⟨t, ht, hstop⟩ := exists_stopOf hts
  exact hstop ▸ h.le_startOf hus t ht

theorem startOf_le (h : Ordered ts) : ∀ t ∈ ts, startOf ts ≤ t.span.start := by
  cases ts with
  | nil => exact List.forall_mem_nil _
  | cons u ts =>
    refine List.forall_mem_cons.mpr ⟨Nat.le_refl _, fun t ht => ?_⟩
    exact Nat.le_trans (h.forward u List.mem_cons_self) (List.rel_of_pairwise_cons h.behind ht)

theorem le_stopOf (h : Ordered ts) : ∀ t ∈ ts, t.span.stop ≤ stopOf ts := by
  obtain rfl | ⟨ts, u, rfl⟩ := List.eq_nil_or_concat' ts
  · exact List.forall_mem_nil _
  · have hstop : stopOf (ts ++ [u]) = u.span.stop := by simp [stopOf]
    rw [hstop]
    refine List.forall_mem_append.mpr ⟨fun t ht => ?_, List.forall_mem_singleton.mpr (Nat.le_refl _)⟩
    exact Nat.le_trans (h.le_startOf (List.cons_ne_nil u []) t ht) (h.forward u (by simp))

-- A part of a row lies within it.
theorem within (h : Ordered ts) (hus : us <:+: ts) (hne : us ≠ []) :
    startOf ts ≤ startOf us ∧ startOf us ≤ stopOf us ∧ stopOf us ≤ stopOf ts := by
  obtain ⟨t, ht, hstart⟩ := exists_startOf hne
  obtain ⟨u, hu, hstop⟩ := exists_stopOf hne
  refine ⟨hstart ▸ h.startOf_le t (hus.subset ht), ?_, hstop ▸ h.le_stopOf u (hus.subset hu)⟩
  have hown := h.of_isInfix hus
  calc startOf us ≤ u.span.start := hown.startOf_le u hu
    _ ≤ u.span.stop := hown.forward u hu
    _ = stopOf us := hstop

end Ordered

theorem ordered_of_complete {size : Nat} {ts : List Located} (h : Layout.Complete size ts) :
    Ordered ts := by
  have hbehind (before after : List Located) (hts : ts = before ++ after) :
      after.Pairwise fun t u => t.span.stop ≤ u.span.start := by
    induction after generalizing before
    case nil => exact .nil
    case cons t after ih =>
      have hafter := ih (before ++ [t]) (by rw [hts, List.append_assoc]; rfl)
      cases after with
      | nil => exact List.pairwise_singleton _ t
      | cons u after =>
        have hnext := (h.ordered hts).2
        have hforward : u.span.start ≤ u.span.stop := (h.inside (by simp [hts])).1
        refine .cons (List.forall_mem_cons.mpr ⟨hnext, fun v hv => ?_⟩) hafter
        calc t.span.stop ≤ u.span.start := hnext
          _ ≤ u.span.stop := hforward
          _ ≤ v.span.start := List.rel_of_pairwise_cons hafter hv
  exact ⟨fun t ht => (h.inside ht).1, hbehind [] ts rfl⟩

theorem ordered_tokenize {source : String} (h : (tokenize source).error = none) :
    Ordered (tokenize source).tokens :=
  ordered_of_complete ((tokenize_laidOut source).2 h)

/-! ### Where lists and simple statements stop -/

theorem TestList.stop_cases (list : TestList) (next : Nat) :
    list.stop next = next ∨ list.stop next = stopOf list.tokens := by
  cases list with
  | single e => exact .inr rfl
  | tuple first comma rest =>
    cases rest with
    | noItems => exact .inl rfl
    | lastItem | item => exact .inr rfl

theorem SmallStatement.stop_cases (x : SmallStatement) (next : Nat) :
    x.stop next = next ∨ x.stop next = stopOf x.tokens := by
  cases x with
  | assignment first rest =>
    obtain rfl | ⟨rest, p, rfl⟩ := List.eq_nil_or_concat' rest
    · rw [tokens, assignedTokens, List.flatMap_nil, List.append_nil]
      exact first.stop_cases next
    · have htokens : stopOf (assignment first (rest ++ [p])).tokens = stopOf p.2.tokens := by
        simp only [tokens, assignedTokens, List.flatMap_append, List.flatMap_singleton,
          ← List.append_assoc]
        rw [stopOf_append (List.cons_ne_nil _ _), stopOf_cons p.2.tokens_ne_nil]
      rw [htokens, stop, List.getLast?_concat]
      exact p.2.stop_cases next
  | augmented target op value =>
    have htokens : stopOf (augmented target op value).tokens = stopOf value.tokens := by
      rw [tokens, stopOf_append (List.cons_ne_nil _ _), stopOf_cons value.tokens_ne_nil]
    rw [htokens]
    exact value.stop_cases next
  | ret return_ value =>
    cases value with
    | none => exact .inr rfl
    | some list =>
      have htokens : stopOf (ret return_ (some list)).tokens = stopOf list.tokens := by
        rw [tokens, Option.toList, List.flatMap_singleton, stopOf_cons list.tokens_ne_nil]
      rw [htokens]
      exact list.stop_cases next
  | _ => exact .inr rfl

section

variable {next : Located}

theorem TestList.le_stop {list : TestList} (h : Ordered (list.tokens ++ [next])) :
    stopOf list.tokens ≤ list.stop next.span.start ∧ list.stop next.span.start ≤ next.span.start := by
  have hseam := h.stopOf_le_startOf list.tokens_ne_nil (List.cons_ne_nil next [])
  obtain hstop | hstop := list.stop_cases next.span.start <;> rw [hstop]
  · exact ⟨hseam, Nat.le_refl _⟩
  · exact ⟨Nat.le_refl _, hseam⟩

theorem SmallStatement.le_stop {x : SmallStatement} (h : Ordered (x.tokens ++ [next])) :
    stopOf x.tokens ≤ x.stop next.span.start ∧ x.stop next.span.start ≤ next.span.start := by
  have hseam := h.stopOf_le_startOf x.tokens_ne_nil (List.cons_ne_nil next [])
  obtain hstop | hstop := x.stop_cases next.span.start <;> rw [hstop]
  · exact ⟨hseam, Nat.le_refl _⟩
  · exact ⟨Nat.le_refl _, hseam⟩

end

/-! ### Places -/

-- An offset where a token starts or stops.
def Edge (ts : List Located) (k : Nat) : Prop := ∃ t ∈ ts, k = t.span.start ∨ k = t.span.stop

-- A place between two such offsets.
def Spot (ts : List Located) (l : Location) : Prop :=
  ∃ start stop, l = .between start stop ∧ start ≤ stop ∧ Edge ts start ∧ Edge ts stop

section

variable {ts us after : List Located} {next : Located} {e : Expr} {s : Stmt}

theorem edge_startOf (hus : us <:+: ts) (hne : us ≠ []) : Edge ts (startOf us) := by
  obtain ⟨t, ht, hstart⟩ := exists_startOf hne
  exact ⟨t, hus.subset ht, .inl hstart.symm⟩

theorem edge_stopOf (hus : us <:+: ts) (hne : us ≠ []) : Edge ts (stopOf us) := by
  obtain ⟨t, ht, hstop⟩ := exists_stopOf hne
  exact ⟨t, hus.subset ht, .inr hstop.symm⟩

theorem spot_placeOf (h : Ordered ts) (hus : us <:+: ts) (hne : us ≠ []) : Spot ts (placeOf us) :=
  ⟨_, _, rfl, (h.within hus hne).2.1, edge_startOf hus hne, edge_stopOf hus hne⟩

-- What is read up to the next token may stop there.
theorem spot_between (h : Ordered ts) (hus : Stands ts us (next :: after)) (hne : us ≠ []) {stop : Nat}
    (hstop : stop = next.span.start ∨ stop = stopOf us) : Spot ts (.between (startOf us) stop) := by
  obtain rfl | rfl := hstop
  · obtain ⟨before, rfl, -⟩ := hus
    have hrow : Ordered (us ++ next :: after) := h.of_isInfix (List.suffix_append before _).isInfix
    have hnext : next ∈ before ++ (us ++ next :: after) := by simp
    have hinside : us <:+: before ++ (us ++ next :: after) := List.infix_append' before us _
    refine ⟨_, _, rfl, ?_, edge_startOf hinside hne, next, hnext, .inl rfl⟩
    calc startOf us ≤ stopOf us := (h.within hinside hne).2.1
      _ ≤ next.span.start := hrow.stopOf_le_startOf hne (List.cons_ne_nil next after)
  · exact spot_placeOf h hus.isInfix hne

theorem Origin.location_eq (h : Origin ts e) :
    ∃ us, us <:+: ts ∧ us ≠ [] ∧ e.info.location = placeOf us := by
  obtain ⟨l, d, form, hd, -, hmake⟩ := h
  obtain ⟨rfl, -⟩ := of_makeExpr_eq_ok hmake
  exact ⟨d.tokens, hd, tokens_ne_nil d, rfl⟩

theorem Origin.spot (h : Ordered ts) (he : Origin ts e) : Spot ts e.info.location := by
  obtain ⟨us, hus, hne, hlocation⟩ := he.location_eq
  exact hlocation ▸ spot_placeOf h hus hne

theorem ExprSite.spot (h : Ordered ts) (he : ExprSite ts e) : Spot ts e.info.location := by
  cases he with
  | part he => exact he.spot h
  | listed hstands hact =>
    obtain he | ⟨form, hmake, -⟩ := TestList.of_act hact
    · exact (he.mono hstands.isInfix).spot h
    · obtain ⟨rfl, -⟩ := of_makeExpr_eq_ok hmake
      exact spot_between h hstands (TestList.tokens_ne_nil _) (TestList.stop_cases _ _)

theorem StmtSite.spot (h : Ordered ts) (hs : StmtSite ts s) : Spot ts s.info.location := by
  cases hs with
  | simple hstands _ hact =>
    obtain ⟨form, hmake, -⟩ := SmallStatement.of_act hact
    obtain ⟨rfl, -⟩ := of_makeStmt_eq_ok hmake
    exact spot_between h hstands (SmallStatement.tokens_ne_nil _) (SmallStatement.stop_cases _ _)
  | compound hstands hact =>
    obtain ⟨form, hmake⟩ := StmtDerivation.of_act hact
    obtain ⟨rfl, -⟩ := of_makeStmt_eq_ok hmake
    exact spot_placeOf h hstands.isInfix (StmtDerivation.tokens_ne_nil _)
  | clause hstands _ _ _ hmake =>
    obtain ⟨rfl, -⟩ := of_makeStmt_eq_ok hmake
    exact spot_placeOf h hstands.left.left.isInfix (List.cons_ne_nil _ _)

-- How deep a node may be.
theorem ExprSite.nesting_le (he : ExprSite ts e) : e.info.nesting ≤ maxExprNesting := by
  cases he with
  | part he =>
    obtain ⟨l, d, form, -, -, hmake⟩ := he
    exact (of_makeExpr_eq_ok hmake).2
  | listed _ hact =>
    obtain ⟨l, d, form, -, -, hmake⟩ | ⟨form, hmake, -⟩ := TestList.of_act hact
    · exact (of_makeExpr_eq_ok hmake).2
    · exact (of_makeExpr_eq_ok hmake).2

theorem StmtSite.nesting_le (hs : StmtSite ts s) : s.info.nesting ≤ maxStmtNesting := by
  cases hs with
  | simple _ _ hact =>
    obtain ⟨form, hmake, -⟩ := SmallStatement.of_act hact
    exact (of_makeStmt_eq_ok hmake).2
  | compound _ hact =>
    obtain ⟨form, hmake⟩ := StmtDerivation.of_act hact
    exact (of_makeStmt_eq_ok hmake).2
  | clause _ _ _ _ hmake => exact (of_makeStmt_eq_ok hmake).2

end

end NoteCell.Grammar
