import NoteCell.Proofs.Grammar.Origins

/-!
The sites of nodes. Each node of a program was built from some of its tokens, at their place: an
expression from a part of a derivation or from a list between commas, a statement from its own line,
from a compound statement or from a further condition of one.
-/
namespace NoteCell.Grammar

/-! ### Tokens among others -/

-- Tokens that stand before some others, and behind whole brackets.
def Stands (ts us after : List Located) : Prop :=
  ∃ before, ts = before ++ (us ++ after) ∧ Closes before

namespace Stands

variable {ts us vs after after' : List Located} {t : Located}

theorem left (h : Stands ts (us ++ vs) after) : Stands ts us (vs ++ after) := by
  obtain ⟨before, rfl, hbefore⟩ := h
  exact ⟨before, by rw [List.append_assoc], hbefore⟩

theorem right (h : Stands ts (us ++ vs) after) (hus : Closes us) : Stands ts vs after := by
  obtain ⟨before, rfl, hbefore⟩ := h
  exact ⟨before ++ us, by simp only [List.append_assoc], hbefore.append hus⟩

theorem tail (h : Stands ts (t :: us) after) (ht : t.token.isPlain) : Stands ts us after := by
  have h : Stands ts ([t] ++ us) after := h
  exact h.right (.single ht)

theorem isInfix (h : Stands ts us after) : us <:+: ts := by
  obtain ⟨before, rfl, -⟩ := h
  exact List.infix_append' before us after

theorem trans (h : Stands ts us (t :: after)) (h' : Stands (us ++ [t]) vs after') :
    Stands ts vs (after' ++ after) := by
  obtain ⟨before, rfl, hbefore⟩ := h
  obtain ⟨between, hus, hbetween⟩ := h'
  refine ⟨before ++ between, ?_, hbefore.append hbetween⟩
  rw [List.append_cons, hus]
  simp only [List.append_assoc]

theorem behind (h : Stands ts us after) (hvs : Closes vs) : Stands (vs ++ ts) us after := by
  obtain ⟨before, rfl, hbefore⟩ := h
  exact ⟨vs ++ before, (List.append_assoc ..).symm, hvs.append hbefore⟩

end Stands

/-! ### Expressions -/

inductive ExprSite (ts : List Located) (e : Expr) : Prop
  | part (h : Origin ts e)
  | listed {list : TestList} {next : Located} {after : List Located}
      (stands : Stands ts list.tokens (next :: after)) (built : list.act next.span.start = .ok e)

def ExprSites (ts : List Located) (es : List Expr) : Prop := ∀ e ∈ es, ∀ n ∈ e.nodes, ExprSite ts n

section

variable {ts us after : List Located} {next : Located} {e : Expr} {es : List Expr}

theorem Stems.sites (h : Stems us es) (hus : us <:+: ts) : ExprSites ts es :=
  fun e he n hn => .part ((h e he n hn).mono hus)

theorem mem_nodes_self (e : Expr) : e ∈ e.nodes := by
  cases e
  rw [Expr.nodes_node]
  exact List.mem_cons_self

-- An expression that is a list of its own is made at the place of that, any other at that of tokens
-- of the list.
theorem TestList.of_act {list : TestList} {stop : Nat} (hact : list.act stop = .ok e) :
    Origin list.tokens e
      ∨ ∃ form, makeExpr (.between (startOf list.tokens) (list.stop stop)) form = .ok e
        ∧ Stems list.tokens form.children := by
  cases list with
  | single d => exact .inl (d.stems hact e (List.mem_singleton_self e) e (mem_nodes_self e))
  | tuple first comma rest =>
    obtain ⟨_, hfirst, hmake⟩ := of_bind_eq_ok hact
    obtain ⟨_, hrest, hmake⟩ := of_bind_eq_ok hmake
    have hitems := (roots_expressions _ ▸ rest.stems hrest).tail (sign .comma comma)
    exact .inr ⟨_, hmake, ((first.stems hfirst).left _).cons (hitems.right first.tokens)⟩

theorem TestList.sites {list : TestList} (h : Stands ts list.tokens (next :: after))
    (hact : list.act next.span.start = .ok e) : ExprSites ts [e] := by
  have hinside := h.isInfix
  have hsite : ExprSite ts e := .listed h hact
  have hbelow : ExprSites ts e.children := by
    obtain ⟨l, d, form, hd, hact, hmake⟩ | ⟨form, hmake, hstems⟩ := TestList.of_act hact
    · have hstems := d.stems hact
      obtain ⟨rfl, -⟩ := of_makeExpr_eq_ok hmake
      intro c hc n hn
      refine .part ((hstems _ (List.mem_singleton_self _) n ?_).mono (hd.trans hinside))
      rw [Expr.build, Expr.nodes_node]
      exact List.mem_cons_of_mem _ (List.mem_flatMap.mpr ⟨c, hc, hn⟩)
    · obtain ⟨rfl, -⟩ := of_makeExpr_eq_ok hmake
      exact hstems.sites hinside
  refine List.forall_mem_singleton.mpr ?_
  cases e
  rw [Expr.nodes_node]
  refine List.forall_mem_cons.mpr ⟨hsite, fun n hn => ?_⟩
  obtain ⟨c, hc, hn⟩ := List.mem_flatMap.mp hn
  exact hbelow c hc n hn

end

/-! ### Simple statements -/

-- An expression that is built from a list somewhere in some tokens before a further token. If the
-- list comes last, it stops at the given place.
def Holds (us : List Located) (next : Located) (stop : Nat) (e : Expr) : Prop :=
  ∃ (list : TestList) (t : Located) (after : List Located), Stands (us ++ [next]) list.tokens (t :: after)
    ∧ list.act t.span.start = .ok e ∧ (after = [] → list.stop t.span.start = stop)

section

variable {us vs after : List Located} {next t : Located} {stop : Nat} {e : Expr} {list : TestList}

theorem Holds.last (hact : list.act next.span.start = .ok e) :
    Holds list.tokens next (list.stop next.span.start) e :=
  ⟨list, next, [], ⟨[], rfl, .nil⟩, hact, fun _ => rfl⟩

theorem Holds.front (hact : list.act t.span.start = .ok e) :
    Holds (list.tokens ++ t :: vs) next stop e := by
  refine ⟨list, t, vs ++ [next], ⟨[], by simp, .nil⟩, hact, fun h => ?_⟩
  exact absurd h (List.append_ne_nil_of_right_ne_nil vs (List.cons_ne_nil next []))

theorem Holds.behind (h : Holds us next stop e) (hvs : Closes vs) : Holds (vs ++ us) next stop e := by
  obtain ⟨list, t, after, hstands, hact⟩ := h
  refine ⟨list, t, after, ?_, hact⟩
  rw [List.append_assoc]
  exact hstands.behind hvs

theorem Holds.sites {ts : List Located} (h : Holds us next stop e) (hus : Stands ts us (next :: after)) :
    ExprSites ts [e] := by
  obtain ⟨list, t, after', hstands, hact, -⟩ := h
  exact TestList.sites (hus.trans hstands) hact

-- Of lists with equals signs between them the last decides where they stop.
theorem holds_assigned {first : TestList} {rest : List (Span × TestList)} {es : List Expr}
    (hfirst : first.act (nextAssigned next.span.start rest) = .ok e)
    (hrest : actAssigned next.span.start rest = .ok es) :
    ∀ e' ∈ e :: es, Holds (first.tokens ++ assignedTokens rest) next
      (((rest.getLast?.map (·.2)).getD first).stop next.span.start) e' := by
  induction rest generalizing first e es
  case nil =>
    cases hrest
    rw [assignedTokens, List.flatMap_nil, List.append_nil]
    exact List.forall_mem_singleton.mpr (.last hfirst)
  case cons p rest ih =>
    obtain ⟨e', he', h⟩ := of_bind_eq_ok hrest
    obtain ⟨es', hes', h⟩ := of_bind_eq_ok h
    cases h
    refine List.forall_mem_cons.mpr ⟨.front hfirst, fun e hmem => ?_⟩
    have hbehind := (ih he' hes' e hmem).behind (first.closes.append (.single (t := sign .assign p.1) rfl))
    rw [List.append_assoc] at hbehind
    cases rest <;> exact hbehind

end

theorem of_makeStmt_eq_ok {location : Location} {form : StmtForm Stmt} {s : Stmt}
    (h : makeStmt location form = .ok s) :
    s = .build form location ∧ s.info.nesting ≤ maxStmtNesting := by
  rw [makeStmt] at h
  split at h
  case isTrue hdepth =>
    obtain rfl := Except.ok.inj h
    exact ⟨rfl, hdepth⟩
  case isFalse => cases h

theorem of_makeAssignment_eq_ok {location : Location} {first : Expr} {rest : List Expr} {s : Stmt}
    (h : makeAssignment location first rest = .ok s) :
    ∃ form, makeStmt location form = .ok s ∧ form.stmts = [] ∧ form.exprs ⊆ first :: rest := by
  rw [makeAssignment] at h
  cases hlast : rest.getLast? with
  | none =>
    rw [hlast] at h
    exact ⟨_, h, rfl, List.cons_subset_cons first (List.nil_subset rest)⟩
  | some value =>
    rw [hlast] at h
    dsimp only at h
    split at h
    case h_1 => cases h
    case h_2 =>
      refine ⟨_, h, rfl, List.cons_subset.mpr ⟨?_, ?_⟩⟩
      · exact List.mem_cons_of_mem first (List.mem_of_getLast? hlast)
      · exact List.cons_subset_cons first (List.dropLast_subset rest)

namespace SmallStatement

-- A simple statement is made at its place, over expressions that it holds.
theorem of_act {x : SmallStatement} {next : Located} {s : Stmt}
    (hact : x.act next.span.start = .ok s) : ∃ form, makeStmt (x.place next.span.start) form = .ok s
      ∧ form.stmts = [] ∧ ∀ e ∈ form.exprs, Holds x.tokens next (x.stop next.span.start) e := by
  cases x with
  | assignment first rest =>
    obtain ⟨e, he, h⟩ := of_bind_eq_ok hact
    obtain ⟨es, hes, h⟩ := of_bind_eq_ok h
    obtain ⟨form, hmake, hstmts, hexprs⟩ := of_makeAssignment_eq_ok h
    exact ⟨form, hmake, hstmts, fun e' he' => holds_assigned he hes e' (hexprs he')⟩
  | augmented target op value =>
    obtain ⟨e, he, h⟩ := of_bind_eq_ok hact
    obtain ⟨v, hv, h⟩ := of_bind_eq_ok h
    rw [makeAugmented] at h
    split at h
    case isTrue =>
      have hop : op.token.token.isPlain := Token.isPlain_of_augmented? op.op_eq
      have he : (TestList.single target).act op.token.span.start = .ok e := he
      have htarget : Holds (target.tokens ++ op.token :: value.tokens) next
          (value.stop next.span.start) e := .front he
      have hvalue := (Holds.last hv).behind (target.closes.append (.single hop))
      rw [List.append_assoc] at hvalue
      exact ⟨_, h, rfl, List.forall_mem_cons.mpr ⟨htarget, List.forall_mem_singleton.mpr hvalue⟩⟩
    case isFalse => cases h
  | pass | breakLoop | continueLoop | imports | importFrom =>
    rw [act] at hact
    exact ⟨_, hact, rfl, List.forall_mem_nil _⟩
  | ret return_ value =>
    obtain ⟨v, hv, h⟩ := of_bind_eq_ok hact
    refine ⟨_, h, rfl, ?_⟩
    cases value with
    | none =>
      cases hv
      exact List.forall_mem_nil _
    | some list =>
      obtain ⟨e, he, hv⟩ := of_bind_eq_ok hv
      cases hv
      have hvalue := (Holds.last he).behind (.single (t := word .return_ return_) rfl)
      refine List.forall_mem_singleton.mpr ?_
      rw [tokens, Option.toList, List.flatMap_singleton]
      exact hvalue
  | raise raise_ exc =>
    obtain ⟨v, hv, h⟩ := of_bind_eq_ok hact
    refine ⟨_, h, rfl, ?_⟩
    cases exc with
    | none =>
      cases hv
      exact List.forall_mem_nil _
    | some d =>
      obtain ⟨e, he, hv⟩ := of_bind_eq_ok hv
      cases hv
      have he : (TestList.single d).act next.span.start = .ok e := he
      have hexc := (Holds.last he).behind (.single (t := word .raise_ raise_) rfl)
      have hstop : (raise raise_ (some d)).stop next.span.start = stopOf d.tokens := by
        obtain ⟨t, ts, htokens⟩ := List.exists_cons_of_ne_nil (Grammar.tokens_ne_nil d)
        simp [stop, tokens, stopOf, htokens]
      refine List.forall_mem_singleton.mpr ?_
      rw [hstop, tokens, Option.toList, List.flatMap_singleton]
      exact hexc

end SmallStatement

/-! ### Compound statements -/

-- Whatever is tighter than an expression is one as well.
theorem exists_expression {l : Level} (d : Derivation (.level l)) :
    ∃ d' : Expression, d'.tokens = d.tokens ∧ d'.act = d.act := by
  have hor (d : Derivation (.level (.family .or))) : ∃ d' : Expression, d'.tokens = d.tokens
      ∧ d'.act = d.act := ⟨.unconditional d, rfl, rfl⟩
  have hand (d : Derivation (.level (.family .and))) := hor (.single d)
  have hnegation (d : Derivation (.level .negation)) := hand (.single d)
  have hcomparison (d : Derivation (.level .comparison)) := hnegation (.affirmed d)
  have hsum (d : Derivation (.level (.family .sum))) := hcomparison (.uncompared d)
  have hproduct (d : Derivation (.level (.family .product))) := hsum (.single d)
  have hfactor (d : Derivation (.level .factor)) := hproduct (.single d)
  have hpower (d : Derivation (.level .power)) := hfactor (.unsigned d)
  have hawaited (d : Derivation (.level .awaited)) := hpower (.unraised d)
  have hprimary (d : Derivation (.level .primary)) := hawaited (.unawaited d)
  cases l with
  | expression => exact ⟨d, rfl, rfl⟩
  | family f =>
    cases f with
    | or => exact hor d
    | and => exact hand d
    | sum => exact hsum d
    | product => exact hproduct d
  | negation => exact hnegation d
  | comparison => exact hcomparison d
  | factor => exact hfactor d
  | power => exact hpower d
  | awaited => exact hawaited d
  | primary => exact hprimary d
  | atom => exact hprimary (.plain d)

theorem Name.exists_expression (n : Name) :
    ∃ d : Expression, d.tokens = [n.token] ∧ d.act = n.act :=
  Grammar.exists_expression (.name n)

-- The names that a loop binds are a list of expressions.
theorem ForTarget.exists_list (t : ForTarget) :
    ∃ list : TestList, list.tokens = t.tokens ∧ ∀ next, list.act next = t.act := by
  have hitems (n : Name) (rest : List (Span × Name)) :
      ∃ items : Derivation (.comma (.level .expression)), items.act = (n :: rest.map (·.2)).mapM Name.act
        ∧ items.tokens = n.token :: rest.flatMap (fun p => [sign .comma p.1, p.2.token]) := by
    induction rest generalizing n with
    | nil =>
      obtain ⟨d, htokens, hact⟩ := n.exists_expression
      refine ⟨.lastItem d, ?_, htokens⟩
      rw [Derivation.act, hact]
      rfl
    | cons p rest ih =>
      obtain ⟨d, htokens, hact⟩ := n.exists_expression
      obtain ⟨items, hitems, hrest⟩ := ih p.2
      refine ⟨.item d p.1 items, ?_, ?_⟩
      · rw [Derivation.act, hact, hitems, List.map_cons, List.mapM_cons (a := n)]
      · rw [Derivation.tokens, htokens, hrest]
        rfl
  cases t with
  | single n =>
    obtain ⟨d, htokens, hact⟩ := n.exists_expression
    exact ⟨.single d, htokens, fun _ => hact⟩
  | tuple first comma second rest =>
    obtain ⟨d, htokens, hact⟩ := first.exists_expression
    obtain ⟨items, hitems, hrest⟩ := hitems second rest
    have hlist : (TestList.tuple d comma items).tokens = (tuple first comma second rest).tokens := by
      rw [TestList.tokens, htokens, hrest]
      rfl
    refine ⟨.tuple d comma items, hlist, fun next => ?_⟩
    have hstop : (TestList.tuple d comma items).stop next = stopOf (tuple first comma second rest).tokens := by
      rw [← hlist]
      cases items with
      | noItems => cases hrest
      | lastItem | item => rfl
    rw [TestList.act, hact, hitems, hstop, hlist, act, List.mapM_cons (a := first)]
    simp only [bind_assoc, pure_bind]
    rfl

/-! ### Statements -/

-- A compound statement is made at the place of all its tokens.
theorem StmtDerivation.of_act {d : StmtDerivation .compound} {s : Stmt} (hact : d.act = .ok s) :
    ∃ form, makeStmt d.place form = .ok s := by
  cases d with
  | conditional =>
    obtain ⟨_, _, h⟩ := of_bind_eq_ok hact
    obtain ⟨_, _, h⟩ := of_bind_eq_ok h
    obtain ⟨_, _, h⟩ := of_bind_eq_ok h
    obtain ⟨_, _, h⟩ := of_bind_eq_ok h
    obtain ⟨_, _, h⟩ := of_bind_eq_ok h
    exact ⟨_, h⟩
  | whileLoop =>
    obtain ⟨_, _, h⟩ := of_bind_eq_ok hact
    obtain ⟨_, _, h⟩ := of_bind_eq_ok h
    exact ⟨_, h⟩
  | forLoop =>
    obtain ⟨_, _, h⟩ := of_bind_eq_ok hact
    obtain ⟨_, _, h⟩ := of_bind_eq_ok h
    obtain ⟨_, _, h⟩ := of_bind_eq_ok h
    exact ⟨_, h⟩
  | define =>
    obtain ⟨_, _, h⟩ := of_bind_eq_ok hact
    obtain ⟨_, _, h⟩ := of_bind_eq_ok h
    exact ⟨_, h⟩

-- What the further conditions and the last clause of a statement come to.
def actOrelse (clauses : StmtDerivation .clauses) (orelse : StmtDerivation .orelse) :
    Except SyntaxFault (List Stmt) := do
  let cs ← clauses.act
  let ss ← orelse.act
  chain ss cs

inductive StmtSite (ts : List Located) (s : Stmt) : Prop
  | simple {x : SmallStatement} {next : Located} {after : List Located}
      (stands : Stands ts x.tokens (next :: after))
      (ends : next.token = .newline ∨ next.token = .sign .semicolon)
      (built : x.act next.span.start = .ok s)
  | compound {d : StmtDerivation .compound} {after : List Located} (stands : Stands ts d.tokens after)
      (built : d.act = .ok s)
  -- A further condition, whose place ends before the clauses behind it.
  | clause {elif_ colon : Span} {test : Expression} {body : StmtDerivation .suite}
      {clauses : StmtDerivation .clauses} {orelse : StmtDerivation .orelse} {after : List Located}
      {e : Expr} {ss us : List Stmt}
      (stands : Stands ts ((StmtDerivation.clause elif_ test colon body clauses).tokens ++ orelse.tokens)
        after)
      (test_act : test.act = .ok e) (body_act : body.act = .ok ss)
      (orelse_act : actOrelse clauses orelse = .ok us)
      (built : makeStmt (placeOf (word .elif_ elif_ :: (test.tokens ++ sign .colon colon :: body.tokens)))
        (.ifElse e ss us) = .ok s)

def Site (ts : List Located) : Node → Prop
  | .stmt s => StmtSite ts s
  | .expr e => ExprSite ts e

def Sites (ts : List Located) (ss : List Stmt) : Prop := ∀ s ∈ ss, ∀ n ∈ s.nodes, Site ts n

section

variable {ts after : List Located} {ss us : List Stmt} {s : Stmt}

theorem Sites.nil : Sites ts [] := List.forall_mem_nil _

theorem Sites.append (h : Sites ts ss) (h' : Sites ts us) : Sites ts (ss ++ us) :=
  List.forall_mem_append.mpr ⟨h, h'⟩

theorem Sites.node {location : Location} {form : StmtForm Stmt}
    (hmake : makeStmt location form = .ok s) (hsite : StmtSite ts s)
    (hexprs : ∀ e ∈ form.exprs, ExprSites ts [e]) (hstmts : Sites ts form.stmts) : Sites ts [s] := by
  refine List.forall_mem_singleton.mpr ?_
  obtain ⟨rfl, -⟩ := of_makeStmt_eq_ok hmake
  rw [Stmt.build] at hsite ⊢
  rw [Stmt.nodes_node]
  refine List.forall_mem_cons.mpr ⟨hsite, List.forall_mem_append.mpr ⟨fun n hn => ?_, fun n hn => ?_⟩⟩
  · obtain ⟨x, hx, rfl⟩ := List.mem_map.mp hn
    obtain ⟨e, he, hx⟩ := List.mem_flatMap.mp hx
    exact hexprs e he e (List.mem_singleton_self e) x hx
  · obtain ⟨t, ht, hn⟩ := List.mem_flatMap.mp hn
    exact hstmts t ht n hn

theorem SmallStatement.sites {x : SmallStatement} {next : Located}
    (h : Stands ts x.tokens (next :: after))
    (hends : next.token = .newline ∨ next.token = .sign .semicolon)
    (hact : x.act next.span.start = .ok s) : Sites ts [s] := by
  obtain ⟨form, hmake, hstmts, hexprs⟩ := of_act hact
  exact .node hmake (.simple h hends hact) (fun e he => (hexprs e he).sites h) (hstmts ▸ .nil)

theorem SimpleStatements.exists_ending (x : SimpleStatements) : ∃ t rest, x.ending = t :: rest
    ∧ (t.token = .newline ∨ t.token = .sign .semicolon) ∧ startOf x.ending = t.span.start := by
  rw [ending]
  cases x.semicolon with
  | none => exact ⟨_, _, rfl, .inl rfl, rfl⟩
  | some semicolon => exact ⟨_, _, rfl, .inr rfl, rfl⟩

theorem SimpleStatements.sites {x : SimpleStatements} (h : Stands ts x.tokens after)
    (hact : x.act = .ok ss) : Sites ts ss := by
  obtain ⟨t, ending, hending, hends, hstart⟩ := x.exists_ending
  rw [act, hstart] at hact
  rw [tokens, hending] at h
  generalize x.first = first at h hact
  generalize x.rest = rest at h hact
  induction rest generalizing first ss
  case nil =>
    obtain ⟨s, hs, hact⟩ := of_bind_eq_ok hact
    cases hact
    exact first.sites h.left hends hs
  case cons p rest ih =>
    obtain ⟨s, hs, hact⟩ := of_bind_eq_ok hact
    obtain ⟨ss, hss, hact⟩ := of_bind_eq_ok hact
    cases hact
    have htokens : smallTokens (p :: rest) ++ t :: ending
        = sign .semicolon p.1 :: (p.2.tokens ++ (smallTokens rest ++ t :: ending)) := by
      simp [smallTokens]
    rw [htokens] at h
    have hrest := (h.right first.closes).tail rfl
    exact (first.sites h.left (.inr rfl) hs).append (ih p.2 hrest hss)

end

namespace StmtDerivation

section

variable {async_ : Option Span} {def_ : Span} {name : Name} {opening : Span}
  {params : Derivation (.comma .parameter)} {closing colon : Span}

-- A definition up to its body.
def header (async_ : Option Span) (def_ : Span) (name : Name) (opening : Span)
    (params : Derivation (.comma .parameter)) (closing colon : Span) : List Located :=
  async_.toList.map (word .async_) ++ word .def_ def_ :: name.token :: sign .lparen opening
    :: (params.tokens ++ [sign .rparen closing, sign .colon colon])

theorem tokens_define (body : StmtDerivation .suite) :
    (define async_ def_ name opening params closing colon body).tokens
      = header async_ def_ name opening params closing colon ++ body.tokens := by
  simp [header]

theorem closes_header : Closes (header async_ def_ name opening params closing colon) := by
  have hasync : Closes (async_.toList.map (word .async_)) :=
    .of_plain (List.forall_mem_map.mpr fun _ _ => rfl)
  exact hasync.append (.plain rfl (.plain rfl (.enclosed rfl rfl params.closes (.single rfl))))

theorem stems_header {ps : List Param} (hact : params.act = .ok ps) :
    Stems (header async_ def_ name opening params closing colon) (ps.filterMap (·.default?)) := by
  have hparams := params.stems hact
  rw [Symbol.roots] at hparams
  rw [List.filterMap_eq_flatMap_toList]
  exact ((((hparams.left _).tail _).tail _).tail _).right _

end

-- Wherever its tokens stand, what is built from them has its sites among them.
def Sited (ts : List Located) : (s : StmtSymbol) → StmtDerivation s → Prop
  | .compound, d => ∀ {after s}, Stands ts d.tokens after → d.act = .ok s → Sites ts [s]
  | .clauses, d => ∀ {orelse after ss us}, Stands ts (d.tokens ++ orelse.tokens) after →
      orelse.act = .ok ss → Sites ts ss → actOrelse d orelse = .ok us → Sites ts us
  | .statement, d | .suite, d | .statements, d | .orelse, d =>
    ∀ {after ss}, Stands ts d.tokens after → d.act = .ok ss → Sites ts ss

theorem sited (ts : List Located) {s : StmtSymbol} (d : StmtDerivation s) : d.Sited ts := by
  induction d
  case simple x | line x => exact fun h hact => x.sites h hact
  case compound hd =>
    intro after ss h hact
    obtain ⟨s, hs, hact⟩ := of_bind_eq_ok hact
    cases hact
    exact hd h hs
  case conditional test colon _ clauses orelse hbody hclauses horelse =>
    intro after s h hact
    have htest := (h.tail rfl).left
    have hrest := ((h.tail rfl).right test.closes).tail (t := sign .colon colon) rfl
    have hbehind := hrest.right (StmtDerivation.closes _)
    obtain ⟨e, he, hmake⟩ := of_bind_eq_ok hact
    obtain ⟨ss, hss, hmake⟩ := of_bind_eq_ok hmake
    obtain ⟨cs, hcs, hmake⟩ := of_bind_eq_ok hmake
    obtain ⟨us, hus, hmake⟩ := of_bind_eq_ok hmake
    obtain ⟨vs, hvs, hmake⟩ := of_bind_eq_ok hmake
    have horelse := horelse (hbehind.right clauses.closes) hus
    have hchain : actOrelse clauses orelse = .ok vs := by
      rw [actOrelse, hcs, ok_bind, hus, ok_bind, hvs]
    exact .node hmake (.compound h hact)
      (List.forall_mem_singleton.mpr ((test.stems he).sites htest.isInfix))
      ((hbody hrest.left hss).append (hclauses hbehind hus horelse hchain))
  case whileLoop test colon _ hbody =>
    intro after s h hact
    have htest := (h.tail rfl).left
    have hrest := ((h.tail rfl).right test.closes).tail (t := sign .colon colon) rfl
    obtain ⟨e, he, hmake⟩ := of_bind_eq_ok hact
    obtain ⟨ss, hss, hmake⟩ := of_bind_eq_ok hmake
    exact .node hmake (.compound h hact)
      (List.forall_mem_singleton.mpr ((test.stems he).sites htest.isInfix)) (hbody hrest hss)
  case forLoop target in_ iter colon _ hbody =>
    intro after s h hact
    have htarget := (h.tail rfl).left
    have hbehind := ((h.tail rfl).right target.closes).tail (t := word .in_ in_) rfl
    have hiter := hbehind.left
    have hrest := (hbehind.right iter.closes).tail (t := sign .colon colon) rfl
    obtain ⟨e, he, hmake⟩ := of_bind_eq_ok hact
    obtain ⟨e', he', hmake⟩ := of_bind_eq_ok hmake
    obtain ⟨ss, hss, hmake⟩ := of_bind_eq_ok hmake
    obtain ⟨list, htokens, hlist⟩ := target.exists_list
    rw [← htokens] at htarget
    exact .node hmake (.compound h hact)
      (List.forall_mem_cons.mpr ⟨(iter.stems he').sites hiter.isInfix,
        List.forall_mem_singleton.mpr (list.sites htarget ((hlist _).trans he))⟩)
      (hbody hrest hss)
  case define async_ def_ name opening params closing colon body hbody =>
    intro after s h hact
    have hstands := h
    rw [tokens_define] at hstands
    obtain ⟨ps, hps, hmake⟩ := of_bind_eq_ok hact
    obtain ⟨ss, hss, hmake⟩ := of_bind_eq_ok hmake
    have hdefaults := Stems.sites (stems_header hps) hstands.left.isInfix
    exact .node hmake (.compound h hact)
      (fun e he => List.forall_mem_singleton.mpr (hdefaults e he)) (hbody (hstands.right closes_header) hss)
  case block newline indent first rest dedent hfirst hrest =>
    intro after ss h hact
    have h := (h.tail rfl).tail rfl
    obtain ⟨ss, hss, hact⟩ := of_bind_eq_ok hact
    obtain ⟨us, hus, hact⟩ := of_bind_eq_ok hact
    cases hact
    exact (hfirst h.left hss).append (hrest (h.right first.closes).left hus)
  case more first _ hfirst hrest =>
    intro after ss h hact
    obtain ⟨ss, hss, hact⟩ := of_bind_eq_ok hact
    obtain ⟨us, hus, hact⟩ := of_bind_eq_ok hact
    cases hact
    exact (hfirst h.left hss).append (hrest (h.right first.closes) hus)
  case noStatements | nothingElse =>
    intro after ss _ hact
    cases hact
    exact .nil
  case noClauses =>
    intro orelse after ss us _ hss hsites hus
    rw [actOrelse, hss] at hus
    cases hus
    exact hsites
  case clause elif_ test colon body clauses hbody hclauses =>
    intro orelse after ss us h hss hsites hus
    obtain ⟨_, hcs, hus⟩ := of_bind_eq_ok hus
    rw [hss, ok_bind] at hus
    obtain ⟨e, he, hcs⟩ := of_bind_eq_ok hcs
    obtain ⟨vs, hvs, hcs⟩ := of_bind_eq_ok hcs
    obtain ⟨cs, hrest, hcs⟩ := of_bind_eq_ok hcs
    cases hcs
    obtain ⟨ws, hws, hus⟩ := of_bind_eq_ok hus
    obtain ⟨s, hmake, hus⟩ := of_bind_eq_ok hus
    cases hus
    have hchain : actOrelse clauses orelse = .ok ws := by
      rw [actOrelse, hrest, ok_bind, hss, ok_bind, hws]
    have htest := (h.left.left.tail rfl).left
    have hbody' := ((h.left.left.tail rfl).right test.closes).tail (t := sign .colon colon) rfl
    have hown : Closes (word .elif_ elif_ :: (test.tokens ++ sign .colon colon :: body.tokens)) :=
      .plain rfl (test.closes.append (.plain rfl body.closes))
    have hbehind : Stands ts (clauses.tokens ++ orelse.tokens) after := by
      have h := h
      rw [StmtDerivation.tokens, List.append_assoc] at h
      exact h.right hown
    exact .node hmake (.clause h he hvs hchain hmake)
      (List.forall_mem_singleton.mpr ((test.stems he).sites htest.isInfix))
      ((hbody hbody' hvs).append (hclauses hbehind hss hsites hchain))
  case otherwise hbody =>
    intro after ss h hact
    exact hbody ((h.tail rfl).tail rfl) hact

end StmtDerivation

-- The nodes of a program have their sites among its tokens.
theorem Program.sites {d : Program} {body : List Stmt} (hact : d.act = .ok body) :
    Sites d.tokens body := by
  have hstands : Stands d.tokens d.tokens [] := ⟨[], (List.append_nil _).symm, .nil⟩
  exact d.sited d.tokens hstands hact

end NoteCell.Grammar
