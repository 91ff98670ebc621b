import NoteCell.Proofs.Grammar.Stretches
import NoteCell.Proofs.Tree.Nodes

/-!
Spans of trees. The place of a node covers those of its children, and statements of one body stand one
behind the other. Only a further condition stops before what it falls back on: its place was taken
before it became the statement that the clauses behind it belong to.
-/
namespace NoteCell

open Grammar

namespace StmtForm

variable {σ τ : Type}

def block : StmtForm σ → List σ
  | ifElse _ body _ | whileLoop _ body | forEach _ _ body | define _ _ body _ => body
  | _ => []

-- What a conditional falls back on.
def orelse : StmtForm σ → List σ
  | ifElse _ _ orelse => orelse
  | _ => []

theorem stmts_eq (form : StmtForm σ) : form.stmts = form.block ++ form.orelse := by
  cases form <;> simp [stmts, block, orelse]

theorem block_map (f : Expr → Expr) (g : σ → τ) (form : StmtForm σ) :
    (form.map f g).block = form.block.map g := by
  cases form <;> rfl

theorem orelse_map (f : Expr → Expr) (g : σ → τ) (form : StmtForm σ) :
    (form.map f g).orelse = form.orelse.map g := by
  cases form <;> rfl

end StmtForm

-- A place that starts where a reserved word does.
def Location.StartsAt (ts : List Located) (k : Keyword) (l : Location) : Prop :=
  ∃ t ∈ ts, t.token = .word k ∧ l.start = some t.span.start

def Expr.SpansNest (e : Expr) : Prop := ∀ c ∈ e.children, e.info.location.Covers c.info.location

@[mk_iff]
structure Stmt.SpansNest (ts : List Located) (s : Stmt) : Prop where
  exprs : ∀ e ∈ s.exprs, s.info.location.Covers e.info.location
  block : ∀ t ∈ s.form.block, s.info.location.Covers t.info.location
  orelse : ¬ s.info.location.StartsAt ts .elif_ →
    ∀ t ∈ s.form.orelse, s.info.location.Covers t.info.location
  further : s.info.location.StartsAt ts .elif_ →
    ∀ t ∈ s.form.orelse, s.info.location.Precedes t.info.location
  apart : s.stmts.Pairwise fun t u => t.info.location.Precedes u.info.location

structure Cell.SpansNest (source : String) (c : Cell) : Prop where
  exprs : ∀ e, .expr e ∈ c.nodes → e.SpansNest
  stmts : ∀ s, .stmt s ∈ c.nodes → s.SpansNest (tokenize source).tokens
  apart : c.body.Pairwise fun s t => s.info.location.Precedes t.info.location

/-! ### Expressions -/

namespace Grammar

section

variable {ts us after : List Located} {next : Located} {e : Expr} {s : Stmt}

theorem Origin.covers (h : Ordered ts) (he : Origin ts e) : (placeOf ts).Covers e.info.location := by
  obtain ⟨us, hus, hne, hlocation⟩ := he.location_eq
  obtain ⟨hstart, -, hstop⟩ := h.within hus hne
  exact hlocation ▸ Location.covers_between hstart hstop

theorem Stems.covers (h : Ordered ts) {es : List Expr} (hes : Stems ts es) :
    ∀ e ∈ es, (placeOf ts).Covers e.info.location :=
  fun e he => (hes e he e (mem_nodes_self e)).covers h

theorem mem_nodes_of_mem_children {c : Expr} (hc : c ∈ e.children) : c ∈ e.nodes := by
  cases e
  rw [Expr.nodes_node]
  exact List.mem_cons_of_mem _ (List.mem_flatMap.mpr ⟨c, hc, mem_nodes_self c⟩)

theorem Origin.spansNest (h : Ordered ts) (he : Origin ts e) : e.SpansNest := by
  obtain ⟨l, d, form, hd, hact, hmake⟩ := he
  have hstems := d.stems hact e (List.mem_singleton_self e)
  have hlocation : e.info.location = d.place := by
    obtain ⟨rfl, -⟩ := of_makeExpr_eq_ok hmake
    rfl
  intro c hc
  rw [hlocation]
  exact (hstems c (mem_nodes_of_mem_children hc)).covers (h.of_isInfix hd)

-- A list lies before the next token, and so does what it holds.
theorem TestList.spansNest {list : TestList} (h : Ordered (list.tokens ++ [next]))
    (hact : list.act next.span.start = .ok e) : e.SpansNest
      ∧ (Location.between (startOf list.tokens) (list.stop next.span.start)).Covers e.info.location := by
  have hrow : Ordered list.tokens := h.of_isInfix (List.prefix_append _ _).isInfix
  have hstop := (TestList.le_stop h).1
  obtain he | ⟨form, hmake, hstems⟩ := TestList.of_act hact
  · obtain ⟨us, hus, hne, hlocation⟩ := he.location_eq
    obtain ⟨hstart, -, hle⟩ := hrow.within hus hne
    exact ⟨he.spansNest hrow, hlocation ▸ Location.covers_between hstart (Nat.le_trans hle hstop)⟩
  · obtain ⟨rfl, -⟩ := of_makeExpr_eq_ok hmake
    refine ⟨fun c hc => ?_, Location.covers_between (Nat.le_refl _) (Nat.le_refl _)⟩
    obtain ⟨us, hus, hne, hlocation⟩ := (hstems c hc c (mem_nodes_self c)).location_eq
    obtain ⟨hstart, -, hle⟩ := hrow.within hus hne
    exact hlocation ▸ Location.covers_between hstart (Nat.le_trans hle hstop)

theorem Stands.ordered (h : Ordered ts) (hus : Stands ts us (next :: after)) :
    Ordered (us ++ [next]) := by
  obtain ⟨before, rfl, -⟩ := hus
  rw [List.append_cons us] at h
  exact h.of_isInfix (List.infix_append' before _ after)

theorem ExprSite.spansNest (h : Ordered ts) (he : ExprSite ts e) : e.SpansNest := by
  cases he with
  | part he => exact he.spansNest h
  | listed hstands hact => exact (TestList.spansNest (hstands.ordered h) hact).1

theorem TestList.covers {list : TestList} (h : Ordered ts) (hstands : Stands ts list.tokens (next :: after))
    (hact : list.act next.span.start = .ok e) : (placeOf ts).Covers e.info.location := by
  have hlist := hstands.ordered h
  obtain ⟨_, _, hlocation, hstart, hstop⟩ := exists_between_of_covers (spansNest hlist hact).2
  have hnext : next ∈ ts := by
    obtain ⟨before, rfl, -⟩ := hstands
    simp
  rw [hlocation]
  apply Location.covers_between
  · exact Nat.le_trans (h.within hstands.isInfix list.tokens_ne_nil).1 hstart
  · calc _ ≤ list.stop next.span.start := hstop
      _ ≤ next.span.start := (TestList.le_stop hlist).2
      _ ≤ next.span.stop := h.forward next hnext
      _ ≤ stopOf ts := h.le_stopOf next hnext

/-! ### Statements -/

theorem Holds.covers {stop : Nat} (h : Ordered (us ++ [next])) (hne : us ≠ []) (hstop : stopOf us ≤ stop)
    (he : Holds us next stop e) : (Location.between (startOf us) stop).Covers e.info.location := by
  obtain ⟨list, t, after, hstands, hact, hlast⟩ := he
  obtain rfl | ⟨after, u, rfl⟩ := List.eq_nil_or_concat' after
  · -- The list is the last one.
    have hlist := (TestList.spansNest (hstands.ordered h) hact).2
    rw [hlast rfl] at hlist
    obtain ⟨_, _, hlocation, hstart, hle⟩ := exists_between_of_covers hlist
    have hwithin := (h.within hstands.isInfix list.tokens_ne_nil).1
    rw [startOf_append hne] at hwithin
    exact hlocation ▸ Location.covers_between (Nat.le_trans hwithin hstart) hle
  · obtain ⟨before, htokens, hbefore⟩ := hstands
    rw [← List.cons_append, ← List.append_assoc, ← List.append_assoc] at htokens
    have hus := List.append_inj_left' htokens rfl
    rw [List.append_assoc] at hus
    have hcovers := TestList.covers (h.of_isInfix (List.prefix_append us _).isInfix)
      ⟨before, hus, hbefore⟩ hact
    obtain ⟨_, _, hlocation, hstart, hle⟩ := exists_between_of_covers hcovers
    exact hlocation ▸ Location.covers_between hstart (Nat.le_trans hle hstop)

-- Tokens of the source take up some of it.
def Solid (ts : List Located) : Prop :=
  ∀ t ∈ ts, t.token.isLayout = false → t.span.start < t.span.stop

theorem solid_tokenize (source : String) : Solid (tokenize source).tokens := by
  intro t ht hplain
  obtain ⟨i, hi, -, hspan⟩ := exists_of_mem_arrange ht hplain
  exact hspan ▸ (scan_lossless source).nonempty i hi

-- Two of them start at one place only if they are the same.
theorem Ordered.start_inj (h : Ordered ts) (hsolid : Solid ts) {t u : Located} (ht : t ∈ ts) (hu : u ∈ ts)
    (htplain : t.token.isLayout = false) (huplain : u.token.isLayout = false)
    (hstart : t.span.start = u.span.start) : t = u := by
  have hpos := hsolid t ht htplain
  have hpos' := hsolid u hu huplain
  obtain ⟨before, after, rfl⟩ := List.append_of_mem ht
  obtain ⟨-, hafter, hbefore⟩ := List.pairwise_append.mp h.behind
  obtain hu | hu := List.mem_append.mp hu
  · have hle := hbefore u hu t List.mem_cons_self
    omega
  · obtain rfl | hu := List.mem_cons.mp hu
    · rfl
    · have hle := List.rel_of_pairwise_cons hafter hu
      omega

-- A statement made where all its tokens are.
theorem spansNest_of_stretch (hlocation : s.info.location = placeOf us)
    (hexprs : ∀ e ∈ s.exprs, (placeOf us).Covers e.info.location)
    (hstmts : Stretch (startOf us) (stopOf us) s.stmts)
    (hfurther : s.info.location.StartsAt ts .elif_ → s.form.orelse = []) : s.SpansNest ts where
  exprs := hlocation ▸ hexprs
  block t ht := by
    rw [Stmt.stmts, StmtForm.stmts_eq] at hstmts
    exact hlocation ▸ hstmts.within t (List.mem_append_left _ ht)
  orelse _ t ht := by
    rw [Stmt.stmts, StmtForm.stmts_eq] at hstmts
    exact hlocation ▸ hstmts.within t (List.mem_append_right _ ht)
  further h t ht := by
    rw [hfurther h] at ht
    cases ht
  apart := hstmts.apart

theorem SmallStatement.spansNest {x : SmallStatement} (h : Ordered (x.tokens ++ [next]))
    (hact : x.act next.span.start = .ok s) : s.SpansNest ts := by
  obtain ⟨form, hmake, hstmts, hexprs⟩ := of_act hact
  obtain ⟨rfl, -⟩ := of_makeStmt_eq_ok hmake
  have hnone := hstmts
  rw [StmtForm.stmts_eq, List.append_eq_nil_iff] at hnone
  have hblock : (Stmt.build form (x.place next.span.start)).form.block = [] := hnone.1
  have horelse : (Stmt.build form (x.place next.span.start)).form.orelse = [] := hnone.2
  have happart : (Stmt.build form (x.place next.span.start)).stmts = [] := hstmts
  exact
    { exprs := fun e he => (hexprs e he).covers h x.tokens_ne_nil (SmallStatement.le_stop h).1
      block := hblock ▸ List.forall_mem_nil _
      orelse := fun _ => horelse ▸ List.forall_mem_nil _
      further := fun _ => horelse ▸ List.forall_mem_nil _
      apart := happart ▸ .nil }

namespace StmtDerivation

theorem spansNest (h : Ordered ts) (hsolid : Solid ts) {d : StmtDerivation .compound} (hd : d.tokens <:+: ts)
    (hact : d.act = .ok s) : s.SpansNest ts := by
  have hrow : Ordered d.tokens := h.of_isInfix hd
  have hbounds := hrow.within_placeOf d.tokens_ne_nil
  -- What is built from a part of the tokens lies where they do.
  have hexpr {us : List Located} {es : List Expr} (hes : Stems us es) (hus : us <:+: d.tokens) :
      ∀ e ∈ es, (placeOf d.tokens).Covers e.info.location := (hes.mono hus).covers hrow
  have hblock {body : StmtDerivation .suite} {ss : List Stmt} (hss : body.act = .ok ss)
      (hbody : body.tokens <:+: d.tokens) : Stretch (startOf d.tokens) (stopOf d.tokens) ss :=
    body.stretch (hrow.of_isInfix hbody) (hbounds.of_isInfix hbody) hss
  cases d with
  | conditional if_ test colon body clauses orelse =>
    obtain ⟨e, he, hmake⟩ := of_bind_eq_ok hact
    obtain ⟨ss, hss, hmake⟩ := of_bind_eq_ok hmake
    obtain ⟨cs, hcs, hmake⟩ := of_bind_eq_ok hmake
    obtain ⟨us, hus, hmake⟩ := of_bind_eq_ok hmake
    obtain ⟨vs, hvs, hmake⟩ := of_bind_eq_ok hmake
    obtain ⟨rfl, -⟩ := of_makeStmt_eq_ok hmake
    have hchain : actOrelse clauses orelse = .ok vs := by
      rw [actOrelse, hcs, ok_bind, hus, ok_bind, hvs]
    have hrest : body.tokens ++ (clauses.tokens ++ orelse.tokens)
        <:+: (conditional if_ test colon body clauses orelse).tokens :=
      ⟨word .if_ if_ :: (test.tokens ++ [sign .colon colon]), [], by simp⟩
    have hstmts := (hrow.of_isInfix hrest).stretch_append (hbounds.of_isInfix hrest)
      (fun h hbounds => body.stretch h hbounds hss) fun h hbounds => stretch_orelse h hbounds hchain
    refine spansNest_of_stretch rfl (hexpr (test.stems he) ⟨[word .if_ if_], _, rfl⟩) hstmts ?_
    -- The statement starts at its own word.
    rintro ⟨t, ht, htoken, hstart⟩
    have hif : word .if_ if_ ∈ ts := hd.subset List.mem_cons_self
    have hspan : t.span.start = if_.start := (Option.some.inj hstart).symm
    have heq : t = word .if_ if_ := h.start_inj hsolid ht hif (by rw [htoken]; rfl) rfl hspan
    rw [heq] at htoken
    cases htoken
  | whileLoop while_ test colon body =>
    obtain ⟨e, he, hmake⟩ := of_bind_eq_ok hact
    obtain ⟨ss, hss, hmake⟩ := of_bind_eq_ok hmake
    obtain ⟨rfl, -⟩ := of_makeStmt_eq_ok hmake
    have hbody : body.tokens <:+: (whileLoop while_ test colon body).tokens :=
      ⟨word .while_ while_ :: (test.tokens ++ [sign .colon colon]), [], by simp⟩
    exact spansNest_of_stretch rfl (hexpr (test.stems he) ⟨[word .while_ while_], _, rfl⟩)
      (hblock hss hbody) fun _ => rfl
  | forLoop for_ target in_ iter colon body =>
    obtain ⟨e, he, hmake⟩ := of_bind_eq_ok hact
    obtain ⟨e', he', hmake⟩ := of_bind_eq_ok hmake
    obtain ⟨ss, hss, hmake⟩ := of_bind_eq_ok hmake
    obtain ⟨rfl, -⟩ := of_makeStmt_eq_ok hmake
    obtain ⟨list, htokens, hlist⟩ := target.exists_list
    have hiter : iter.tokens <:+: (forLoop for_ target in_ iter colon body).tokens :=
      ⟨word .for_ for_ :: (target.tokens ++ [word .in_ in_]), sign .colon colon :: body.tokens, by simp⟩
    have hbody : body.tokens <:+: (forLoop for_ target in_ iter colon body).tokens :=
      ⟨word .for_ for_ :: (target.tokens ++ word .in_ in_ :: (iter.tokens ++ [sign .colon colon])), [],
        by simp⟩
    have hstands : Stands (forLoop for_ target in_ iter colon body).tokens list.tokens
        (word .in_ in_ :: (iter.tokens ++ sign .colon colon :: body.tokens)) :=
      ⟨[word .for_ for_], by rw [htokens]; rfl, .single rfl⟩
    have htarget := TestList.covers hrow hstands ((hlist _).trans he)
    exact spansNest_of_stretch rfl (List.forall_mem_cons.mpr
      ⟨hexpr (iter.stems he') hiter e' (List.mem_singleton_self e'), List.forall_mem_singleton.mpr htarget⟩)
      (hblock hss hbody) fun _ => rfl
  | define async_ def_ name opening params closing colon body =>
    obtain ⟨ps, hps, hmake⟩ := of_bind_eq_ok hact
    obtain ⟨ss, hss, hmake⟩ := of_bind_eq_ok hmake
    obtain ⟨rfl, -⟩ := of_makeStmt_eq_ok hmake
    have htokens := @tokens_define async_ def_ name opening params closing colon body
    have hheader := (List.prefix_append (header async_ def_ name opening params closing colon)
      body.tokens).isInfix
    have hbody := (List.suffix_append (header async_ def_ name opening params closing colon)
      body.tokens).isInfix
    rw [← htokens] at hheader hbody
    exact spansNest_of_stretch rfl (hexpr (stems_header hps) hheader) (hblock hss hbody) fun _ => rfl

end StmtDerivation

theorem StmtSite.spansNest (h : Ordered ts) (hsolid : Solid ts) (hs : StmtSite ts s) : s.SpansNest ts := by
  cases hs with
  | simple hstands _ hact => exact SmallStatement.spansNest (hstands.ordered h) hact
  | compound hstands hact => exact StmtDerivation.spansNest h hsolid hstands.isInfix hact
  | @clause elif_ colon test body clauses orelse after e ss us hstands htest hbody horelse hmake =>
    -- The place is that of the tokens before the clauses behind the condition.
    let own := word .elif_ elif_ :: (test.tokens ++ sign .colon colon :: body.tokens)
    have htokens : (StmtDerivation.clause elif_ test colon body clauses).tokens ++ orelse.tokens
        = own ++ (clauses.tokens ++ orelse.tokens) := by simp [own]
    rw [htokens] at hstands
    have hrow : Ordered (own ++ (clauses.tokens ++ orelse.tokens)) := h.of_isInfix hstands.isInfix
    have hown : Ordered own := h.of_isInfix hstands.left.isInfix
    have hne : own ≠ [] := List.cons_ne_nil _ _
    have hbounds := hrow.seam (hrow.within_placeOf (List.append_ne_nil_of_left_ne_nil hne _)) hne
    have hrest := stretch_orelse (hrow.of_isInfix (List.suffix_append own _).isInfix)
      hbounds.2 horelse
    obtain ⟨rfl, -⟩ := of_makeStmt_eq_ok hmake
    have htest' : test.tokens <:+: own := ⟨[word .elif_ elif_], _, rfl⟩
    have hbody' : body.tokens <:+: own :=
      ⟨word .elif_ elif_ :: (test.tokens ++ [sign .colon colon]), [], by simp [own]⟩
    have hblock := body.stretch (hown.of_isInfix hbody')
      ((hown.within_placeOf hne).of_isInfix hbody') hbody
    have hstarts : (placeOf own).StartsAt ts .elif_ :=
      ⟨word .elif_ elif_, hstands.isInfix.subset (by simp [own]), rfl, rfl⟩
    exact
      { exprs := ((test.stems htest).mono htest').covers hown
        block := hblock.within
        orelse := fun hno => (hno hstarts).elim
        further := fun _ t ht => by
          obtain ⟨_, _, hlocation, hstart, -⟩ := exists_between_of_covers (hrest.within t ht)
          exact hlocation ▸ Location.precedes_between hstart
        apart := (hblock.append hrest).apart }

end

end Grammar

/-! ### Numbered nodes -/

section

variable {f : NodeInfo → NodeInfo} (hf : ∀ info, (f info).location = info.location)
include hf

theorem Expr.spansNest_mapInfo (e : Expr) : (e.mapInfo f).SpansNest ↔ e.SpansNest := by
  have hchildren : (e.mapInfo f).children = e.children.map (mapInfo f) := by
    cases e
    rw [mapInfo_node]
    exact ExprForm.children_map _ _
  rw [SpansNest, SpansNest, hchildren, info_mapInfo, hf, List.forall_mem_map]
  simp only [info_mapInfo, hf]

theorem Stmt.location_mapInfo (s : Stmt) : (s.mapInfo f).info.location = s.info.location := by
  cases s
  rw [mapInfo_node]
  exact hf _

theorem Stmt.precedes_mapInfo {ss : List Stmt} :
    (ss.map (mapInfo f)).Pairwise (fun s t => s.info.location.Precedes t.info.location)
      ↔ ss.Pairwise fun s t => s.info.location.Precedes t.info.location := by
  rw [List.pairwise_map]
  simp only [location_mapInfo hf]

theorem Stmt.spansNest_mapInfo {ts : List Located} (s : Stmt) :
    (s.mapInfo f).SpansNest ts ↔ s.SpansNest ts := by
  have hstmts : (s.mapInfo f).stmts = s.stmts.map (mapInfo f) := by
    cases s
    rw [mapInfo_node]
    exact StmtForm.stmts_map _ _ _
  rw [spansNest_iff, spansNest_iff, hstmts, precedes_mapInfo hf, location_mapInfo hf]
  cases s
  rw [mapInfo_node]
  simp [exprs, form, StmtForm.exprs_map, StmtForm.block_map, StmtForm.orelse_map, Expr.info_mapInfo,
    location_mapInfo hf, hf]

end

theorem parse_spansNest {source : String} {c : Cell} (h : parse source = .ok c) :
    c.SpansNest source := by
  have hids (info : NodeInfo) : (info.withId 0).location = info.location := rfl
  have hordered := ordered_tokenize (of_parseTokens h).1
  refine ⟨fun e he => ?_, fun s hs => ?_, ?_⟩
  · obtain ⟨m, hsite, heq⟩ := exists_site h _ he
    cases m with
    | stmt => cases heq
    | expr e' =>
      rw [← e.spansNest_mapInfo hids, ← Node.expr.inj heq, e'.spansNest_mapInfo hids]
      exact ExprSite.spansNest hordered hsite
  · obtain ⟨m, hsite, heq⟩ := exists_site h _ hs
    cases m with
    | expr => cases heq
    | stmt s' =>
      rw [← s.spansNest_mapInfo hids, ← Node.stmt.inj heq, s'.spansNest_mapInfo hids]
      exact StmtSite.spansNest hordered (solid_tokenize source) hsite
  · obtain ⟨-, d, hd, body, hact, rfl⟩ := of_parseTokens h
    rw [← Stmt.precedes_mapInfo hids, Cell.mapInfo_ofBody fun _ _ => rfl, Stmt.precedes_mapInfo hids]
    rw [← hd] at hordered
    obtain ⟨lo, hi, hbounds⟩ := hordered.exists_within
    exact (d.stretch hordered hbounds hact).apart

-- The second condition stops behind `d`, and what it falls back on is behind the next word.
theorem parse_spansNest_further :
    ∃ c, parse "if a:\n    b\nelif c:\n    d\nelse:\n    e\n" = .ok c
      ∧ c.SpansNest "if a:\n    b\nelif c:\n    d\nelse:\n    e\n"
      ∧ ∃ s ∈ c.body, ∃ t ∈ s.form.orelse, ∃ u ∈ t.form.orelse,
        ¬ t.info.location.Covers u.info.location := by
  have houtside : (parse "if a:\n    b\nelif c:\n    d\nelse:\n    e\n").toOption.any
      (fun c => decide (∃ s ∈ c.body, ∃ t ∈ s.form.orelse, ∃ u ∈ t.form.orelse,
        ¬ t.info.location.Covers u.info.location)) = true := by decide +kernel
  cases hparse : parse "if a:\n    b\nelif c:\n    d\nelse:\n    e\n" with
  | error e =>
    rw [hparse] at houtside
    cases houtside
  | ok c =>
    rw [hparse] at houtside
    exact ⟨c, rfl, parse_spansNest hparse, of_decide_eq_true houtside⟩

end NoteCell
