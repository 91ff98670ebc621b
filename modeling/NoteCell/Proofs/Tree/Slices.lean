import NoteCell.Proofs.Grammar.Reread
import NoteCell.Proofs.Lexing.Cuttings
import NoteCell.Proofs.Tree.Spans

/-!
Slices of a source. The part of a source where a simple statement is reads as that statement, and the
part where an expression is reads as that expression in brackets. Only what a comma ends may have a
comment behind it, which the closing bracket then is a part of.
-/
namespace NoteCell

open Grammar

-- An expression that is read again from a text in brackets, unless the text ends in a comment.
structure Expr.RereadFrom (text : List Char) (e : Expr) : Prop where
  reads : ¬ EndsInComment text → ReadsAsExpr ('(' :: text ++ [')']) e
  unread : EndsInComment text → ∀ c, parse (String.ofList ('(' :: text ++ [')'])) ≠ .ok c
  alone : EndsInComment text → ∃ x, e.form = .tuple [x]

structure Cell.Faithful (source : String) (c : Cell) : Prop where
  exprs : ∀ e, .expr e ∈ c.nodes → ∃ start stop text, e.info.location = .between start stop
    ∧ Slice source ⟨start, stop⟩ text ∧ (bracketDepth (tokensIn text) ≤ 199 → e.RereadFrom text)
  stmts : ∀ s, .stmt s ∈ c.nodes → s.stmts = [] → ∃ start stop text,
    s.info.location = .between start stop ∧ Slice source ⟨start, stop⟩ text ∧ ReadsAs text s

namespace Grammar

section

variable {source : String} {ts us after : List Located} {next : Located} {e : Expr} {s : Stmt}
  {part pad rest : List Char}

/-! ### The text of some tokens -/

theorem Ordered.nodup_span (h : Ordered ts) (hsolid : Solid ts)
    (hplain : ∀ t ∈ ts, t.token.isLayout = false) : (ts.map (·.span)).Nodup := by
  rw [List.Nodup, List.pairwise_map]
  refine h.behind.imp_of_mem fun ht _ hle heq => ?_
  have hpos := hsolid _ ht (hplain _ ht)
  rw [← heq] at hle
  omega

theorem exists_cutting_of_inline {before : List Located}
    (h : tokenize source = ⟨before ++ (us ++ after), none⟩) (hne : us ≠ []) (hus : Inline us) :
    ∃ front part behind,
      Cutting source ((kinds before).foldl Token.after 0) (kinds us) after front part behind
        ∧ startOf us = utf8Length front ∧ stopOf us = utf8Length (front ++ part) := by
  obtain ⟨u, us, rfl⟩ := List.exists_cons_of_ne_nil hne
  have hlast := List.getLast?_eq_some_getLast (List.cons_ne_nil u us)
  obtain ⟨front, part, behind, hcut, hstart, hstop⟩ :=
    exists_cutting h hus.isLayout_eq (hus.last_ne_dot _ hlast)
  refine ⟨front, part, behind, hcut, hstart, ?_⟩
  rw [stopOf, hlast, ← hstop]
  rfl

-- Tokens anywhere in a source, up to the end of the last of them.
theorem exists_slice_of_isInfix (h : tokenize source = ⟨ts, none⟩) (hts : us <:+: ts) (hne : us ≠ [])
    (hus : Inline us) :
    ∃ part, Slice source ⟨startOf us, stopOf us⟩ part ∧ Makes 1 part (kinds us) := by
  obtain ⟨before, after, rfl⟩ := hts
  rw [List.append_assoc] at h
  obtain ⟨front, part, behind, hcut, hstart, hstop⟩ := exists_cutting_of_inline h hne hus
  refine ⟨part, ⟨front, behind, hcut.source_eq, ?_⟩, hcut.makes.enclosed hus.closes⟩
  rw [hstart, hstop, utf8Length_append]

-- Tokens behind whole brackets, up to the end of the last of them or to the next one.
theorem Stands.exists_slice (h : tokenize source = ⟨ts, none⟩) (hts : Stands ts us (next :: after))
    (hne : us ≠ []) (hus : Inline us) {stop : Nat}
    (hstop : stop = next.span.start ∨ stop = stopOf us) :
    ∃ part pad rest, Slice source ⟨startOf us, stop⟩ (part ++ pad) ∧ Makes 0 part (kinds us)
      ∧ Padding rest pad := by
  obtain ⟨before, rfl, hbefore⟩ := hts
  obtain ⟨front, part, behind, hcut, hstart, hend⟩ := exists_cutting_of_inline h hne hus
  rw [hbefore.foldl_after] at hcut
  obtain rfl | rfl := hstop
  · obtain ⟨pad, more, rfl, hpad, hnext⟩ := hcut.exists_padding (hus.closes.foldl_after 0)
    refine ⟨part, pad, more, ⟨front, more, ?_, ?_⟩, hcut.makes, hpad⟩
    · rw [hcut.source_eq]
      simp only [List.append_assoc]
    · rw [hstart, hnext, List.append_assoc, utf8Length_append]
  · refine ⟨part, [], [], ⟨front, behind, ?_, ?_⟩, hcut.makes, .nil⟩
    · rw [hcut.source_eq, List.append_nil]
    · rw [hstart, hend, List.append_nil, utf8Length_append]

/-! ### Expressions -/

theorem Origin.exists_list (h : Origin ts e) : ∃ list : TestList, (∀ next, list.act next = .ok e)
    ∧ list.tokens <:+: ts ∧ e.info.location = placeOf list.tokens := by
  obtain ⟨l, d, form, hd, hact, hmake⟩ := h
  obtain ⟨d', htokens, hact'⟩ := exists_expression d
  obtain ⟨rfl, -⟩ := of_makeExpr_eq_ok hmake
  refine ⟨.single d', fun _ => hact'.trans hact, ?_, ?_⟩
  · rw [TestList.tokens, htokens]
    exact hd
  · rw [TestList.tokens, htokens]
    rfl

-- An expression stops with the tokens that it is built from, or where the next one starts if it is
-- an item alone with a comma behind it.
theorem ExprSite.exists_list (h : ExprSite ts e) : ∃ (list : TestList) (k : Nat), list.act k = .ok e
    ∧ (list.tokens <:+: ts ∧ e.info.location = placeOf list.tokens
      ∨ ∃ next after, Stands ts list.tokens (next :: after) ∧ (∃ x, e.form = .tuple [x])
        ∧ e.info.location = .between (startOf list.tokens) next.span.start) := by
  cases h with
  | part h =>
    obtain ⟨list, hact, hlist⟩ := h.exists_list
    exact ⟨list, 0, hact 0, .inl hlist⟩
  | @listed list next after hstands hact =>
    obtain horigin | ⟨form, hmake, -⟩ := TestList.of_act hact
    · obtain ⟨list', hact', hinside, hlocation⟩ := horigin.exists_list
      exact ⟨list', 0, hact' 0, .inl ⟨hinside.trans hstands.isInfix, hlocation⟩⟩
    · refine ⟨list, _, hact, ?_⟩
      have hlocation : e.info.location
          = .between (startOf list.tokens) (list.stop next.span.start) := by
        obtain ⟨rfl, -⟩ := of_makeExpr_eq_ok hmake
        rfl
      rw [hlocation]
      cases list with
      | single => exact .inl ⟨hstands.isInfix, rfl⟩
      | tuple first comma items =>
        cases items with
        | lastItem | item => exact .inl ⟨hstands.isInfix, rfl⟩
        | noItems =>
          obtain ⟨x, -, hlone⟩ := of_bind_eq_ok hact
          obtain ⟨rfl, -⟩ := of_makeExpr_eq_ok hlone
          exact .inr ⟨next, after, hstands, ⟨x, rfl⟩, rfl⟩

theorem TestList.rereadFrom {list : TestList} {k : Nat} (h : Ordered ts) (hsolid : Solid ts)
    (hts : list.tokens <:+: ts) (hact : list.act k = .ok e) (hdepth : e.info.nesting ≤ maxExprNesting)
    (hpart : Makes 1 part (kinds list.tokens)) (hpad : Padding rest pad)
    (hlone : '#' ∈ pad → ∃ x, e.form = .tuple [x])
    (hbrackets : bracketDepth (tokensIn (part ++ pad)) ≤ 199) : e.RereadFrom (part ++ pad) := by
  have hcomment := hpart.endsInComment_iff hpad
  rw [hpart.tokensIn_eq hpad] at hbrackets
  have hwithin : OpensWithin 1 (kinds list.tokens) :=
    Balanced.opensWithin list.closes (show 1 + _ ≤ 200 by omega)
  have hread := hpart.read?_enclosed hwithin (list.closes.foldl_after 1) hpad
  have hnodup : (list.tokens.map (·.span)).Nodup :=
    (h.of_isInfix hts).nodup_span (fun t ht => hsolid t (hts.subset ht)) list.inline.isLayout_eq
  refine ⟨fun hno => ?_, fun hends => ?_, fun hends => hlone (hcomment.mp hends)⟩
  · rw [if_neg (mt hcomment.mpr hno)] at hread
    exact TestList.readsAsExpr hnodup hact hdepth hread
  · rw [if_pos (hcomment.mp hends), List.append_nil] at hread
    exact not_parse_of_open list.closes hread

theorem ExprSite.exists_slice (h : tokenize source = ⟨ts, none⟩) (he : ExprSite ts e) :
    ∃ start stop text, e.info.location = .between start stop ∧ Slice source ⟨start, stop⟩ text
      ∧ (bracketDepth (tokensIn text) ≤ 199 → e.RereadFrom text) := by
  have hordered := ordered_tokenize (congrArg TokenStream.error h)
  have hsolid := solid_tokenize source
  rw [h] at hordered hsolid
  obtain ⟨list, k, hact, ⟨hinside, hlocation⟩ | ⟨next, after, hstands, hlone, hlocation⟩⟩ :=
    he.exists_list
  · obtain ⟨part, hslice, hpart⟩ := exists_slice_of_isInfix h hinside list.tokens_ne_nil list.inline
    refine ⟨_, _, part, hlocation, hslice, fun hbrackets => ?_⟩
    rw [← List.append_nil part] at hbrackets ⊢
    have hnothing : Padding [] [] := .nil
    exact list.rereadFrom hordered hsolid hinside hact he.nesting_le hpart hnothing (by simp) hbrackets
  · obtain ⟨part, pad, rest, hslice, hpart, hpad⟩ :=
      hstands.exists_slice h list.tokens_ne_nil list.inline (.inl rfl)
    exact ⟨_, _, part ++ pad, hlocation, hslice, list.rereadFrom hordered hsolid hstands.isInfix hact
      he.nesting_le (hpart.enclosed list.closes) hpad fun _ => hlone⟩

/-! ### Simple statements -/

theorem SimpleStatements.act_ne_nil {x : SimpleStatements} {ss : List Stmt} (h : x.act = .ok ss) :
    ss ≠ [] := by
  rw [act] at h
  cases hrest : x.rest with
  | nil =>
    rw [hrest] at h
    obtain ⟨s, -, h⟩ := of_bind_eq_ok h
    cases h
    exact List.cons_ne_nil s []
  | cons p rest =>
    rw [hrest] at h
    obtain ⟨s, -, h⟩ := of_bind_eq_ok h
    obtain ⟨us, -, h⟩ := of_bind_eq_ok h
    cases h
    exact List.cons_ne_nil s us

theorem StmtDerivation.statement_ne_nil {d : StmtDerivation .statement} {ss : List Stmt}
    (h : d.act = .ok ss) : ss ≠ [] := by
  cases d with
  | simple x => exact x.act_ne_nil h
  | compound d =>
    obtain ⟨s, -, h⟩ := of_bind_eq_ok h
    cases h
    exact List.cons_ne_nil s []

theorem StmtDerivation.suite_ne_nil {d : StmtDerivation .suite} {ss : List Stmt} (h : d.act = .ok ss) :
    ss ≠ [] := by
  cases d with
  | line x => exact x.act_ne_nil h
  | block newline indent first rest dedent =>
    obtain ⟨us, hfirst, h⟩ := of_bind_eq_ok h
    obtain ⟨vs, -, h⟩ := of_bind_eq_ok h
    cases h
    exact List.append_ne_nil_of_left_ne_nil (statement_ne_nil hfirst) vs

theorem StmtDerivation.stmts_ne_nil {d : StmtDerivation .compound} (h : d.act = .ok s) :
    s.stmts ≠ [] := by
  cases d with
  | conditional if_ test colon body clauses orelse =>
    obtain ⟨e, -, h⟩ := of_bind_eq_ok h
    obtain ⟨ss, hbody, h⟩ := of_bind_eq_ok h
    obtain ⟨cs, -, h⟩ := of_bind_eq_ok h
    obtain ⟨us, -, h⟩ := of_bind_eq_ok h
    obtain ⟨vs, -, h⟩ := of_bind_eq_ok h
    obtain ⟨rfl, -⟩ := of_makeStmt_eq_ok h
    exact List.append_ne_nil_of_left_ne_nil (suite_ne_nil hbody) vs
  | whileLoop while_ test colon body =>
    obtain ⟨e, -, h⟩ := of_bind_eq_ok h
    obtain ⟨ss, hbody, h⟩ := of_bind_eq_ok h
    obtain ⟨rfl, -⟩ := of_makeStmt_eq_ok h
    exact suite_ne_nil hbody
  | forLoop for_ target in_ iter colon body =>
    obtain ⟨e, -, h⟩ := of_bind_eq_ok h
    obtain ⟨e', -, h⟩ := of_bind_eq_ok h
    obtain ⟨ss, hbody, h⟩ := of_bind_eq_ok h
    obtain ⟨rfl, -⟩ := of_makeStmt_eq_ok h
    exact suite_ne_nil hbody
  | define async_ def_ name opening params closing colon body =>
    obtain ⟨ps, -, h⟩ := of_bind_eq_ok h
    obtain ⟨ss, hbody, h⟩ := of_bind_eq_ok h
    obtain ⟨rfl, -⟩ := of_makeStmt_eq_ok h
    exact suite_ne_nil hbody

theorem StmtSite.exists_slice (h : tokenize source = ⟨ts, none⟩) (hs : StmtSite ts s)
    (hstmts : s.stmts = []) : ∃ start stop text, s.info.location = .between start stop ∧ Slice source ⟨start, stop⟩ text
      ∧ ReadsAs text s := by
  cases hs with
  | compound _ hact => exact (StmtDerivation.stmts_ne_nil hact hstmts).elim
  | @clause _ _ _ _ _ _ _ _ _ us _ _ hbody _ hmake =>
    obtain ⟨rfl, -⟩ := of_makeStmt_eq_ok hmake
    exact (List.append_ne_nil_of_left_ne_nil (StmtDerivation.suite_ne_nil hbody) us hstmts).elim
  | @simple x next after hstands _ hact =>
    have hordered := ordered_tokenize (congrArg TokenStream.error h)
    have hsolid := solid_tokenize source
    have hwithin := (Cursor.sound_tokenize source).within
    rw [h] at hordered hsolid hwithin
    obtain ⟨part, pad, rest, hslice, hpart, hpad⟩ :=
      hstands.exists_slice h x.tokens_ne_nil x.inline (x.stop_cases next.span.start)
    have hlocation : s.info.location = x.place next.span.start := by
      obtain ⟨form, hmake, -⟩ := SmallStatement.of_act hact
      obtain ⟨rfl, -⟩ := of_makeStmt_eq_ok hmake
      rfl
    have hnodup : (x.tokens.map (·.span)).Nodup := (hordered.of_isInfix hstands.isInfix).nodup_span
      (fun t ht => hsolid t (hstands.isInfix.subset ht)) x.inline.isLayout_eq
    have hopens : OpensWithin 0 (kinds x.tokens) := by
      obtain ⟨before, rfl, hbefore⟩ := hstands
      have hwithin : OpensWithin 0 (kinds (before ++ (x.tokens ++ next :: after))) := hwithin
      rw [kinds_append, kinds_append, opensWithin_append, hbefore.foldl_after,
        opensWithin_append] at hwithin
      exact hwithin.2.1
    exact ⟨_, _, part ++ pad, hlocation, hslice, x.readsAs hnodup hact (hpart.read?_alone hopens hpad)⟩

end

end Grammar

/-! ### Numbered nodes -/

section

variable {e e' : Expr} {s s' : Stmt} {text : List Char}

theorem Expr.anonymous_of_unnumbered (h : (Node.expr e').unnumbered = (Node.expr e).unnumbered) :
    e'.mapInfo .anonymous = e.mapInfo .anonymous := by
  have hids (e : Expr) : (e.mapInfo (·.withId 0)).mapInfo .anonymous = e.mapInfo .anonymous :=
    e.mapInfo_mapInfo
  rw [← hids, Node.expr.inj h, hids]

theorem Stmt.anonymous_of_unnumbered (h : (Node.stmt s').unnumbered = (Node.stmt s).unnumbered) :
    s'.mapInfo .anonymous = s.mapInfo .anonymous := by
  have hids (s : Stmt) : (s.mapInfo (·.withId 0)).mapInfo .anonymous = s.mapInfo .anonymous :=
    s.mapInfo_mapInfo
  rw [← hids, Node.stmt.inj h, hids]

theorem Expr.RereadFrom.of_anonymous (h : e'.RereadFrom text)
    (heq : e'.mapInfo .anonymous = e.mapInfo .anonymous) : e.RereadFrom text where
  reads hno := by
    obtain ⟨c, t, e'', hparse, hbody, hform, he⟩ := h.reads hno
    exact ⟨c, t, e'', hparse, hbody, hform, he.trans heq⟩
  unread := h.unread
  alone hends := by
    obtain ⟨x, hx⟩ := h.alone hends
    have hform := congrArg form heq
    rw [form_mapInfo, form_mapInfo, hx] at hform
    cases hitems : e.form with
    | tuple items =>
      rw [hitems] at hform
      obtain ⟨y, rfl, -⟩ := List.map_eq_singleton_iff.mp (ExprForm.tuple.inj hform).symm
      exact ⟨y, rfl⟩
    | _ =>
      rw [hitems] at hform
      cases hform

theorem Stmt.stmts_eq_nil_of_anonymous (heq : s'.mapInfo .anonymous = s.mapInfo .anonymous)
    (h : s.stmts = []) : s'.stmts = [] := by
  have hform := congrArg (StmtForm.stmts ∘ form) heq
  rw [Function.comp_apply, Function.comp_apply, form_mapInfo, form_mapInfo, StmtForm.stmts_map,
    StmtForm.stmts_map] at hform
  have hnone : s.form.stmts = [] := h
  rw [hnone] at hform
  exact List.map_eq_nil_iff.mp hform

end

theorem parse_faithful {source : String} {c : Cell} (h : parse source = .ok c) :
    c.Faithful source := by
  have hstream : tokenize source = ⟨(tokenize source).tokens, none⟩ := by
    rw [← (of_parseTokens h).1]
  refine ⟨fun e he => ?_, fun s hs hstmts => ?_⟩
  · obtain ⟨m, hsite, hnode⟩ := exists_site h _ he
    cases m with
    | stmt => cases hnode
    | expr e' =>
      have hlocation : e'.info.location = e.info.location := (Node.info_of_unnumbered hnode).1
      obtain ⟨start, stop, text, hplace, hslice, hreread⟩ := ExprSite.exists_slice hstream hsite
      exact ⟨start, stop, text, hlocation.symm.trans hplace, hslice, fun hbrackets =>
        (hreread hbrackets).of_anonymous (Expr.anonymous_of_unnumbered hnode)⟩
  · obtain ⟨m, hsite, hnode⟩ := exists_site h _ hs
    cases m with
    | expr => cases hnode
    | stmt s' =>
      have hlocation : s'.info.location = s.info.location := (Node.info_of_unnumbered hnode).1
      have heq := Stmt.anonymous_of_unnumbered hnode
      obtain ⟨start, stop, text, hplace, hslice, cell, t, hparse, hbody, ht⟩ :=
        StmtSite.exists_slice hstream hsite (Stmt.stmts_eq_nil_of_anonymous heq hstmts)
      exact ⟨start, stop, text, hlocation.symm.trans hplace, hslice, cell, t, hparse, hbody,
        ht.trans heq⟩

-- An item alone goes on to the end of its line, and the comment there takes up the closing bracket.
theorem parse_faithful_comment :
    ∃ c, parse "x,  # c\n" = .ok c ∧ c.Faithful "x,  # c\n"
      ∧ (∃ s ∈ c.body, ∃ e ∈ s.exprs, e.info.location = .between 0 7)
      ∧ (parse "(x,  # c)").toOption.isNone := by
  have hplace : (parse "x,  # c\n").toOption.any
      (fun c => decide (∃ s ∈ c.body, ∃ e ∈ s.exprs, e.info.location = .between 0 7)) = true := by
    decide +kernel
  have hlost : (parse "(x,  # c)").toOption.isNone := by decide +kernel
  cases hparse : parse "x,  # c\n" with
  | error e =>
    rw [hparse] at hplace
    cases hplace
  | ok c =>
    rw [hparse] at hplace
    exact ⟨c, rfl, parse_faithful hparse, of_decide_eq_true hplace, hlost⟩

end NoteCell
