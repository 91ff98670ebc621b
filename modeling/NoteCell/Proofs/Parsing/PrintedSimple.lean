import NoteCell.Proofs.Parsing.PrintedExpression
import NoteCell.Proofs.Printing.Tokens

/-!
Printed simple statements are read back. A statement is within the limits when each of its
expressions is within theirs and the whole is not too deep.
-/
namespace NoteCell

open NoteCell.Parser

structure StmtMirrors (s s' : Stmt) : Prop where
  bare : s'.bare = s.bare
  nested : s'.WellNested

structure StmtReading (s : Stmt) (rest : List Token) (s' : Stmt) (c : Cursor) : Prop
    extends StmtMirrors s s' where
  faces : c.Faces rest

def Stmt.Fits : Stmt → Prop :=
  All fun info form =>
    (∀ e ∈ form.exprs, e.Fits) ∧ (Stmt.node info form).depth ≤ maxStmtNesting

theorem Stmt.Fits.of_bare {s s' : Stmt} (h : s.Fits) (hb : s'.bare = s.bare) : s'.Fits := by
  refine All.of_bare h hb fun info form info' form' hform ⟨hexprs, hdepth⟩ => ⟨fun e he => ?_, ?_⟩
  · have hmap := congrArg StmtForm.exprs hform
    rw [StmtForm.exprs_map, StmtForm.exprs_map] at hmap
    obtain ⟨d, hd, hbare⟩ := List.mem_map.mp (hmap ▸ List.mem_map_of_mem (f := Expr.bare) he)
    rw [Expr.Fits, Expr.depth_eq_of_bare hbare.symm]
    exact hexprs d hd
  · have hbare : (Stmt.node info' form').bare = (Stmt.node info form).bare := by
      rw [bare_node, bare_node, hform]
    rw [depth_eq_of_bare hbare]
    exact hdepth

section

variable {info : NodeInfo} {form form' : StmtForm Stmt} {c : Cursor} {rest : List Token}

theorem Stmt.Fits.expr (h : (node info form).Fits) {e : Expr} (he : e ∈ form.exprs) : e.Fits :=
  h.root.1 e he

theorem Stmt.Fits.stmt (h : (node info form).Fits) {s : Stmt} (hs : s ∈ form.stmts) : s.Fits :=
  h.child s hs

-- The parts of a statement are within the limits when they have been read.
theorem verdict_makeStmtBefore {follows : Option Token → Bool} {location : Location}
    (hform : form'.map Expr.bare Stmt.bare = form.map Expr.bare Stmt.bare)
    (hwe : ∀ e ∈ form'.exprs, e.WellNested) (hws : ∀ s ∈ form'.stmts, s.WellNested)
    (hfe : ∀ e ∈ form.exprs, e.Fits) (hfs : ∀ s ∈ form.stmts, s.Fits) (hc : c.Faces rest) :
    Verdict (Stmt.node info form).Fits (makeStmtBefore follows form' location c)
      (StmtReading (.node info form) rest) := by
  have hb : (Stmt.build form' location).bare = (Stmt.node info form).bare := by
    rw [Stmt.build, Stmt.bare_node, Stmt.bare_node, hform]
  have hn : (Stmt.build form' location).WellNested := Stmt.wellNested_build hwe hws
  rw [makeStmtBefore, hn.nesting_eq, Stmt.depth_eq_of_bare hb]
  split
  case isTrue hle => exact .ok (.node ⟨hfe, hle⟩ hfs) ⟨⟨hb, hn⟩, hc⟩
  case isFalse hlt => exact fun h => hlt h.root.2

theorem verdict_makeSimple {at_ : Nat}
    (hform : form'.map Expr.bare Stmt.bare = form.map Expr.bare Stmt.bare)
    (hwe : ∀ e ∈ form'.exprs, e.WellNested) (hleaf : form'.stmts = [])
    (hfe : ∀ e ∈ form.exprs, e.Fits) (hc : c.Faces rest) :
    Verdict (Stmt.node info form).Fits (makeSimple form' at_ c)
      (StmtReading (.node info form) rest) := by
  have hleaf' : form.stmts = [] := by
    have := congrArg StmtForm.stmts hform
    rw [StmtForm.stmts_map, StmtForm.stmts_map, hleaf] at this
    simpa using this.symm
  rw [makeSimple, bind_ok (stop_eq c)]
  exact verdict_makeStmtBefore hform hwe (by simp [hleaf]) hfe (by simp [hleaf']) hc

end

theorem StmtMirrors.rows {ss ss' : List Stmt} (h : List.Forall₂ StmtMirrors ss ss') :
    ss'.map Stmt.bare = ss.map Stmt.bare ∧ ∀ s ∈ ss', s.WellNested := by
  induction h
  case nil => simp
  case cons hd _ ih =>
    exact ⟨by simp [hd.bare, ih.1], List.forall_mem_cons.mpr ⟨hd.nested, ih.2⟩⟩

/-! ### Expressions and bare tuples -/

-- Tokens behind which a list of expressions without brackets is over.
structure EndsList (ts : List Token) : Prop where
  hold : holdOf ts = 0
  noComma : ts.head? ≠ some (.sign .comma)
  noStart : ¬ startsWith Token.startsExpression ts

theorem EndsList.endsRow {ts : List Token} (h : EndsList ts) : EndsRow (holdOf · = 0) ts :=
  ⟨h.hold, h.noComma⟩

theorem Expr.Printed.loose {e : Expr} (h : e.Printed) (hs : 0 < e.strength) :
    Reads Strength.test (e.tokens Strength.tuple) e := by
  have htokens : e.tokens Strength.tuple = e.tokens Strength.test := by
    cases e with
    | node info form =>
      have hs : 0 < form.strength := hs
      rw [tokens_loosest, tokens_node]
      exact (if_neg (Nat.not_lt.mpr hs)).symm
  rw [htokens]
  exact h.reads (by decide) (by decide)

section

variable {e : Expr} {c : Cursor} {n : Nat} {rest : List Token}

theorem verdict_exprList {ts : List Token} (h : Reads Strength.test ts e) (hrest : EndsList rest)
    (hc : c.Faces (ts ++ rest)) (hn : fuelFor Strength.test (ts ++ rest) ≤ n) :
    Verdict e.Fits (exprList n c) fun r c' => Mirrors e r.1 ∧ r.2 = false ∧ c'.Faces rest := by
  rw [exprList, bind_ok (start_eq c)]
  refine (h n c rest hc hn (by rw [hrest.hold]; decide)).seq id fun hf e' c' he' => ?_
  rw [bind_ok (accept_ne he'.faces hrest.noComma), if_neg (by simp)]
  exact .pure hf ⟨he'.toMirrors, rfl, he'.faces⟩

-- In a place for tuples a tuple may stand without brackets.
theorem verdict_target (he : e.Regular) (hrest : EndsList rest)
    (hc : c.Faces (e.tokens Strength.tuple ++ rest))
    (hn : fuelFor Strength.test (e.tokens Strength.tuple ++ rest) ≤ n) :
    Verdict e.Fits (exprList n c)
      fun r c' => Mirrors e r.1 ∧ (0 < e.strength → r.2 = false) ∧ c'.Faces rest := by
  by_cases hs : 0 < e.strength
  case pos =>
    exact (verdict_exprList (he.printed.loose hs) hrest hc hn).imp
      fun _ r c' ⟨hm, hr, hc'⟩ => ⟨hm, fun _ => hr, hc'⟩
  case neg =>
    cases e with
    | node info form =>
    obtain ⟨e, es, rfl⟩ := ExprForm.eq_tuple_of_strength (Nat.eq_zero_of_not_pos hs)
    have hbelow {d : Expr} (hd : d ∈ e :: es) : Reads Strength.test (d.tokens Strength.test) d :=
      (he.below hd).printed.reads (by decide) (by decide)
    have hchild {d : Expr} (hd : d ∈ e :: es)
        (h : (Expr.node info (.tuple (e :: es))).Fits) : d.Fits := h.child hd
    rw [Expr.tokens_loosest, ExprForm.tokens_tuple (List.cons_ne_nil e es),
      List.map_cons, tupleTokens_cons, List.append_assoc, List.cons_append] at hc hn
    rw [exprList, bind_ok (start_eq c)]
    refine (hbelow (by simp) n c _ hc hn (Nat.zero_lt_succ _)).seq (hchild (by simp))
      fun _ e' c' he' => ?_
    rw [bind_ok (accept_eq he'.faces), if_pos rfl]
    refine (reads_elements (fun d hd => hbelow (List.mem_cons_of_mem _ hd)) hrest.endsRow
      hrest.noStart he'.faces.next ?_).seq
      (fun h d hd => hchild (List.mem_cons_of_mem _ hd) h) fun _ es' c'' ⟨hes, hc''⟩ => ?_
    · simp only [fuelFor, List.length_append, List.length_cons, Strength.test] at hn ⊢
      omega
    have hall := Mirrors.rows (.cons he'.toMirrors hes)
    have hmake (c₃ : Cursor) (hc₃ : c₃.Faces rest) : Verdict
        (Expr.node info (.tuple (e :: es))).Fits
        ((makeExprBefore endsBareTuple (.tuple (e' :: es')) c.start >>= fun t => pure (t, true)) c₃)
        fun r c' => Mirrors (.node info (.tuple (e :: es))) r.1
          ∧ (0 < (Expr.node info (.tuple (e :: es))).strength → r.2 = false) ∧ c'.Faces rest := by
      have htuple : Verdict _ (makeExprBefore endsBareTuple (.tuple (e' :: es')) c.start c₃)
          (Reading (.node info (.tuple (e :: es))) rest) :=
        verdict_makeExprBefore (by simpa [ExprForm.map] using hall.1) hall.2 hc₃
      refine htuple.seq id fun hf t c' ht => ?_
      exact .pure hf ⟨ht.toMirrors, fun hs' => absurd hs' hs, ht.faces⟩
    split
    case isTrue =>
      rw [bind_ok (reachNext_eq c'')]
      exact hmake _ ⟨hc''.tokens, hc''.clean⟩
    case isFalse => exact hmake _ hc''

end

/-! ### Assignments -/

-- The tokens of the targets and the value behind the first target.
def assignedTokens (value : Expr) (targets : List Expr) : List Token :=
  .sign .assign :: chainTokens value targets

theorem chainTokens_cons (value target : Expr) (targets : List Expr) :
    chainTokens value (target :: targets)
      = target.tokens Strength.tuple ++ assignedTokens value targets := rfl

theorem length_lt_assignedTokens (value : Expr) (targets : List Expr) :
    targets.length + 1 < (assignedTokens value targets).length := by
  induction targets
  case nil =>
    have := (value.opens_tokens Strength.test (by decide)).length_pos
    simpa [assignedTokens, chainTokens] using this
  case cons t ts ih =>
    have := (t.opens_tokens Strength.tuple (by decide)).length_pos
    simp only [assignedTokens, chainTokens_cons, List.length_cons, List.length_append] at ih ⊢
    omega

theorem endsList_newline (ts : List Token) : EndsList (.newline :: ts) :=
  ⟨rfl, nofun, nofun⟩

theorem endsList_assigned (value : Expr) (targets : List Expr) (ts : List Token) :
    EndsList (assignedTokens value targets ++ ts) :=
  ⟨rfl, nofun, nofun⟩

theorem reads_assigned {value : Expr} {targets : List Expr} (hv : value.Regular)
    (ht : ∀ t ∈ targets, t.Regular) {m n : Nat} {c : Cursor} {rest : List Token}
    (hc : c.Faces (assignedTokens value targets ++ .newline :: rest))
    (hn : 32 * (assignedTokens value targets ++ .newline :: rest).length ≤ n)
    (hm : targets.length + 1 < m) :
    Verdict (value.Fits ∧ ∀ t ∈ targets, t.Fits) (assigned n m c) fun es c' =>
      ∃ targets' value', es = targets' ++ [value'] ∧ List.Forall₂ Mirrors targets targets'
        ∧ Mirrors value value' ∧ c'.Faces (.newline :: rest) := by
  induction targets generalizing m n c
  case nil =>
    obtain ⟨m, rfl⟩ : ∃ k, m = k + 1 + 1 := ⟨m - 2, by omega⟩
    rw [assigned, bind_ok (accept_eq hc), if_pos rfl]
    refine (verdict_exprList (hv.printed.reads (by decide) (by decide)) (endsList_newline rest)
      hc.next ?_).seq And.left fun hf read c' hread => ?_
    · simp [fuelFor, assignedTokens, chainTokens, Strength.test] at hn ⊢
      omega
    obtain ⟨value', _⟩ := read
    obtain ⟨hr, _, hc'⟩ := hread
    have hstop : assigned n (m + 1) c' = .ok ([], c') := by
      rw [assigned, bind_ok (accept_ne hc' (by simp)), if_neg (by simp)]
      rfl
    simp only []
    rw [bind_ok hstop]
    exact .pure ⟨hf, by simp⟩ ⟨[], value', rfl, .nil, hr, hc'⟩
  case cons t ts ih =>
    obtain ⟨m, rfl⟩ : ∃ k, m = k + 1 := ⟨m - 1, by omega⟩
    rw [assignedTokens, chainTokens_cons] at hc hn
    simp only [List.cons_append, List.append_assoc] at hc hn
    rw [assigned, bind_ok (accept_eq hc), if_pos rfl]
    refine (verdict_target (ht t (by simp)) (endsList_assigned value ts _) hc.next ?_).seq
      (fun h => h.2 t (by simp)) fun hf read c' hread => ?_
    · simp [fuelFor, assignedTokens, Strength.test] at hn ⊢
      omega
    obtain ⟨t', _⟩ := read
    obtain ⟨hr, _, hc'⟩ := hread
    refine (ih (fun t h => ht t (List.mem_cons_of_mem _ h)) hc' ?_ ?_).seq
      (fun h => ⟨h.1, fun t hts => h.2 t (List.mem_cons_of_mem _ hts)⟩)
      fun hfs es c'' hread => ?_
    · simp [assignedTokens] at hn ⊢
      omega
    · simp at hm
      omega
    obtain ⟨targets', value', hes, hts, hval, hc''⟩ := hread
    exact .pure ⟨hfs.1, List.forall_mem_cons.mpr ⟨hf, hfs.2⟩⟩
      ⟨t' :: targets', value', by simp [hes], .cons hr hts, hval, hc''⟩

-- The statement at the head of the tokens is read up to the end of its line.
def ReadsSmall (p : Nat → Parser Stmt) (form : StmtForm Stmt) : Prop :=
  ∀ info n c rest, c.Faces (form.tokens ++ .newline :: rest) →
    32 * (form.tokens ++ .newline :: rest).length + 23 ≤ n →
    Verdict (Stmt.node info form).Fits (p n c)
      (StmtReading (.node info form) (.newline :: rest))

section

variable {e value target : Expr} {targets : List Expr}

theorem assigned_newline {n m : Nat} {c : Cursor} {rest : List Token}
    (hc : c.Faces (.newline :: rest)) (hm : 0 < m) : assigned n m c = .ok ([], c) := by
  obtain ⟨m, rfl⟩ : ∃ k, m = k + 1 := ⟨m - 1, by omega⟩
  rw [assigned, bind_ok (accept_ne hc (by simp)), if_neg (by simp)]
  rfl

theorem reads_expr (he : e.Regular) : ReadsSmall exprStatement (.expr e) := by
  intro info n c rest hc hn
  rw [StmtForm.tokens_expr] at hc hn
  have hpos := (e.opens_tokens Strength.test (by decide)).length_pos
  rw [exprStatement, bind_ok (start_eq c)]
  refine (verdict_exprList (he.printed.reads (by decide) (by decide)) (endsList_newline rest) hc
    ?_).seq (fun h => h.expr (by simp [StmtForm.exprs])) fun hf r c' ⟨hr, hbare, hc'⟩ => ?_
  · simpa [fuelFor, Strength.test] using hn
  simp only [hbare]
  rw [bind_ok (peek?_eq hc')]
  change Verdict _ ((assigned n n >>= _) c') _
  rw [bind_ok (assigned_newline hc' (by simp at hn; omega))]
  exact verdict_makeSimple (by simp [StmtForm.map, hr.bare]) (by simp [StmtForm.exprs, hr.nested])
    rfl (by simpa [StmtForm.exprs] using hf) hc'

theorem Token.augmented?_assignSign (op : BinaryOp) :
    Token.augmented? (.sign op.assignSign) = some op := by
  cases op <;> rfl

theorem endsList_assignSign (op : BinaryOp) (ts : List Token) :
    EndsList (.sign op.assignSign :: ts) := by
  cases op <;> exact ⟨rfl, nofun, nofun⟩

theorem strength_of_isPlace (h : target.isPlace) : 0 < target.strength := by
  cases target with
  | node info form => cases form <;> first | exact Nat.succ_pos _ | cases h

theorem reads_augAssign {op : BinaryOp} (ht : target.Regular) (hv : value.Regular)
    (hplace : target.isPlace) : ReadsSmall exprStatement (.augAssign target op value) := by
  intro info n c rest hc hn
  rw [StmtForm.tokens_augAssign] at hc hn
  simp only [List.append_assoc, List.cons_append] at hc hn
  rw [exprStatement, bind_ok (start_eq c)]
  refine (verdict_target ht (endsList_assignSign op _) hc ?_).seq
    (fun h => h.expr (by simp [StmtForm.exprs])) fun hft read c' hread => ?_
  · simpa [fuelFor, Strength.test] using hn
  obtain ⟨t', b⟩ := read
  obtain ⟨ht', hbare, hc'⟩ := hread
  obtain rfl : b = false := hbare (strength_of_isPlace hplace)
  have hnext : (if false = true then none
      else (Token.sign op.assignSign :: (value.tokens Strength.test ++ .newline :: rest)).head?
        >>= Token.augmented?) = some op := Token.augmented?_assignSign op
  simp only []
  rw [bind_ok (peek?_eq hc'), hnext]
  simp only []
  rw [bind_ok (advance_eq hc')]
  refine (verdict_exprList (hv.printed.reads (by decide) (by decide)) (endsList_newline rest)
    hc'.next ?_).seq (fun h => h.expr (by simp [StmtForm.exprs])) fun hfv read c'' hread => ?_
  · simp [fuelFor, Strength.test] at hn ⊢
    omega
  obtain ⟨v', _⟩ := read
  obtain ⟨hv', _, hc''⟩ := hread
  simp only []
  rw [Expr.isPlace_of_bare ht'.bare, hplace, if_pos rfl]
  exact verdict_makeSimple (by simp [StmtForm.map, ht'.bare, hv'.bare])
    (by simp [StmtForm.exprs, ht'.nested, hv'.nested]) rfl
    (by simp [StmtForm.exprs, hft, hfv]) hc''

theorem find?_unassignable {targets' : List Expr} (h : List.Forall₂ Mirrors targets targets')
    (ht : ∀ t ∈ targets, t.unassignable? = none) :
    targets'.find? (·.unassignable?.isSome) = none := by
  rw [List.find?_eq_none]
  induction h
  case nil => simp
  case cons hd _ ih =>
    refine List.forall_mem_cons.mpr ⟨?_, ih fun t h => ht t (List.mem_cons_of_mem _ h)⟩
    rw [Expr.unassignable?_eq_none hd.bare (ht _ (by simp))]
    simp

theorem reads_assign (ht : ∀ t ∈ targets, t.Regular) (hv : value.Regular) (hne : targets ≠ [])
    (hassign : ∀ t ∈ targets, t.unassignable? = none) :
    ReadsSmall exprStatement (.assign targets value) := by
  intro info n c rest hc hn
  obtain ⟨t, ts, rfl⟩ := List.exists_cons_of_ne_nil hne
  rw [StmtForm.tokens_assign, chainTokens_cons, List.append_assoc] at hc hn
  rw [exprStatement, bind_ok (start_eq c)]
  refine (verdict_target (ht t (by simp)) (endsList_assigned value ts _) hc ?_).seq
    (fun h => h.expr (by simp [StmtForm.exprs])) fun hft read c' hread => ?_
  · simpa [fuelFor, Strength.test] using hn
  obtain ⟨t', b⟩ := read
  obtain ⟨ht', _, hc'⟩ := hread
  have hnext : (if b = true then none
      else (assignedTokens value ts ++ .newline :: rest).head? >>= Token.augmented?) = none := by
    cases b <;> rfl
  simp only []
  rw [bind_ok (peek?_eq hc'), hnext]
  simp only []
  have hlength := length_lt_assignedTokens value ts
  refine (reads_assigned hv (fun t h => ht t (List.mem_cons_of_mem _ h)) hc' ?_ ?_).seq
    (fun h => ⟨h.expr (by simp [StmtForm.exprs]), fun t h' => h.expr (by simp [StmtForm.exprs, h'])⟩)
    fun hfs es c'' hread => ?_
  · simp at hn ⊢
    omega
  · simp at hn ⊢
    omega
  obtain ⟨targets', value', hes, hts, hval, hc''⟩ := hread
  have hlast : es.getLast? = some value' := by simp [hes]
  have hinit : es.dropLast = targets' := by simp [hes]
  rw [assignment, hlast]
  simp only [hinit]
  have hall : List.Forall₂ Mirrors (t :: ts) (t' :: targets') := .cons ht' hts
  rw [find?_unassignable hall hassign]
  obtain ⟨hbares, hnested⟩ := Mirrors.rows hall
  refine verdict_makeSimple ?_ ?_ rfl ?_ hc''
  · simpa [StmtForm.map, hval.bare] using hbares
  · exact List.forall_mem_cons.mpr ⟨hval.nested, hnested⟩
  · exact List.forall_mem_cons.mpr ⟨hfs.1, List.forall_mem_cons.mpr ⟨hft, hfs.2⟩⟩

end

/-! ### Imports -/

theorem dottedTokens_cons (s : String) (path : List String) :
    dottedTokens (s :: path) = .name s :: path.flatMap fun s => [.sign .dot, .name s] := by
  induction path generalizing s
  case nil => rfl
  case cons t path ih => simp [dottedTokens, ih]

section

variable {n : Nat} {c : Cursor} {rest : List Token}

theorem dottedRest_eq {path : List String}
    (hc : c.Faces (path.flatMap (fun s => [.sign .dot, .name s]) ++ rest)) (hn : path.length < n)
    (hrest : rest.head? ≠ some (.sign .dot)) :
    ∃ c', dottedRest n c = .ok (path, c') ∧ c'.Faces rest := by
  induction path generalizing n c
  case nil =>
    obtain ⟨n, rfl⟩ : ∃ k, n = k + 1 := ⟨n - 1, by omega⟩
    refine ⟨c, ?_, hc⟩
    rw [dottedRest, bind_ok (accept_ne hc hrest), if_neg (by simp)]
    rfl
  case cons s path ih =>
    obtain ⟨n, rfl⟩ : ∃ k, n = k + 1 := ⟨n - 1, by omega⟩
    have ⟨c', hpath, hc'⟩ := ih hc.next.next (Nat.lt_of_succ_lt_succ hn)
    refine ⟨c', ?_, hc'⟩
    rw [dottedRest, bind_ok (accept_eq hc), if_pos rfl, bind_ok (identifier_eq hc.next),
      bind_ok hpath]
    rfl

theorem dottedName_eq {path : List String} (hne : path ≠ [])
    (hc : c.Faces (dottedTokens path ++ rest)) (hn : path.length ≤ n)
    (hrest : rest.head? ≠ some (.sign .dot)) :
    ∃ c', dottedName n c = .ok (path, c') ∧ c'.Faces rest := by
  obtain ⟨s, path, rfl⟩ := List.exists_cons_of_ne_nil hne
  rw [dottedTokens_cons, List.cons_append] at hc
  have ⟨c', hpath, hc'⟩ := dottedRest_eq hc.next hn hrest
  refine ⟨c', ?_, hc'⟩
  rw [dottedName, bind_ok (identifier_eq hc), bind_ok hpath]
  rfl

theorem length_dottedTokens (path : List String) : path.length ≤ (dottedTokens path).length := by
  cases path
  case nil => exact Nat.zero_le _
  case cons s path =>
    rw [dottedTokens_cons, List.length_cons, List.length_cons, List.length_flatMap]
    have : path.length ≤ (path.map fun s => [Token.sign .dot, .name s].length).sum := by
      induction path <;> simp_all
      omega
    omega

-- Tokens behind which the name of a module is over.
structure EndsAlias (ts : List Token) : Prop where
  noDot : ts.head? ≠ some (.sign .dot)
  noAs : ts.head? ≠ some (.word .as_)

theorem reads_alias {a : Alias} (ha : a.Regular) :
    ReadsItem alias_ Alias.tokens (fun _ => True) (· = ·) 0 EndsAlias a := by
  intro n c rest hc hn hrest
  have hlength := length_dottedTokens a.path
  obtain ⟨path, asname⟩ := a
  simp only [Alias.tokens_eq, List.append_assoc] at hc hn
  cases asname
  case none =>
    have ⟨c', hpath, hc'⟩ := dottedName_eq (n := n) ha hc (by simp at hn hlength ⊢; omega)
      hrest.noDot
    rw [alias_, bind_ok hpath, bind_ok (accept_ne hc' hrest.noAs), if_neg (by simp)]
    exact .pure trivial ⟨rfl, hc'⟩
  case some s =>
    have ⟨c', hpath, hc'⟩ := dottedName_eq (n := n) ha hc (by simp at hn hlength ⊢; omega) nofun
    rw [alias_, bind_ok hpath, bind_ok (accept_eq hc'), if_pos rfl, bind_ok (identifier_eq hc'.next)]
    exact .pure trivial ⟨rfl, hc'.next.next⟩

theorem isRow_aliases : IsRow (fun _ => true) aliases alias_ where
  cons _ _ := by rw [aliases]

theorem reads_aliases {names : List Alias} (hne : names ≠ []) (h : ∀ a ∈ names, a.Regular)
    (hc : c.Faces (commaed (names.map Alias.tokens) ++ .newline :: rest))
    (hn : 32 * (commaed (names.map Alias.tokens) ++ .newline :: rest).length < n) :
    ∃ c', aliases n c = .ok (names, c') ∧ c'.Faces (.newline :: rest) := by
  obtain ⟨a, as, rfl⟩ := List.exists_cons_of_ne_nil hne
  have hstarts (d : Alias) (hd : d ∈ a :: as) (ts : List Token) :
      startsWith (fun _ => true) (d.tokens ++ ts) := by
    obtain ⟨s, path, hp⟩ := List.exists_cons_of_ne_nil (h d hd)
    rw [Alias.tokens_eq, hp, dottedTokens_cons]
    rfl
  have hend : EndsRow EndsAlias (.newline :: rest) := ⟨⟨nofun, nofun⟩, nofun⟩
  have hread := isRow_aliases.reads hstarts (fun d hd => reads_alias (h d hd)) hend
    (fun _ => ⟨nofun, nofun⟩) hc hn
  match hp : aliases n c, hread with
  | .ok (as', c'), ⟨_, has, hc'⟩ => exact ⟨c', by rw [List.forall₂_eq_eq_eq] at has; rw [has], hc'⟩
  | .error _, hf => exact absurd (fun _ _ => trivial) hf

end

/-! ### Simple statements -/

theorem startsExpression_eq {c : Cursor} {ts : List Token} (hc : c.Faces ts) :
    Parser.startsExpression c = .ok (startsWith Token.startsExpression ts, c) := by
  rw [Parser.startsExpression, bind_ok (peek?_eq hc)]
  rfl

-- What starts like an expression is left to the rule for those.
theorem small_eq {n : Nat} {c : Cursor} {ts : List Token} (hc : c.Faces ts) (ho : Opens 0 ts) :
    small n c = exprStatement n c := by
  obtain ⟨t, us, rfl, ht⟩ := ho
  rw [small, bind_ok (start_eq c), bind_ok (peek?_eq hc), List.head?_cons]
  cases t
  case word k => cases k <;> first | rfl | cases ht
  all_goals rfl

section

variable {info : NodeInfo}

theorem ReadsSmall.of_exprStatement {form : StmtForm Stmt} (h : ReadsSmall exprStatement form)
    (ho : Opens 0 form.tokens) : ReadsSmall small form := by
  intro info n c rest hc hn
  rw [small_eq hc (ho.append _)]
  exact h info n c rest hc hn

-- Statements that are one word.
theorem reads_word {form : StmtForm Stmt} {k : Keyword} (htokens : form.tokens = [.word k])
    (hexprs : form.exprs = []) (hstmts : form.stmts = [])
    (hsmall : ∀ n c ts, c.Faces (.word k :: ts) → small n c = makeSimple form c.start c.next) :
    ReadsSmall small form := by
  intro info n c rest hc hn
  rw [htokens] at hc
  rw [hsmall n c _ hc]
  exact verdict_makeSimple rfl (by simp [hexprs]) hstmts (by simp [hexprs]) hc.next

theorem reads_ret {value : Option Expr} (hv : ∀ e ∈ value, e.Regular) :
    ReadsSmall small (.ret value) := by
  intro info n c rest hc hn
  rw [StmtForm.tokens_ret, List.cons_append] at hc hn
  rw [small, bind_ok (start_eq c), bind_ok (peek?_eq hc)]
  change Verdict _ ((advance >>= _) c) _
  rw [bind_ok (advance_eq hc), bind_ok (startsExpression_eq hc.next)]
  cases value
  case none => exact verdict_makeSimple rfl (by simp [StmtForm.exprs]) rfl (by simp [StmtForm.exprs]) hc.next
  case some e =>
    have he := hv e rfl
    simp only [Option.map_some, Option.getD_some] at hc hn ⊢
    rw [if_pos ((e.opens_tokens Strength.test (by decide)).startsWith _)]
    refine (verdict_exprList (he.printed.reads (by decide) (by decide)) (endsList_newline rest)
      hc.next ?_).seq (fun h => h.expr (by simp [StmtForm.exprs])) fun hf read c' hread => ?_
    · simp [fuelFor, Strength.test] at hn ⊢
      omega
    obtain ⟨e', _⟩ := read
    obtain ⟨he', _, hc'⟩ := hread
    exact verdict_makeSimple (by simp [StmtForm.map, he'.bare])
      (by simp [StmtForm.exprs, he'.nested]) rfl (by simpa [StmtForm.exprs] using hf) hc'

theorem reads_raise {exc : Option Expr} (hv : ∀ e ∈ exc, e.Regular) :
    ReadsSmall small (.raise exc) := by
  intro info n c rest hc hn
  rw [StmtForm.tokens_raise, List.cons_append] at hc hn
  rw [small, bind_ok (start_eq c), bind_ok (peek?_eq hc)]
  change Verdict _ ((advance >>= _) c) _
  rw [bind_ok (advance_eq hc), bind_ok (startsExpression_eq hc.next)]
  cases exc
  case none => exact verdict_makeSimple rfl (by simp [StmtForm.exprs]) rfl (by simp [StmtForm.exprs]) hc.next
  case some e =>
    have he := hv e rfl
    simp only [Option.map_some, Option.getD_some] at hc hn ⊢
    rw [if_pos ((e.opens_tokens Strength.test (by decide)).startsWith _)]
    refine (he.printed.reads (by decide) (by decide) n c.next _ hc.next ?_ (Nat.zero_lt_succ _)).seq
      (fun h => h.expr (by simp [StmtForm.exprs])) fun hf e' c' he' => ?_
    · simp [fuelFor, Strength.test] at hn ⊢
      omega
    exact verdict_makeSimple (by simp [StmtForm.map, he'.bare])
      (by simp [StmtForm.exprs, he'.nested]) rfl (by simpa [StmtForm.exprs] using hf) he'.faces

theorem reads_imports {names : List Alias} (hne : names ≠ []) (h : ∀ a ∈ names, a.Regular) :
    ReadsSmall small (.imports names) := by
  intro info n c rest hc hn
  rw [StmtForm.tokens_imports] at hc hn
  have ⟨c', hnames, hc'⟩ := reads_aliases (n := n) hne h hc.next (by simp at hn ⊢; omega)
  rw [small, bind_ok (start_eq c), bind_ok (peek?_eq hc)]
  change Verdict _ ((advance >>= _) c) _
  rw [bind_ok (advance_eq hc), bind_ok hnames]
  exact verdict_makeSimple rfl (by simp [StmtForm.exprs]) rfl (by simp [StmtForm.exprs]) hc'

theorem reads_importFrom {path : List String} {names : List Alias} (hpath : path ≠ [])
    (hne : names ≠ []) (h : ∀ a ∈ names, a.Regular) :
    ReadsSmall small (.importFrom path names) := by
  intro info n c rest hc hn
  rw [StmtForm.tokens_importFrom] at hc hn
  simp only [List.cons_append, List.append_assoc] at hc hn
  have hlength := length_dottedTokens path
  have ⟨c₁, hp, hc₁⟩ := dottedName_eq (n := n) hpath hc.next (by simp at hn ⊢; omega) nofun
  have ⟨c₂, hnames, hc₂⟩ := reads_aliases (n := n) hne h hc₁.next (by simp at hn ⊢; omega)
  rw [small, bind_ok (start_eq c), bind_ok (peek?_eq hc)]
  change Verdict _ ((advance >>= _) c) _
  rw [bind_ok (advance_eq hc), bind_ok hp, word, bind_ok (expect_eq hc₁), bind_ok hnames]
  exact verdict_makeSimple rfl (by simp [StmtForm.exprs]) rfl (by simp [StmtForm.exprs]) hc₂

end

def StmtForm.isSimple : StmtForm Stmt → Bool
  | .ifElse .. | .whileLoop .. | .forEach .. | .define .. => false
  | _ => true

theorem reads_small {form : StmtForm Stmt} (hform : form.Regular)
    (hexprs : ∀ e ∈ form.exprs, e.Regular) (hs : form.isSimple) : ReadsSmall small form := by
  have one {k : Keyword} {n : Nat} {c : Cursor} {ts : List Token} (hc : c.Faces (.word k :: ts)) :
      peek? c = .ok (some (.word k), c) := peek?_eq hc
  cases form
  case expr e =>
    exact .of_exprStatement (reads_expr (hexprs e (by simp [StmtForm.exprs])))
      ((e.opens_tokens Strength.test (by decide)).mono (by decide))
  case assign targets value =>
    refine .of_exprStatement (reads_assign (fun t ht => hexprs t (List.mem_cons_of_mem _ ht))
      (hexprs value (List.mem_cons_self ..)) hform.1 hform.2) ?_
    obtain ⟨t, ts, rfl⟩ := List.exists_cons_of_ne_nil hform.1
    rw [StmtForm.tokens_assign, chainTokens_cons]
    exact (t.opens_tokens Strength.tuple (by decide)).append _
  case augAssign target op value =>
    refine .of_exprStatement (reads_augAssign (hexprs target (by simp [StmtForm.exprs]))
      (hexprs value (by simp [StmtForm.exprs])) hform) ?_
    rw [StmtForm.tokens_augAssign]
    exact (target.opens_tokens Strength.tuple (by decide)).append _
  case ret value => exact reads_ret fun e he => hexprs e (by simpa [StmtForm.exprs] using he)
  case raise exc => exact reads_raise fun e he => hexprs e (by simpa [StmtForm.exprs] using he)
  case imports names => exact reads_imports hform.1 hform.2
  case importFrom path names => exact reads_importFrom hform.1 hform.2.1 hform.2.2
  case pass | breakLoop | continueLoop =>
    refine reads_word rfl rfl rfl fun n c ts hc => ?_
    rw [small, bind_ok (start_eq c), bind_ok (peek?_eq hc)]
    change (advance >>= _) c = _
    rw [bind_ok (advance_eq hc)]
  all_goals cases hs

-- One simple statement and the end of its line.
theorem verdict_simple {info : NodeInfo} {form : StmtForm Stmt} (h : ReadsSmall small form)
    {n : Nat} {c : Cursor} {rest : List Token} (hc : c.Faces (form.tokens ++ .newline :: rest))
    (hn : 32 * (form.tokens ++ .newline :: rest).length + 23 ≤ n) :
    Verdict (Stmt.node info form).Fits (simple n c)
      fun ss c' => ∃ s', ss = [s'] ∧ StmtReading (.node info form) rest s' c' := by
  obtain ⟨m, rfl⟩ : ∃ k, n = k + 1 := ⟨n - 1, by omega⟩
  have hsmalls : Verdict (Stmt.node info form).Fits (smalls (m + 1) (m + 1) c)
      fun ss c' => ∃ s', ss = [s'] ∧ StmtReading (.node info form) (.newline :: rest) s' c' := by
    rw [smalls]
    refine (h info (m + 1) c rest hc hn).seq id fun hf s' c' hs' => ?_
    rw [bind_ok (accept_ne hs'.faces (by simp)), if_neg (by simp)]
    exact .pure hf ⟨s', rfl, hs'⟩
  rw [simple]
  refine hsmalls.seq id fun hf ss c' ⟨s', hss, hs'⟩ => ?_
  rw [bind_ok (expect_eq hs'.faces)]
  exact .pure hf ⟨s', hss, hs'.toStmtMirrors, hs'.faces.next⟩

end NoteCell
