import NoteCell.Proofs.Parsing.PrintedSimple

/-!
Printed statements are read back. A compound statement is read when the statements of its blocks
are; the branches of a conditional are read together, as the rule for it collects them before it
builds the chain.
-/
namespace NoteCell

open NoteCell.Parser

/-! ### Where statements start and end -/

-- No branch of a conditional follows.
structure EndsStmt (ts : List Token) : Prop where
  noElif : ts.head? ≠ some (.word .elif_)
  noElse : ts.head? ≠ some (.word .else_)

theorem Opens.startsStatement {k : Nat} {ts : List Token} (h : Opens k ts) :
    ∃ t us, ts = t :: us ∧ t.startsStatement := by
  have ⟨t, us, hts, ht⟩ := h
  refine ⟨t, us, hts, ?_⟩
  unfold Token.opens at ht
  split at ht
  case h_5 =>
    cases t with
    | word k => cases k <;> first | rfl | exact ht
    | _ => exact ht
  all_goals rfl

theorem StmtForm.startsStatement_tokens {form : StmtForm Stmt} (h : form.Regular) :
    ∃ t us, form.tokens = t :: us ∧ t.startsStatement := by
  cases form
  case expr e => exact (e.opens_tokens Strength.test (by decide)).startsStatement
  case assign targets value =>
    obtain ⟨t, ts, rfl⟩ := List.exists_cons_of_ne_nil h.1
    rw [tokens_assign, chainTokens_cons]
    exact ((t.opens_tokens Strength.tuple (by decide)).append _).startsStatement
  case augAssign target op value =>
    rw [tokens_augAssign]
    exact ((target.opens_tokens Strength.tuple (by decide)).append _).startsStatement
  case define name params body isAsync => cases isAsync <;> exact ⟨_, _, rfl, rfl⟩
  all_goals exact ⟨_, _, rfl, rfl⟩

theorem Stmt.startsStatement_tokens {s : Stmt} (h : s.Regular) (ts : List Token) :
    ∃ t us, s.tokens ++ ts = t :: us ∧ t.startsStatement := by
  cases s with
  | node info form =>
    have ⟨t, us, hts, ht⟩ := form.startsStatement_tokens h.root.1
    exact ⟨t, us ++ form.restTokens ++ ts, by rw [tokens, hts]; simp, ht⟩

theorem endsStmt_tokens {s : Stmt} (h : s.Regular) (ts : List Token) :
    EndsStmt (s.tokens ++ ts) := by
  have ⟨t, us, hts, ht⟩ := s.startsStatement_tokens h ts
  rw [hts]
  constructor <;> (rintro heq; cases heq; cases ht)

-- A statement is read before whatever may follow it.
def ReadsStmt (s : Stmt) : Prop :=
  ∀ n c rest, c.Faces (s.tokens ++ rest) → 32 * (s.tokens ++ rest).length + 26 ≤ n →
    EndsStmt rest →
    Verdict s.Fits (statement n c) fun ss c' => ∃ s', ss = [s'] ∧ StmtReading s rest s' c'

/-! ### Blocks -/

section

variable {body : List Stmt} {n : Nat} {c : Cursor} {rest : List Token}

theorem reads_block (hne : body ≠ []) (hreg : ∀ s ∈ body, s.Regular)
    (h : ∀ s ∈ body, ReadsStmt s) (hc : c.Faces (Stmt.rowTokens body ++ .dedent :: rest))
    (hn : 32 * (Stmt.rowTokens body ++ .dedent :: rest).length + 26 < n) :
    Verdict (∀ s ∈ body, s.Fits) (block n c)
      fun ss c' => List.Forall₂ StmtMirrors body ss ∧ c'.Faces rest := by
  induction body generalizing n c
  case nil => exact absurd rfl hne
  case cons s body ih =>
    obtain ⟨n, rfl⟩ : ∃ k, n = k + 1 := ⟨n - 1, by omega⟩
    rw [Stmt.rowTokens, List.append_assoc] at hc hn
    rw [block]
    cases body
    case nil =>
      refine (h s (by simp) n c _ hc (Nat.le_of_lt_succ hn) ⟨nofun, nofun⟩).seq
        (fun hf => hf s (by simp)) fun hf ss c' ⟨s', hss, hs'⟩ => ?_
      rw [bind_ok (accept_eq hs'.faces), if_pos rfl, hss]
      exact .pure (by simpa using hf) ⟨.cons hs'.toStmtMirrors .nil, hs'.faces.next⟩
    case cons d body =>
      have hd : EndsStmt (Stmt.rowTokens (d :: body) ++ .dedent :: rest) := by
        rw [Stmt.rowTokens, List.append_assoc]
        exact endsStmt_tokens (hreg d (by simp)) _
      refine (h s (by simp) n c _ hc (Nat.le_of_lt_succ hn) hd).seq
        (fun hf => hf s (by simp)) fun hf ss c' ⟨s', hss, hs'⟩ => ?_
      have hdedent : (Stmt.rowTokens (d :: body) ++ .dedent :: rest).head? ≠ some .dedent := by
        rw [Stmt.rowTokens, List.append_assoc]
        have ⟨t, us, hts, ht⟩ := d.startsStatement_tokens (hreg d (by simp))
          (Stmt.rowTokens body ++ .dedent :: rest)
        rw [hts]
        rintro heq
        cases heq
        cases ht
      have ⟨t, us, hts, _⟩ := s.startsStatement_tokens (hreg s (by simp)) []
      have hpos : 0 < s.tokens.length := by
        rw [List.append_nil] at hts
        simp [hts]
      rw [bind_ok (accept_ne hs'.faces hdedent), if_neg (by simp), hss]
      refine (ih (List.cons_ne_nil d body) (fun x hx => hreg x (List.mem_cons_of_mem _ hx))
        (fun x hx => h x (List.mem_cons_of_mem _ hx)) hs'.faces ?_).seq
        (fun hf x hx => hf x (List.mem_cons_of_mem _ hx)) fun hfs ss' c'' ⟨hss', hc''⟩ => ?_
      · simp only [List.length_append] at hn ⊢
        omega
      exact .pure (List.forall_mem_cons.mpr ⟨hf, hfs⟩) ⟨.cons hs'.toStmtMirrors hss', hc''⟩

theorem reads_suite (hne : body ≠ []) (hreg : ∀ s ∈ body, s.Regular)
    (h : ∀ s ∈ body, ReadsStmt s)
    (hc : c.Faces (blockTokens (Stmt.rowTokens body) ++ rest))
    (hn : 32 * (blockTokens (Stmt.rowTokens body) ++ rest).length ≤ n) :
    Verdict (∀ s ∈ body, s.Fits) (suite n c)
      fun ss c' => List.Forall₂ StmtMirrors body ss ∧ c'.Faces rest := by
  simp only [blockTokens, List.cons_append, List.append_assoc, List.nil_append] at hc hn
  obtain ⟨n, rfl⟩ : ∃ k, n = k + 1 := ⟨n - 1, by simp at hn; omega⟩
  have hopen : openBlock c.next = .ok ((), c.next.next) := by
    rw [openBlock, bind_ok (accept_eq hc.next)]
    rfl
  rw [suite, bind_ok (accept_eq hc), if_pos rfl, bind_ok hopen]
  exact reads_block hne hreg h hc.next.next (by simp at hn ⊢; omega)

end

/-! ### Conditionals -/

-- The branches behind the first one.
def Parser.elsePart (m n : Nat) : Parser (List Stmt) := do
  let cs ← clauses m
  if ← accept (.word .else_) then
    sign .colon
    let orelse ← suite n
    chainClauses endsCompound orelse cs
  else chainClauses endsCompound [] cs

theorem ite_bind {α β : Type} (b : Bool) (p q : Parser α) (k : α → Parser β) :
    (if b then p else q) >>= k = if b then p >>= k else q >>= k := by
  cases b <;> rfl

theorem conditional_eq (n : Nat) :
    conditional (n + 1) = (do
      let at_ ← start
      word .if_
      let test ← expression n
      sign .colon
      let body ← suite n
      let rest ← elsePart n n
      makeCompound (.ifElse test body rest) at_) := by
  rw [conditional]
  simp only [elsePart, bind_assoc, ite_bind, pure_bind]

theorem elsePart_elif {m n : Nat} {c : Cursor} {ts : List Token}
    (hc : c.Faces (.word .elif_ :: ts)) :
    elsePart (m + 1) n c = (do
      let test ← expression m
      sign .colon
      let body ← suite m
      let stop ← stop
      let rest ← elsePart m n
      return [← makeStmtBefore endsCompound (.ifElse test body rest) (.between c.start stop)])
        c.next := by
  rw [elsePart, clauses]
  simp only [bind_assoc]
  rw [bind_ok (start_eq c), bind_ok (accept_eq hc), if_pos rfl]
  simp only [elsePart, bind_assoc, pure_bind, ite_bind, chainClauses]

-- The branches behind the first one are read as the statements they stand for.
def ReadsElse (orelse : List Stmt) : Prop :=
  ∀ m n c rest, c.Faces (Stmt.elseTokens orelse ++ rest) →
    32 * (Stmt.elseTokens orelse ++ rest).length + 25 ≤ m → m ≤ n → EndsStmt rest →
    Verdict (∀ s ∈ orelse, s.Fits) (elsePart m n c)
      fun ss c' => List.Forall₂ StmtMirrors orelse ss ∧ c'.Faces rest

theorem clauses_eq {n : Nat} {c : Cursor} {ts : List Token} (hc : c.Faces ts) (hn : 0 < n)
    (hts : ts.head? ≠ some (.word .elif_)) : clauses n c = .ok ([], c) := by
  obtain ⟨n, rfl⟩ : ∃ k, n = k + 1 := ⟨n - 1, by omega⟩
  rw [clauses, bind_ok (start_eq c), bind_ok (accept_ne hc hts), if_neg (by simp)]
  rfl

theorem readsElse_nil : ReadsElse [] := by
  intro m n c rest hc hm hn hrest
  change c.Faces rest at hc
  rw [elsePart, bind_ok (clauses_eq hc (by omega) hrest.noElif),
    bind_ok (accept_ne hc hrest.noElse), if_neg (by simp)]
  exact .pure (by simp) ⟨.nil, hc⟩

-- A block behind `else`.
theorem readsElse_block {orelse : List Stmt} (hne : orelse ≠ [])
    (htokens : Stmt.elseTokens orelse
      = .word .else_ :: .sign .colon :: blockTokens (Stmt.rowTokens orelse))
    (hreg : ∀ s ∈ orelse, s.Regular) (h : ∀ s ∈ orelse, ReadsStmt s) : ReadsElse orelse := by
  intro m n c rest hc hm hn hrest
  rw [htokens] at hc hm
  rw [elsePart, bind_ok (clauses_eq hc (by omega) nofun), bind_ok (accept_eq hc), if_pos rfl, sign,
    bind_ok (expect_eq hc.next)]
  refine (reads_suite hne hreg h hc.next.next (by simp at hm ⊢; omega)).seq id
    fun hf ss c' hss => ?_
  exact .pure hf hss

section

variable {info : NodeInfo} {condition : Expr} {body orelse : List Stmt}

-- What the parts of a conditional have to be like.
structure ReadsBranches (condition : Expr) (body orelse : List Stmt) : Prop where
  regular : condition.Regular
  body_ne : body ≠ []
  body_regular : ∀ s ∈ body, s.Regular
  reads_body : ∀ s ∈ body, ReadsStmt s
  reads_orelse : ReadsElse orelse

theorem verdict_ifElse (follows : Option Token → Bool) (location : Location) {condition' : Expr}
    {body' orelse' : List Stmt} {c : Cursor} {rest : List Token} (ht : Mirrors condition condition')
    (hb : List.Forall₂ StmtMirrors body body') (ho : List.Forall₂ StmtMirrors orelse orelse')
    (hft : condition.Fits) (hfb : ∀ s ∈ body, s.Fits) (hfo : ∀ s ∈ orelse, s.Fits)
    (hc : c.Faces rest) :
    Verdict (Stmt.node info (.ifElse condition body orelse)).Fits
      (makeStmtBefore follows (.ifElse condition' body' orelse') location c)
      (StmtReading (.node info (.ifElse condition body orelse)) rest) := by
  have ⟨hbb, hbn⟩ := StmtMirrors.rows hb
  have ⟨hob, hon⟩ := StmtMirrors.rows ho
  refine verdict_makeStmtBefore (by simp [StmtForm.map, ht.bare, hbb, hob])
    (by simp [StmtForm.exprs, ht.nested]) ?_ (by simpa [StmtForm.exprs] using hft) ?_ hc
  · exact List.forall_mem_append.mpr ⟨hbn, hon⟩
  · exact List.forall_mem_append.mpr ⟨hfb, hfo⟩

theorem ReadsBranches.elif (h : ReadsBranches condition body orelse) :
    ReadsElse [.node info (.ifElse condition body orelse)] := by
  intro m n c rest hc hm hn hrest
  simp only [Stmt.elseTokens, tokensOf_headWords, List.cons_append, List.append_assoc,
    List.nil_append] at hc hm
  obtain ⟨m, rfl⟩ : ∃ k, m = k + 1 := ⟨m - 1, by omega⟩
  have hfits (hf : ∀ s ∈ [Stmt.node info (.ifElse condition body orelse)], s.Fits) :=
    hf _ (List.mem_singleton.mpr rfl)
  rw [elsePart_elif hc]
  refine (h.regular.printed.reads (by decide) (by decide) m c.next _ hc.next ?_
    (Nat.zero_lt_succ _)).seq (fun hf => (hfits hf).expr (by simp [StmtForm.exprs]))
    fun hft t' c₁ ht' => ?_
  · simp [fuelFor, Strength.test] at hm ⊢
    omega
  rw [sign, bind_ok (expect_eq ht'.faces)]
  refine (reads_suite h.body_ne h.body_regular h.reads_body ht'.faces.next (by simp at hm ⊢; omega)).seq
    (fun hf s hs => (hfits hf).stmt (List.mem_append_left _ hs)) fun hfb body' c₂ hread => ?_
  obtain ⟨hb', hc₂⟩ := hread
  rw [bind_ok (stop_eq c₂)]
  refine (h.reads_orelse m n c₂ rest hc₂ (by simp at hm ⊢; omega) (Nat.le_of_succ_le hn) hrest).seq
    (fun hf s hs => (hfits hf).stmt (List.mem_append_right _ hs))
    fun hfo orelse' c₃ hread => ?_
  obtain ⟨ho', hc₃⟩ := hread
  refine (verdict_ifElse endsCompound _ ht'.toMirrors hb' ho' hft hfb hfo hc₃).seq hfits
    fun hf s' c₄ hs' => ?_
  exact .pure (by simpa using hf) ⟨.cons hs'.toStmtMirrors .nil, hs'.faces⟩

theorem ReadsBranches.stmt (h : ReadsBranches condition body orelse) :
    ReadsStmt (.node info (.ifElse condition body orelse)) := by
  intro n c rest hc hn hrest
  simp only [Stmt.tokens, StmtForm.tokens_ifElse, StmtForm.restTokens, List.cons_append,
    List.append_assoc, List.nil_append] at hc hn
  obtain ⟨n, rfl⟩ : ∃ k, n = k + 1 + 1 := ⟨n - 2, by omega⟩
  rw [statement, bind_ok (peek?_eq hc)]
  change Verdict _ ((conditional (n + 1) >>= _) c) _
  suffices hif : Verdict (Stmt.node info (.ifElse condition body orelse)).Fits
      (conditional (n + 1) c) (StmtReading (.node info (.ifElse condition body orelse)) rest) from
    hif.seq id fun hf s' c' hs' => .pure hf ⟨s', rfl, hs'⟩
  rw [conditional_eq, bind_ok (start_eq c), word, bind_ok (expect_eq hc)]
  refine (h.regular.printed.reads (by decide) (by decide) n c.next _ hc.next ?_
    (Nat.zero_lt_succ _)).seq (fun hf => hf.expr (by simp [StmtForm.exprs]))
    fun hft t' c₁ ht' => ?_
  · simp [fuelFor, Strength.test] at hn ⊢
    omega
  rw [sign, bind_ok (expect_eq ht'.faces)]
  refine (reads_suite h.body_ne h.body_regular h.reads_body ht'.faces.next (by simp at hn ⊢; omega)).seq
    (fun hf s hs => hf.stmt (List.mem_append_left _ hs)) fun hfb body' c₂ hread => ?_
  obtain ⟨hb', hc₂⟩ := hread
  refine (h.reads_orelse n n c₂ rest hc₂ (by simp at hn ⊢; omega) (Nat.le_refl n) hrest).seq
    (fun hf s hs => hf.stmt (List.mem_append_right _ hs)) fun hfo orelse' c₃ hread => ?_
  obtain ⟨ho', hc₃⟩ := hread
  exact verdict_ifElse endsCompound _ ht'.toMirrors hb' ho' hft hfb hfo hc₃

end

/-! ### Loops -/

section

variable {info : NodeInfo} {condition target iter : Expr} {body : List Stmt}

theorem reads_whileLoop (hcond : condition.Regular) (hne : body ≠ [])
    (hreg : ∀ s ∈ body, s.Regular) (h : ∀ s ∈ body, ReadsStmt s) :
    ReadsStmt (.node info (.whileLoop condition body)) := by
  intro n c rest hc hn hrest
  simp only [Stmt.tokens, StmtForm.tokens_whileLoop, StmtForm.restTokens, List.cons_append,
    List.append_assoc, List.nil_append] at hc hn
  obtain ⟨n, rfl⟩ : ∃ k, n = k + 1 + 1 := ⟨n - 2, by omega⟩
  rw [statement, bind_ok (peek?_eq hc)]
  change Verdict _ ((whileLoop (n + 1) >>= _) c) _
  suffices hwhile : Verdict (Stmt.node info (.whileLoop condition body)).Fits
      (whileLoop (n + 1) c) (StmtReading (.node info (.whileLoop condition body)) rest) from
    hwhile.seq id fun hf s' c' hs' => .pure hf ⟨s', rfl, hs'⟩
  rw [whileLoop, bind_ok (start_eq c), word, bind_ok (expect_eq hc)]
  refine (hcond.printed.reads (by decide) (by decide) n c.next _ hc.next ?_
    (Nat.zero_lt_succ _)).seq (fun hf => hf.expr (by simp [StmtForm.exprs]))
    fun hft t' c₁ ht' => ?_
  · simp [fuelFor, Strength.test] at hn ⊢
    omega
  rw [sign, bind_ok (expect_eq ht'.faces)]
  refine (reads_suite hne hreg h ht'.faces.next (by simp at hn ⊢; omega)).seq
    (fun hf s hs => hf.stmt hs) fun hfb body' c₂ hread => ?_
  obtain ⟨hb', hc₂⟩ := hread
  obtain ⟨hbb, hbn⟩ := StmtMirrors.rows hb'
  rw [makeCompound, bind_ok (stop_eq c₂)]
  exact verdict_makeStmtBefore (by simp [StmtForm.map, ht'.bare, hbb])
    (by simp [StmtForm.exprs, ht'.nested]) hbn (by simpa [StmtForm.exprs] using hft) hfb hc₂

theorem isRow_targetNames : IsRow (fun _ => true) targetNames fun _ => targetName where
  cons _ _ := by rw [targetNames]

theorem tokens_of_isName {e : Expr} (h : e.IsName) {k : Nat} (hk : k ≤ Strength.atom) :
    ∃ s, e.form = .name s ∧ e.tokens k = [.name s] := by
  obtain ⟨info, form⟩ := e
  obtain ⟨s, rfl⟩ := h
  refine ⟨s, rfl, ?_⟩
  rw [Expr.tokens_node]
  exact if_neg (Nat.not_lt.mpr hk)

theorem reads_targetName {e : Expr} (he : e.IsName) :
    ReadsItem (fun _ => targetName) (Expr.tokens Strength.test) Expr.Fits Mirrors 0
      (fun _ => True) e := by
  intro n c rest hc hn _
  have ⟨s, hs, htokens⟩ := tokens_of_isName he (k := Strength.test) (by decide)
  rw [htokens] at hc
  obtain ⟨info, form⟩ := e
  obtain rfl : form = .name s := hs
  change Verdict _ (targetName c) _
  rw [targetName, bind_ok (start_eq c), bind_ok (identifier_eq hc)]
  have hmake : Verdict (Expr.node info (.name s)).Fits
      (makeExprBefore (fun t => t = some (.word .in_) || t = some (.sign .comma)) (.name s)
        c.start c.next) (Reading (.node info (.name s)) rest) :=
    verdict_makeExprBefore rfl (by simp [ExprForm.children]) hc.next
  exact hmake.imp fun _ e' c' he' => ⟨he'.toMirrors, he'.faces⟩

theorem verdict_targetNames {items : List Expr} (hne : items ≠ []) (h : ∀ e ∈ items, e.IsName)
    {n : Nat} {c : Cursor} {rest : List Token}
    (hc : c.Faces (commaed (items.map (Expr.tokens Strength.test)) ++ .word .in_ :: rest))
    (hn : 32 * (commaed (items.map (Expr.tokens Strength.test)) ++ .word .in_ :: rest).length < n) :
    Verdict (∀ e ∈ items, e.Fits) (targetNames n c)
      fun es c' => List.Forall₂ Mirrors items es ∧ c'.Faces (.word .in_ :: rest) := by
  obtain ⟨e, es, rfl⟩ := List.exists_cons_of_ne_nil hne
  refine isRow_targetNames.reads (fun d hd ts => ?_) (fun d hd => reads_targetName (h d hd))
    ⟨trivial, by simp⟩ (fun _ => trivial) hc hn
  have ⟨s, _, htokens⟩ := tokens_of_isName (h d hd) (k := Strength.test) (by decide)
  rw [htokens]
  rfl

theorem verdict_loopTarget (ht : target.IsLoopTarget) {n : Nat} {c : Cursor} {rest : List Token}
    (hc : c.Faces (target.tokens Strength.tuple ++ .word .in_ :: rest))
    (hn : 32 * (target.tokens Strength.tuple ++ .word .in_ :: rest).length < n) :
    Verdict target.Fits (loopTarget n c) (Reading target (.word .in_ :: rest)) := by
  rw [loopTarget, bind_ok (start_eq c)]
  obtain hname | ⟨a, b, items, hform, hnames⟩ := ht
  case inl =>
    obtain ⟨s, _, htuple⟩ := tokens_of_isName hname (k := Strength.tuple) (by decide)
    obtain ⟨s', _, htest⟩ := tokens_of_isName hname (k := Strength.test) (by decide)
    have hrow : target.tokens Strength.tuple
        = commaed ([target].map (Expr.tokens Strength.test)) := by
      obtain ⟨info, form⟩ := target
      simp_all [commaed]
    rw [hrow] at hc hn
    refine (verdict_targetNames (List.cons_ne_nil target []) (by simpa using hname) hc hn).seq
      (by simp) fun hf es c' hread => ?_
    obtain ⟨hes, hc'⟩ := hread
    cases hes with
    | cons he' hnil =>
      cases hnil
      exact .pure (by simpa using hf) ⟨he', hc'⟩
  case inr =>
    obtain ⟨info, form⟩ := target
    obtain rfl : form = .tuple (a :: b :: items) := hform
    have hrow : tupleTokens ((a :: b :: items).map (Expr.tokens Strength.test))
        = commaed ((a :: b :: items).map (Expr.tokens Strength.test)) := rfl
    rw [Expr.tokens_loosest, ExprForm.tokens_tuple (List.cons_ne_nil _ _), hrow] at hc hn
    refine (verdict_targetNames (List.cons_ne_nil _ _) hnames hc hn).seq
      (fun hf e he => hf.child he) fun hf es c' hread => ?_
    obtain ⟨hes, hc'⟩ := hread
    have hall := Mirrors.rows hes
    obtain _ | ⟨-, _ | ⟨-, -⟩⟩ := hes
    exact verdict_makeExprBefore (by simpa [ExprForm.map] using hall.1) hall.2 hc'

theorem reads_forEach (ht : target.IsLoopTarget) (hiter : iter.Regular) (hne : body ≠ [])
    (hreg : ∀ s ∈ body, s.Regular) (h : ∀ s ∈ body, ReadsStmt s) :
    ReadsStmt (.node info (.forEach target iter body)) := by
  intro n c rest hc hn hrest
  simp only [Stmt.tokens, StmtForm.tokens_forEach, StmtForm.restTokens, List.cons_append,
    List.append_assoc, List.nil_append] at hc hn
  obtain ⟨n, rfl⟩ : ∃ k, n = k + 1 + 1 := ⟨n - 2, by omega⟩
  rw [statement, bind_ok (peek?_eq hc)]
  change Verdict _ ((forLoop (n + 1) >>= _) c) _
  suffices hfor : Verdict (Stmt.node info (.forEach target iter body)).Fits
      (forLoop (n + 1) c) (StmtReading (.node info (.forEach target iter body)) rest) from
    hfor.seq id fun hf s' c' hs' => .pure hf ⟨s', rfl, hs'⟩
  rw [forLoop, bind_ok (start_eq c), word, bind_ok (expect_eq hc)]
  refine (verdict_loopTarget ht hc.next (by simp at hn ⊢; omega)).seq
    (fun hf => hf.expr (by simp [StmtForm.exprs])) fun hft t' c₁ ht' => ?_
  rw [word, bind_ok (expect_eq ht'.faces)]
  refine (hiter.printed.reads (by decide) (by decide) n c₁.next _ ht'.faces.next ?_
    (Nat.zero_lt_succ _)).seq (fun hf => hf.expr (by simp [StmtForm.exprs]))
    fun hfi i' c₂ hi' => ?_
  · simp [fuelFor, Strength.test] at hn ⊢
    omega
  rw [sign, bind_ok (expect_eq hi'.faces)]
  refine (reads_suite hne hreg h hi'.faces.next (by simp at hn ⊢; omega)).seq
    (fun hf s hs => hf.stmt hs) fun hfb body' c₃ hread => ?_
  obtain ⟨hb', hc₃⟩ := hread
  obtain ⟨hbb, hbn⟩ := StmtMirrors.rows hb'
  rw [makeCompound, bind_ok (stop_eq c₃)]
  exact verdict_makeStmtBefore (by simp [StmtForm.map, ht'.bare, hi'.bare, hbb])
    (by simp [StmtForm.exprs, ht'.nested, hi'.nested]) hbn (by simp [StmtForm.exprs, hft, hfi])
    hfb hc₃

end

/-! ### Definitions -/

structure ParamMirrors (p p' : Param) : Prop where
  name : p'.name = p.name
  default? : Option.Rel Mirrors p.default? p'.default?

def Param.Fits (p : Param) : Prop := ∀ e ∈ p.default?, e.Fits

def startsName : Token → Bool
  | .name _ => true
  | _ => false

theorem isOpenRow_params : IsOpenRow startsName params param where
  cons {n c ts} hc hts := by
    rw [params, bind_ok (peek?_eq hc)]
    cases ts with
    | nil => cases hts
    | cons t ts => cases t <;> first | rfl | cases hts
  nil {n c ts} hc hts := by
    rw [params, bind_ok (peek?_eq hc)]
    cases ts with
    | nil => rfl
    | cons t ts => cases t <;> first | rfl | exact absurd rfl hts

theorem reads_param {p : Param} (hp : ∀ e ∈ p.default?, e.Regular) :
    ReadsItem param Param.tokens Param.Fits ParamMirrors 23 EndsExpr p := by
  intro n c rest hc hn ⟨hhold, hassign⟩
  obtain ⟨name, default?⟩ := p
  simp only [Param.tokens_eq, List.cons_append] at hc hn
  rw [param, bind_ok (identifier_eq hc)]
  cases default?
  case none =>
    rw [bind_ok (accept_ne hc.next hassign), if_neg (by simp)]
    exact .pure (by simp [Param.Fits]) ⟨⟨rfl, .none⟩, hc.next⟩
  case some e =>
    have he : e.Regular := hp e rfl
    have hc' := hc.next
    simp only [Option.map_some, Option.getD_some, List.cons_append] at hc' hn
    rw [bind_ok (accept_eq hc'), if_pos rfl]
    refine (he.printed.reads (by decide) (by decide) n _ rest hc'.next ?_
      (by rw [hhold]; decide)).seq (fun hf => hf e rfl) fun hf e' c' he' => ?_
    · simp [fuelFor, Strength.test] at hn ⊢
      omega
    exact .pure (by simpa [Param.Fits] using hf) ⟨⟨rfl, .some he'.toMirrors⟩, he'.faces⟩

theorem ParamMirrors.rows {ps ps' : List Param} (h : List.Forall₂ ParamMirrors ps ps') :
    (ps'.map fun p => (⟨p.name, p.default?.map Expr.bare⟩ : Param))
        = ps.map (fun p => ⟨p.name, p.default?.map Expr.bare⟩)
      ∧ ∀ e ∈ ps'.filterMap (·.default?), e.WellNested := by
  induction h
  case nil => simp
  case cons p p' _ _ hd _ ih =>
    have ⟨hname, hdefault⟩ := hd
    simp only [List.map_cons, List.cons.injEq, hname, ih.1, and_true, List.filterMap_cons]
    generalize p.default? = d at hdefault
    generalize p'.default? = d' at hdefault
    cases hdefault
    case none => exact ⟨rfl, ih.2⟩
    case some he =>
      exact ⟨by simp [he.bare], List.forall_mem_cons.mpr ⟨he.nested, ih.2⟩⟩

theorem reads_define {info : NodeInfo} {name : String} {ps : List Param} {body : List Stmt}
    {isAsync : Bool} (hps : ∀ e ∈ ps.filterMap (·.default?), e.Regular) (hne : body ≠ [])
    (hreg : ∀ s ∈ body, s.Regular) (h : ∀ s ∈ body, ReadsStmt s) :
    ReadsStmt (.node info (.define name ps body isAsync)) := by
  intro n c rest hc hn hrest
  obtain ⟨n, rfl⟩ : ∃ k, n = k + 1 + 1 := ⟨n - 2, by omega⟩
  suffices hdef : Verdict (Stmt.node info (.define name ps body isAsync)).Fits
      (definition (n + 1) c) (StmtReading (.node info (.define name ps body isAsync)) rest) by
    have hstatement : statement (n + 1 + 1) c = (definition (n + 1) >>= fun s => pure [s]) c := by
      rw [Stmt.tokens, StmtForm.tokens_define, List.append_assoc] at hc
      rw [statement, bind_ok (peek?_eq hc)]
      cases isAsync <;> rfl
    rw [hstatement]
    exact hdef.seq id fun hf s' c' hs' => .pure hf ⟨s', rfl, hs'⟩
  have hasync : ∃ c₁, accept (.word .async_) c = .ok (isAsync, c₁)
      ∧ c₁.Faces (.word .def_ :: .name name :: .sign .lparen
        :: (commaed (ps.map Param.tokens) ++ .sign .rparen :: .sign .colon
          :: (blockTokens (Stmt.rowTokens body) ++ rest))) := by
    simp only [Stmt.tokens, StmtForm.tokens_define, StmtForm.restTokens, List.cons_append,
      List.append_assoc, List.nil_append] at hc
    cases isAsync
    case false => exact ⟨c, accept_ne hc (by simp), hc⟩
    case true => exact ⟨c.next, accept_eq hc, hc.next⟩
  have hlength : (commaed (ps.map Param.tokens) ++ .sign .rparen :: .sign .colon
      :: (blockTokens (Stmt.rowTokens body) ++ rest)).length + 3
        ≤ ((Stmt.node info (.define name ps body isAsync)).tokens ++ rest).length := by
    cases isAsync <;> simp [Stmt.tokens, StmtForm.tokens_define, StmtForm.restTokens]
  obtain ⟨c₁, hasync, hc₁⟩ := hasync
  have hfits (hf : (Stmt.node info (.define name ps body isAsync)).Fits) (p : Param)
      (hp : p ∈ ps) : p.Fits := fun e he => hf.expr (List.mem_filterMap.mpr ⟨p, hp, he⟩)
  rw [definition, bind_ok (start_eq c), bind_ok hasync, word,
    bind_ok (expect_eq hc₁), bind_ok (identifier_eq hc₁.next), sign,
    bind_ok (expect_eq hc₁.next.next)]
  refine (isOpenRow_params.reads (fun p _ ts => ?_)
    (fun p hp => reads_param fun e he => hps e (List.mem_filterMap.mpr ⟨p, hp, he⟩))
    (endsRow_closing rfl _) endsExpr_comma (by simp [startsWith, startsName]) hc₁.next.next.next (by omega)).seq
    hfits fun hfp ps' c₂ hread => ?_
  · rw [Param.tokens_eq]
    rfl
  obtain ⟨hps', hc₂⟩ := hread
  rw [sign, bind_ok (expect_eq hc₂), sign, bind_ok (expect_eq hc₂.next)]
  refine (reads_suite hne hreg h hc₂.next.next (by simp at hlength hn ⊢; omega)).seq
    (fun hf s hs => hf.stmt hs) fun hfb body' c₃ hread => ?_
  obtain ⟨hb', hc₃⟩ := hread
  obtain ⟨hbb, hbn⟩ := StmtMirrors.rows hb'
  obtain ⟨hpb, hpn⟩ := ParamMirrors.rows hps'
  rw [makeCompound, bind_ok (stop_eq c₃)]
  refine verdict_makeStmtBefore (by simp [StmtForm.map, hpb, hbb]) hpn hbn ?_ hfb hc₃
  intro e he
  obtain ⟨p, hp, he⟩ := List.mem_filterMap.mp he
  exact hfp p hp e he

/-! ### Whole statements -/

def Token.startsCompound : Token → Bool
  | .word .if_ | .word .while_ | .word .for_ | .word .def_ | .word .async_ => true
  | _ => false

theorem Opens.startsSimple {k : Nat} {ts : List Token} (h : Opens k ts) :
    ∃ t us, ts = t :: us ∧ t.startsCompound = false := by
  obtain ⟨t, us, hts, ht⟩ := h
  refine ⟨t, us, hts, ?_⟩
  unfold Token.startsCompound
  split <;> first | rfl | cases ht

theorem StmtForm.startsSimple_tokens {form : StmtForm Stmt} (h : form.Regular)
    (hs : form.isSimple) : ∃ t us, form.tokens = t :: us ∧ t.startsCompound = false := by
  cases form
  case expr e => exact (e.opens_tokens Strength.test (by decide)).startsSimple
  case assign targets value =>
    obtain ⟨t, ts, rfl⟩ := List.exists_cons_of_ne_nil h.1
    rw [tokens_assign, chainTokens_cons]
    exact ((t.opens_tokens Strength.tuple (by decide)).append _).startsSimple
  case augAssign target op value =>
    rw [tokens_augAssign]
    exact ((target.opens_tokens Strength.tuple (by decide)).append _).startsSimple
  all_goals first | exact ⟨_, _, rfl, rfl⟩ | cases hs

theorem StmtForm.restTokens_simple {form : StmtForm Stmt} (hs : form.isSimple) :
    form.restTokens = [.newline] := by
  cases form <;> first | rfl | cases hs

theorem statement_eq_simple {n : Nat} {c : Cursor} {t : Token} {ts : List Token}
    (hc : c.Faces (t :: ts)) (ht : t.startsCompound = false) :
    statement (n + 1) c = simple n c := by
  rw [statement, bind_ok (peek?_eq hc)]
  cases t with
  | word k => cases k <;> first | rfl | cases ht
  | _ => rfl

theorem reads_simple {info : NodeInfo} {form : StmtForm Stmt} (hform : form.Regular)
    (hexprs : ∀ e ∈ form.exprs, e.Regular) (hs : form.isSimple) : ReadsStmt (.node info form) := by
  intro n c rest hc hn hrest
  rw [Stmt.tokens, StmtForm.restTokens_simple hs, List.append_assoc, List.singleton_append] at hc hn
  obtain ⟨n, rfl⟩ : ∃ k, n = k + 1 := ⟨n - 1, by omega⟩
  have ⟨t, us, hts, ht⟩ := form.startsSimple_tokens hform hs
  have hstatement : statement (n + 1) c = simple n c := by
    rw [hts] at hc
    exact statement_eq_simple hc ht
  rw [hstatement]
  exact verdict_simple (reads_small hform hexprs hs) hc (by omega)

-- A statement is read, and so is a conditional as the next branch of another.
def ReadsPrinted (s : Stmt) : Prop :=
  ReadsStmt s ∧ ∀ info condition body orelse, s = .node info (.ifElse condition body orelse) →
    ReadsElse [s]

theorem readsElse_of_printed {orelse : List Stmt} (hreg : ∀ s ∈ orelse, s.Regular)
    (h : ∀ s ∈ orelse, ReadsPrinted s) : ReadsElse orelse := by
  cases orelse using Stmt.elseTokens.fun_cases
  case case1 => exact readsElse_nil
  case case2 info condition body orelse => exact (h _ (by simp)).2 info condition body orelse rfl
  case case3 s rest hne =>
    refine readsElse_block (List.cons_ne_nil s rest) ?_ hreg fun s hs => (h s hs).1
    rw [Stmt.elseTokens, Stmt.rowTokens]
    exact hne

theorem Stmt.Regular.printed {s : Stmt} (h : s.Regular) : ReadsPrinted s := by
  induction h
  case node info form here below ih =>
    obtain ⟨hform, hexprs⟩ := here
    have hregs (s : Stmt) (hs : s ∈ form.stmts) : s.Regular := below s hs
    cases hs : form.isSimple
    case true =>
      refine ⟨reads_simple hform hexprs hs, ?_⟩
      rintro _ _ _ _ heq
      cases heq
      cases hs
    case false =>
      cases form
      case ifElse condition body orelse =>
        have hbranches : ReadsBranches condition body orelse :=
          { regular := hexprs condition (by simp [StmtForm.exprs])
            body_ne := hform
            body_regular := fun s hs => hregs s (List.mem_append_left _ hs)
            reads_body := fun s hs => (ih s (List.mem_append_left _ hs)).1
            reads_orelse := readsElse_of_printed
              (fun s hs => hregs s (List.mem_append_right _ hs))
              fun s hs => ih s (List.mem_append_right _ hs) }
        exact ⟨hbranches.stmt, fun _ _ _ _ _ => hbranches.elif⟩
      case whileLoop condition body =>
        exact ⟨reads_whileLoop (hexprs condition (by simp [StmtForm.exprs])) hform hregs
          fun s hs => (ih s hs).1, by simp⟩
      case forEach target iter body =>
        exact ⟨reads_forEach hform.1 (hexprs iter (by simp [StmtForm.exprs])) hform.2 hregs
          fun s hs => (ih s hs).1, by simp⟩
      case define name ps body isAsync =>
        exact ⟨reads_define hexprs hform hregs fun s hs => (ih s hs).1, by simp⟩
      all_goals cases hs

/-! ### Whole cells -/

theorem reads_statements {body : List Stmt} (hreg : ∀ s ∈ body, s.Regular) {n : Nat} {c : Cursor}
    (hc : c.Faces (Stmt.rowTokens body)) (hn : 32 * (Stmt.rowTokens body).length + 26 < n) :
    Verdict (∀ s ∈ body, s.Fits) (statements n c)
      fun ss _ => List.Forall₂ StmtMirrors body ss := by
  induction body generalizing n c
  case nil =>
    obtain ⟨n, rfl⟩ : ∃ k, n = k + 1 := ⟨n - 1, by omega⟩
    obtain ⟨rest, error, stop⟩ := c
    obtain rfl : rest = [] := List.map_eq_nil_iff.mp hc.tokens
    obtain rfl : error = none := hc.clean
    exact .ok (by simp) .nil
  case cons s body ih =>
    obtain ⟨n, rfl⟩ : ∃ k, n = k + 1 := ⟨n - 1, by omega⟩
    have ⟨t, us, hts, _⟩ := s.startsStatement_tokens (hreg s (by simp)) []
    have hpos : 0 < s.tokens.length := by
      rw [List.append_nil] at hts
      simp [hts]
    have hstep : statements (n + 1) c
        = (do
          let first ← statement n
          return first ++ (← statements n)) c := by
      obtain ⟨rest, error, stop⟩ := c
      rw [statements]
      cases rest
      case nil =>
        have := congrArg List.length hc.tokens
        simp [Stmt.rowTokens] at this
        omega
      case cons => rfl
    rw [Stmt.rowTokens] at hc hn
    rw [hstep]
    have hends : EndsStmt (Stmt.rowTokens body) := by
      cases body
      case nil => exact ⟨nofun, nofun⟩
      case cons d body => exact endsStmt_tokens (hreg d (by simp)) _
    refine ((hreg s (by simp)).printed.1 n c _ hc (by omega) hends).seq
      (fun hf => hf s (by simp)) fun hf ss c' ⟨s', hss, hs'⟩ => ?_
    refine (ih (fun x hx => hreg x (List.mem_cons_of_mem _ hx)) hs'.faces ?_).seq
      (fun hf x hx => hf x (List.mem_cons_of_mem _ hx)) fun hfs ss' c'' hss' => ?_
    · simp only [List.length_append] at hn
      omega
    rw [hss]
    exact .pure (List.forall_mem_cons.mpr ⟨hf, hfs⟩) (.cons hs'.toStmtMirrors hss')

end NoteCell
