import Mathlib.Data.List.Forall2
import NoteCell.Proofs.Parsing.Levels

/-!
Rows: items with commas between them. The rules for rows have one shape, and what is known of the
rule for one item carries over to a row of them. Atoms are names, literals, and whatever stands in
brackets.
-/
namespace NoteCell

open NoteCell.Parser

def startsWith (starts : Token → Bool) (ts : List Token) : Bool :=
  (ts.head?.map starts).getD false

-- A rule for items between commas, by the rule for one item and the tokens that may start it.
structure IsRow {α : Type} (starts : Token → Bool) (row : Nat → Parser (List α))
    (item : Nat → Parser α) : Prop where
  cons {n : Nat} {c : Cursor} {ts : List Token} (hc : c.Faces ts) (hts : startsWith starts ts) :
    row (n + 1) c = (do
      let a ← item n
      if ← accept (.sign .comma) then return a :: (← row n)
      else return [a]) c

-- A row that may be empty.
structure IsOpenRow {α : Type} (starts : Token → Bool) (row : Nat → Parser (List α))
    (item : Nat → Parser α) : Prop extends IsRow starts row item where
  nil {n : Nat} {c : Cursor} {ts : List Token} (hc : c.Faces ts) (hts : ¬ startsWith starts ts) :
    row (n + 1) c = .ok ([], c)

theorem Opens.startsWith {k : Nat} {ts : List Token} (h : Opens k ts) (rest : List Token) :
    startsWith Token.startsExpression (ts ++ rest) := by
  have ⟨t, us, hts, ht⟩ := h
  rw [hts]
  change t.startsExpression = true
  unfold Token.opens at ht
  split at ht <;> first | rfl | exact ht

section

variable {α : Type} {row : Nat → Parser (List α)} {item : Nat → Parser α}

theorem isOpenRow_of_eq (h : ∀ n, row (n + 1) = do
      if ((← peek?).map Token.startsExpression).getD false then
        let a ← item n
        if ← accept (.sign .comma) then return a :: (← row n)
        else return [a]
      else return []) : IsOpenRow Token.startsExpression row item where
  cons hc hts := by
    rw [h, bind_ok (peek?_eq hc)]
    exact congrFun (if_pos hts) _
  nil hc hts := by
    rw [h, bind_ok (peek?_eq hc)]
    exact congrFun (if_neg hts) _

end

theorem isOpenRow_elements : IsOpenRow Token.startsExpression elements expression :=
  isOpenRow_of_eq fun n => by rw [elements]

theorem isOpenRow_arguments : IsOpenRow Token.startsExpression arguments argument :=
  isOpenRow_of_eq fun n => by rw [arguments]

theorem isOpenRow_entries : IsOpenRow Token.startsExpression entries fun n => do
    let key ← expression n
    sign .colon
    let value ← expression n
    return (key, value) :=
  isOpenRow_of_eq fun n => by simp [entries]

section

variable {α β : Type} {starts : Token → Bool} {row : Nat → Parser (List α)}
  {item : Nat → Parser α} {tokens : β → List Token} {fits : β → Prop} {R : β → α → Prop} {k : Nat}
  {ends : List Token → Prop} {rest : List Token}

-- What is known of an item `b`: before tokens that may end it, it is read as a thing related to it.
def ReadsItem (item : Nat → Parser α) (tokens : β → List Token) (fits : β → Prop)
    (R : β → α → Prop) (k : Nat) (ends : List Token → Prop) (b : β) : Prop :=
  ∀ n c rest, c.Faces (tokens b ++ rest) → 32 * (tokens b ++ rest).length + k ≤ n → ends rest →
    Verdict (fits b) (item n c) fun a c' => R b a ∧ c'.Faces rest

-- Tokens behind which a row is over.
structure EndsRow (ends : List Token → Prop) (rest : List Token) : Prop where
  ends : ends rest
  noComma : rest.head? ≠ some (.sign .comma)

theorem IsRow.reads (hrow : IsRow starts row item) {b : β} {bs : List β}
    (hstarts : ∀ d ∈ b :: bs, ∀ ts, startsWith starts (tokens d ++ ts))
    (hitems : ∀ d ∈ b :: bs, ReadsItem item tokens fits R k ends d) (hrest : EndsRow ends rest)
    (hcomma : ∀ ts, ends (.sign .comma :: ts)) {n : Nat} {c : Cursor}
    (hc : c.Faces (commaed ((b :: bs).map tokens) ++ rest))
    (hn : 32 * (commaed ((b :: bs).map tokens) ++ rest).length + k < n) :
    Verdict (∀ d ∈ b :: bs, fits d) (row n c)
      fun as c' => List.Forall₂ R (b :: bs) as ∧ c'.Faces rest := by
  induction bs generalizing b n c
  case nil =>
    obtain ⟨n, rfl⟩ : ∃ m, n = m + 1 := ⟨n - 1, by omega⟩
    simp only [List.map_cons, List.map_nil, commaed] at hc hn
    rw [hrow.cons hc (hstarts b (by simp) rest)]
    refine (hitems b (by simp) n c rest hc (by omega) hrest.ends).seq (fun h => h b (by simp))
      fun hf a c' hread => ?_
    obtain ⟨hR, hc'⟩ := hread
    rw [bind_ok (accept_ne hc' hrest.noComma), if_neg (by simp)]
    exact .pure (by simpa using hf) ⟨.cons hR .nil, hc'⟩
  case cons b' bs ih =>
    obtain ⟨n, rfl⟩ : ∃ m, n = m + 1 := ⟨n - 1, by omega⟩
    simp only [List.map_cons, commaed, List.append_assoc, List.cons_append] at hc hn ih
    rw [hrow.cons hc (hstarts b (by simp) _)]
    refine (hitems b (by simp) n c _ hc (by omega) (hcomma _)).seq (fun h => h b (by simp))
      fun hf a c' hread => ?_
    obtain ⟨hR, hc'⟩ := hread
    rw [bind_ok (accept_eq hc'), if_pos rfl]
    refine (ih (fun d hd => hstarts d (List.mem_cons_of_mem _ hd))
      (fun d hd => hitems d (List.mem_cons_of_mem _ hd)) hc'.next ?_).seq
      (fun h d hd => h d (List.mem_cons_of_mem _ hd)) fun hfs as c'' hread => ?_
    · simp only [List.length_append, List.length_cons] at hn ⊢
      omega
    obtain ⟨hRs, hc''⟩ := hread
    exact .pure (List.forall_mem_cons.mpr ⟨hf, hfs⟩) ⟨.cons hR hRs, hc''⟩

theorem IsOpenRow.reads (hrow : IsOpenRow starts row item) {bs : List β}
    (hstarts : ∀ d ∈ bs, ∀ ts, startsWith starts (tokens d ++ ts))
    (hitems : ∀ d ∈ bs, ReadsItem item tokens fits R k ends d) (hrest : EndsRow ends rest)
    (hcomma : ∀ ts, ends (.sign .comma :: ts)) (hstop : ¬ startsWith starts rest) {n : Nat}
    {c : Cursor} (hc : c.Faces (commaed (bs.map tokens) ++ rest))
    (hn : 32 * (commaed (bs.map tokens) ++ rest).length + k < n) :
    Verdict (∀ d ∈ bs, fits d) (row n c) fun as c' => List.Forall₂ R bs as ∧ c'.Faces rest := by
  cases bs
  case nil =>
    obtain ⟨n, rfl⟩ : ∃ m, n = m + 1 := ⟨n - 1, by omega⟩
    rw [hrow.nil hc hstop]
    exact .ok (by simp) ⟨.nil, hc⟩
  case cons b bs => exact hrow.toIsRow.reads hstarts hitems hrest hcomma hc hn

end

/-! ### Where the items are expressions -/

-- Tokens that end an expression and are no part of an assignment.
structure EndsExpr (ts : List Token) : Prop where
  hold : holdOf ts = 0
  noAssign : ts.head? ≠ some (.sign .assign)

theorem endsExpr_comma (ts : List Token) : EndsExpr (.sign .comma :: ts) := ⟨rfl, nofun⟩

theorem endsRow_closing {s : Sign} (hs : s.closes) (ts : List Token) :
    EndsRow EndsExpr (.sign s :: ts) := by
  cases s <;> try cases hs
  all_goals exact ⟨⟨rfl, nofun⟩, nofun⟩

theorem EndsRow.weaken {ts : List Token} (h : EndsRow EndsExpr ts) :
    EndsRow (holdOf · = 0) ts :=
  ⟨h.ends.hold, h.noComma⟩

theorem not_startsWith_closing {s : Sign} (hs : s.closes) (ts : List Token) :
    ¬ startsWith Token.startsExpression (.sign s :: ts) := by
  cases s <;> try cases hs
  all_goals exact nofun

/-! ### Atoms -/

theorem Mirrors.rows {es es' : List Expr} (h : List.Forall₂ Mirrors es es') :
    es'.map Expr.bare = es.map Expr.bare ∧ ∀ e ∈ es', e.WellNested := by
  induction h
  case nil => simp
  case cons hd _ ih =>
    exact ⟨by simp [hd.bare, ih.1], List.forall_mem_cons.mpr ⟨hd.nested, ih.2⟩⟩

theorem Reads.item {e : Expr} (h : Reads Strength.test (e.tokens Strength.test) e) :
    ReadsItem expression (Expr.tokens Strength.test) Expr.Fits Mirrors 23 (holdOf · = 0) e := by
  intro n c rest hc hn hrest
  refine (h n c rest hc hn (by rw [hrest]; decide)).imp fun _ e' c' he' => ?_
  exact ⟨he'.toMirrors, he'.faces⟩

section

variable {info : NodeInfo} {items : List Expr}

theorem reads_elements
    (h : ∀ e ∈ items, Reads Strength.test (e.tokens Strength.test) e) {rest : List Token}
    (hrest : EndsRow (holdOf · = 0) rest) (hstop : ¬ startsWith Token.startsExpression rest)
    {n : Nat} {c : Cursor}
    (hc : c.Faces (commaed (items.map (Expr.tokens Strength.test)) ++ rest))
    (hn : 32 * (commaed (items.map (Expr.tokens Strength.test)) ++ rest).length + 23 < n) :
    Verdict (∀ e ∈ items, e.Fits) (elements n c)
      fun items' c' => List.Forall₂ Mirrors items items' ∧ c'.Faces rest :=
  isOpenRow_elements.reads (fun e _ => (e.opens_tokens _ (by decide)).startsWith)
    (fun e he => (h e he).item) hrest (fun _ => rfl) hstop hc hn

theorem ReadsAtom.list (h : ∀ e ∈ items, Reads Strength.test (e.tokens Strength.test) e) :
    ReadsAtom (ExprForm.list items).tokens (.node info (.list items)) := by
  intro n c rest hc hn hrest
  obtain ⟨m, rfl⟩ : ∃ k, n = k + 1 := ⟨n - 1, by omega⟩
  simp only [ExprForm.tokens_list, List.cons_append, List.append_assoc] at hc hn
  rw [atom, bind_ok (start_eq c), bind_ok (peek?_eq hc)]
  simp only [List.head?_cons]
  rw [bind_ok (advance_eq hc)]
  refine (reads_elements h (endsRow_closing rfl _).weaken (not_startsWith_closing rfl _) hc.next ?_).seq (fun hf e he => hf.child he)
    fun _ items' c' ⟨hitems, hc'⟩ => ?_
  · simp only [fuelFor, List.length_append, List.length_cons] at hn ⊢
    omega
  rw [sign, bind_ok (expect_eq hc')]
  exact verdict_makeExprBefore (by simp [ExprForm.map, (Mirrors.rows hitems).1])
    (Mirrors.rows hitems).2 hc'.next

theorem tupleTokens_cons (row : List Token) (rows : List (List Token)) :
    tupleTokens (row :: rows) = row ++ .sign .comma :: commaed rows := by
  cases rows <;> rfl

theorem ReadsAtom.tuple (h : ∀ e ∈ items, Reads Strength.test (e.tokens Strength.test) e)
    (hne : items ≠ []) :
    ReadsAtom (.sign .lparen :: (ExprForm.tuple items).tokens ++ [.sign .rparen])
      (.node info (.tuple items)) := by
  intro n c rest hc hn hrest
  obtain ⟨e, es, rfl⟩ := List.exists_cons_of_ne_nil hne
  obtain ⟨m, rfl⟩ : ∃ k, n = k + 1 := ⟨n - 1, by omega⟩
  simp only [ExprForm.tokens_tuple hne, List.map_cons, tupleTokens_cons, List.cons_append,
    List.append_assoc, List.nil_append] at hc hn
  have hopen := (e.opens_tokens Strength.test (by decide))
  rw [atom, bind_ok (start_eq c), bind_ok (peek?_eq hc)]
  simp only [List.head?_cons]
  rw [bind_ok (advance_eq hc),
    bind_ok (accept_ne (t := .sign .rparen) hc.next (hopen.head?_ne rfl)), if_neg (by simp)]
  refine (h e (by simp) m c.next _ hc.next ?_ (Nat.zero_lt_succ _)).seq (fun hf => hf.child (by simp [ExprForm.children]))
    fun _ e' c' he' => ?_
  · simp only [fuelFor, List.length_append, List.length_cons] at hn ⊢
    omega
  rw [bind_ok (accept_eq he'.faces), if_pos rfl]
  refine (reads_elements (fun d hd => h d (List.mem_cons_of_mem _ hd))
    (endsRow_closing rfl _).weaken (not_startsWith_closing rfl _) he'.faces.next ?_).seq (fun hf d hd => hf.child (List.mem_cons_of_mem _ hd))
    fun _ es' c'' hread => ?_
  · simp only [fuelFor, List.length_append, List.length_cons] at hn ⊢
    omega
  obtain ⟨hes, hc''⟩ := hread
  rw [sign, bind_ok (expect_eq hc'')]
  have hall := Mirrors.rows (.cons he'.toMirrors hes)
  exact verdict_makeExprBefore (by simpa [ExprForm.map] using hall.1) hall.2 hc''.next

-- Parentheses leave no trace.
theorem ReadsAtom.enclosed {ts : List Token} {e : Expr} (h : Reads Strength.test ts e)
    (ho : Opens Strength.test ts) :
    ReadsAtom (.sign .lparen :: ts ++ [.sign .rparen]) e := by
  intro n c rest hc hn hrest
  obtain ⟨m, rfl⟩ : ∃ k, n = k + 1 := ⟨n - 1, by omega⟩
  simp only [List.cons_append, List.append_assoc, List.nil_append] at hc hn
  rw [atom, bind_ok (start_eq c), bind_ok (peek?_eq hc)]
  simp only [List.head?_cons]
  rw [bind_ok (advance_eq hc),
    bind_ok (accept_ne (t := .sign .rparen) hc.next (ho.head?_ne rfl)), if_neg (by simp)]
  refine (h m c.next _ hc.next ?_ (Nat.zero_lt_succ _)).seq id fun hf e' c' he' => ?_
  · simp only [fuelFor, List.length_append, List.length_cons] at hn ⊢
    omega
  rw [bind_ok (accept_ne he'.faces (by simp)), if_neg (by simp), sign,
    bind_ok (expect_eq he'.faces)]
  exact .pure hf ⟨he'.toMirrors, he'.faces.next⟩

def EntryMirrors (entry entry' : Expr × Expr) : Prop :=
  Mirrors entry.1 entry'.1 ∧ Mirrors entry.2 entry'.2

theorem EntryMirrors.rows {entries entries' : List (Expr × Expr)}
    (h : List.Forall₂ EntryMirrors entries entries') :
    (ExprForm.dict entries').map Expr.bare = (ExprForm.dict entries).map Expr.bare
      ∧ ∀ e ∈ (ExprForm.dict entries').children, e.WellNested := by
  induction h
  case nil => simp [ExprForm.children]
  case cons hd _ ih =>
    have ⟨hk, hv⟩ := hd
    simp only [ExprForm.map, ExprForm.dict.injEq] at ih
    refine ⟨by simp [ExprForm.map, hk.bare, hv.bare, ih.1], ?_⟩
    exact List.forall_mem_cons.mpr ⟨hk.nested, List.forall_mem_cons.mpr ⟨hv.nested, ih.2⟩⟩

theorem Reads.entry {entry : Expr × Expr}
    (hk : Reads Strength.test (entry.1.tokens Strength.test) entry.1)
    (hv : Reads Strength.test (entry.2.tokens Strength.test) entry.2) :
    ReadsItem (fun n => do
      let key ← expression n
      Parser.sign .colon
      let value ← expression n
      return (key, value)) entryTokens (fun entry => entry.1.Fits ∧ entry.2.Fits) EntryMirrors 23
      (holdOf · = 0) entry := by
  intro n c rest hc hn hrest
  simp only [entryTokens, List.append_assoc, List.cons_append] at hc hn
  refine (hk n c _ hc hn (Nat.zero_lt_succ _)).seq And.left fun hfk k' c' hk' => ?_
  rw [Parser.sign, bind_ok (expect_eq hk'.faces)]
  refine (hv n c'.next rest hk'.faces.next ?_ (by rw [hrest]; decide)).seq And.right
    fun hfv v' c'' hv' => ?_
  · simp only [fuelFor, List.length_append, List.length_cons, Strength.test] at hn ⊢
    omega
  exact .pure ⟨hfk, hfv⟩ ⟨⟨hk'.toMirrors, hv'.toMirrors⟩, hv'.faces⟩

theorem ReadsAtom.dict {entries : List (Expr × Expr)}
    (h : ∀ e ∈ (ExprForm.dict entries).children, Reads Strength.test (e.tokens Strength.test) e) :
    ReadsAtom (ExprForm.dict entries).tokens (.node info (.dict entries)) := by
  intro n c rest hc hn hrest
  obtain ⟨m, rfl⟩ : ∃ k, n = k + 1 := ⟨n - 1, by omega⟩
  have hchild {entry : Expr × Expr} (he : entry ∈ entries) :
      entry.1 ∈ (ExprForm.dict entries).children ∧ entry.2 ∈ (ExprForm.dict entries).children := by
    simp only [ExprForm.children, List.mem_flatMap]
    exact ⟨⟨entry, he, by simp⟩, ⟨entry, he, by simp⟩⟩
  simp only [ExprForm.tokens_dict, List.cons_append, List.append_assoc] at hc hn
  rw [atom, bind_ok (start_eq c), bind_ok (peek?_eq hc)]
  simp only [List.head?_cons]
  rw [bind_ok (advance_eq hc)]
  refine (isOpenRow_entries.reads
    (fun entry _ => ((entry.1.opens_tokens _ (by decide)).append _).startsWith)
    (fun entry he => Reads.entry (h _ (hchild he).1) (h _ (hchild he).2))
    (endsRow_closing rfl _).weaken (fun _ => rfl) (not_startsWith_closing rfl _) hc.next ?_).seq (fun hf entry he => ⟨hf.child (hchild he).1, hf.child (hchild he).2⟩)
    fun _ entries' c' hread => ?_
  · simp only [fuelFor, List.length_append, List.length_cons] at hn ⊢
    omega
  obtain ⟨hentries, hc'⟩ := hread
  rw [sign, bind_ok (expect_eq hc')]
  exact verdict_makeExprBefore (EntryMirrors.rows hentries).1 (EntryMirrors.rows hentries).2
    hc'.next

/-! ### Words and literals -/

theorem strings_eq {n : Nat} {c : Cursor} {s : String} {rest : List Token}
    (hc : c.Faces (.str s :: rest)) (hn : 1 < n) (hrest : holdOf rest ≤ Strength.atom) :
    strings n c = .ok (s, c.next) := by
  obtain ⟨n, rfl⟩ : ∃ k, n = k + 1 + 1 := ⟨n - 2, by omega⟩
  rw [strings, bind_ok (peek?_eq hc)]
  simp only [List.head?_cons]
  rw [bind_ok (advance_eq hc)]
  have hend : strings (n + 1) c.next = .ok ("", c.next) := by
    rw [strings, bind_ok (peek?_eq hc.next)]
    match rest, hrest with
    | [], _ => rfl
    | t :: _, h => cases t <;> first | rfl | exact absurd h (by simp [Token.hold])
  rw [bind_ok hend]
  exact congrArg (fun s => Except.ok (s, c.next)) (String.append_empty)

-- Expressions that are one token.
theorem ReadsAtom.single {form : ExprForm Expr} {t : Token} (ht : form.tokens = [t])
    (hleaf : form.children = []) : ReadsAtom form.tokens (.node info form) := by
  intro n c rest hc hn hrest
  obtain ⟨m, rfl⟩ : ∃ k, n = k + 1 := ⟨n - 1, by omega⟩
  have hmake (k : Nat) : Verdict (Expr.node info form).Fits (makeExpr k form c.start c.next)
      (Reading (.node info form) rest) :=
    verdict_makeExprBefore rfl (by simp [hleaf]) (by rw [ht] at hc; exact hc.next)
  rw [atom, bind_ok (start_eq c), bind_ok (peek?_eq hc)]
  cases form
  case str s =>
    change Verdict _ ((strings (m + 1) >>= fun s => makeExpr 6 (.str s) c.start) c) _
    rw [bind_ok (strings_eq hc (by simp [fuelFor, ht] at hn; omega) hrest)]
    exact hmake 6
  case bool b =>
    cases b <;> (change Verdict _ ((advance >>= fun _ => makeExpr 6 _ c.start) c) _
                 rw [bind_ok (advance_eq hc)]
                 exact hmake 6)
  case name | int | float | none =>
    change Verdict _ ((advance >>= fun _ => makeExpr 6 _ c.start) c) _
    rw [bind_ok (advance_eq hc)]
    exact hmake 6
  case tuple items =>
    cases items
    case nil => cases ht
    case cons => cases hleaf
  case list => simp [ExprForm.tokens_list] at ht
  case dict => simp [ExprForm.tokens_dict] at ht
  all_goals cases hleaf

theorem ReadsAtom.unit : ReadsAtom (ExprForm.tuple []).tokens (.node info (.tuple [])) := by
  intro n c rest hc hn hrest
  obtain ⟨m, rfl⟩ : ∃ k, n = k + 1 := ⟨n - 1, by omega⟩
  change c.Faces (.sign .lparen :: .sign .rparen :: rest) at hc
  rw [atom, bind_ok (start_eq c), bind_ok (peek?_eq hc)]
  simp only [List.head?_cons]
  rw [bind_ok (advance_eq hc), bind_ok (accept_eq hc.next), if_pos rfl]
  exact verdict_makeExprBefore rfl (by simp [ExprForm.children]) hc.next.next

end

end NoteCell
