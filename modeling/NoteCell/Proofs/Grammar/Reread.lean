import NoteCell.Proofs.Grammar.Parsed
import NoteCell.Proofs.Grammar.Places
import NoteCell.Proofs.Lexing.Arranged

/-!
Statements and expressions read again. A source that has the tokens of a simple statement alone reads
as that statement, and one that has those of an expression in brackets reads as that expression.
-/
namespace NoteCell

-- Text that reads as one statement, the given one but for ids and places.
def ReadsAs (text : List Char) (s : Stmt) : Prop :=
  ∃ c t, parse (String.ofList text) = .ok c ∧ c.body = [t]
    ∧ t.mapInfo .anonymous = s.mapInfo .anonymous

-- Text that reads as one expression.
def ReadsAsExpr (text : List Char) (e : Expr) : Prop :=
  ∃ c t e', parse (String.ofList text) = .ok c ∧ c.body = [t] ∧ t.form = .expr e'
    ∧ e'.mapInfo .anonymous = e.mapInfo .anonymous

theorem Expr.anonymous_of_placeless {e e' : Expr} (h : e'.placeless = e.placeless) :
    e'.mapInfo .anonymous = e.mapInfo .anonymous := by
  have he (e : Expr) : e.placeless.mapInfo .anonymous = e.mapInfo .anonymous := e.mapInfo_mapInfo
  rw [← he, h, he]

theorem Stmt.anonymous_of_placeless {s t : Stmt} (h : t.placeless = s.placeless) :
    t.mapInfo .anonymous = s.mapInfo .anonymous := by
  have hs (s : Stmt) : s.placeless.mapInfo .anonymous = s.mapInfo .anonymous := s.mapInfo_mapInfo
  rw [← hs, h, hs]

theorem TokenStream.of_read? {s : TokenStream} {ks : List Token} (h : s.read? = some ks) :
    s.error = none ∧ Grammar.kinds s.tokens = ks := by
  rw [read?] at h
  split at h
  case isTrue herror => exact ⟨herror, Option.some.inj h⟩
  case isFalse => cases h

namespace Grammar

/-! ### The same tokens at other places -/

-- Tokens none of which shares its place are moved to those of any others of the same kinds.
theorem exists_move {ts us : List Located} (hts : (ts.map (·.span)).Nodup) (h : kinds us = kinds ts) :
    ∃ f, us = ts.map (.move f) := by
  induction ts generalizing us
  case nil => exact ⟨id, List.map_eq_nil_iff.mp h⟩
  case cons t ts ih =>
    obtain ⟨u, us, rfl, hu, hus⟩ := List.map_eq_cons_iff.mp h
    obtain ⟨hfresh, hts⟩ := List.nodup_cons.mp hts
    obtain ⟨f, rfl⟩ := ih hts hus
    refine ⟨fun s => if s = t.span then u.span else f s, List.cons_eq_cons.mpr ⟨?_, ?_⟩⟩
    · have hu : u.token = t.token := hu
      rw [Located.move, if_pos rfl, ← hu]
    · refine List.map_congr_left fun v hv => ?_
      have hne : v.span ≠ t.span := fun heq => hfresh (List.mem_map.mpr ⟨v, hv, heq⟩)
      rw [Located.move, Located.move, if_neg hne]

section

variable {s : Stmt} {e : Expr} {x : SmallStatement} {list : TestList} {next : Nat}

/-! ### Statements -/

theorem readsAs_of_tokens {text : List Char} {n : Located} (hn : n.token = .newline)
    (htokens : tokenize (String.ofList text) = ⟨x.tokens ++ [n], none⟩)
    (hact : x.act n.span.start = .ok s) : ReadsAs text s := by
  obtain ⟨token, span⟩ := n
  obtain rfl : token = .newline := hn
  have hline : (SimpleStatements.mk x [] none span).act = .ok [s] := by
    have hact : x.act span.start = .ok s := hact
    change (do return [← x.act span.start]) = Except.ok [s]
    rw [hact]
    rfl
  have hd : (StmtDerivation.more (.simple ⟨x, [], none, span⟩) .noStatements).act = .ok [s] := by
    rw [StmtDerivation.act, StmtDerivation.act, hline]
    rfl
  have hprogram : (StmtDerivation.more (.simple ⟨x, [], none, span⟩) .noStatements).tokens
      = (tokenize (String.ofList text)).tokens := by
    rw [htokens]
    simp [SimpleStatements.tokens, SimpleStatements.ending, smallTokens]
  have hparse : parse (String.ofList text) = .ok (.ofBody [s]) :=
    parseTokens_of_builds (by rw [htokens]) ⟨_, hprogram, _, hd, rfl⟩
  have hbody : (Cell.ofBody [s]).body.map (Stmt.mapInfo .anonymous) = [s.mapInfo .anonymous] :=
    Cell.mapInfo_ofBody (fun _ _ => rfl) [s]
  obtain ⟨t, ht, hts⟩ := List.map_eq_singleton_iff.mp hbody
  exact ⟨_, t, hparse, ht, hts⟩

theorem SmallStatement.readsAs {text : List Char} (hx : (x.tokens.map (·.span)).Nodup)
    (hact : x.act next = .ok s)
    (hread : (tokenize (String.ofList text)).read? = some (kinds x.tokens ++ [.newline])) :
    ReadsAs text s := by
  obtain ⟨herror, hkinds⟩ := TokenStream.of_read? hread
  obtain ⟨us, ns, htokens, hus, hns⟩ := List.map_eq_append_iff.mp hkinds
  obtain ⟨n, rfl, hn⟩ := List.map_eq_singleton_iff.mp hns
  obtain ⟨f, rfl⟩ := exists_move hx hus
  obtain ⟨t, ht, hplaceless⟩ := (hact ▸ x.act_move f next n.span.start).of_ok
  have hstream : tokenize (String.ofList text) = ⟨(x.move f).tokens ++ [n], none⟩ := by
    rw [x.tokens_move, ← htokens, ← herror]
  obtain ⟨c, t', hparse, hbody, ht'⟩ := readsAs_of_tokens hn hstream ht
  exact ⟨c, t', hparse, hbody, ht'.trans (Stmt.anonymous_of_placeless hplaceless)⟩

/-! ### Expressions -/

theorem Expression.readsAsExpr {text : List Char} {d : Expression} {n : Located}
    (hn : n.token = .newline) (htokens : tokenize (String.ofList text) = ⟨d.tokens ++ [n], none⟩)
    (hact : d.act = .ok e) (hdepth : e.info.nesting ≤ maxExprNesting) : ReadsAsExpr text e := by
  let x : SmallStatement := .assignment (.single d) []
  have hx : x.tokens = d.tokens := List.append_nil d.tokens
  have hline : x.act n.span.start = .ok (.build (.expr e) (x.place n.span.start)) := by
    have hmake : x.act n.span.start = makeStmt (x.place n.span.start) (.expr e) := by
      change (do makeAssignment (x.place n.span.start) (← d.act) (← pure [])) = _
      rw [hact]
      rfl
    have hlimit : Expr.nestingOver [e.info.nesting] ≤ maxStmtNesting :=
      Expr.nestingOver_le.mpr (List.forall_mem_singleton.mpr (Nat.le_trans hdepth (by decide)))
    exact hmake.trans (if_pos hlimit)
  obtain ⟨c, t, hparse, hbody, ht⟩ := readsAs_of_tokens hn (by rw [hx, htokens]) hline
  have hform := congrArg Stmt.form ht
  rw [Stmt.form_mapInfo, Stmt.form_mapInfo] at hform
  cases htform : t.form with
  | expr e' =>
    rw [htform] at hform
    exact ⟨c, t, e', hparse, hbody, htform, StmtForm.expr.inj hform⟩
  | _ =>
    rw [htform] at hform
    cases hform

-- A list in brackets is an expression, the same one as the list but for its place.
theorem TestList.exists_enclosed (list : TestList) (opening closing : Span) :
    ∃ d : Expression, d.tokens = sign .lparen opening :: (list.tokens ++ [sign .rparen closing])
      ∧ Alike Expr.placeless d.act (list.act next) := by
  cases list with
  | single e =>
    obtain ⟨d, htokens, hact⟩ := exists_expression (.enclosed opening e closing)
    exact ⟨d, htokens, congrArg (Except.map _) hact⟩
  | tuple first comma rest =>
    obtain ⟨d, htokens, hact⟩ := exists_expression (.tuple opening first comma rest closing)
    refine ⟨d, ?_, ?_⟩
    · rw [htokens, TestList.tokens, List.append_assoc]
      rfl
    · have hfirst : Alike Expr.placeless first.act first.act := rfl
      have hrest : Alike (List.map Expr.placeless) rest.act rest.act := rfl
      rw [hact]
      exact hfirst.bind fun _ _ hf => hrest.bind fun _ _ hr =>
        makeExpr_alike (congrArg ExprForm.tuple (congrArg₂ List.cons hf hr))

theorem TestList.readsAsExpr {text : List Char} (hlist : (list.tokens.map (·.span)).Nodup)
    (hact : list.act next = .ok e) (hdepth : e.info.nesting ≤ maxExprNesting)
    (hread : (tokenize (String.ofList text)).read?
      = some (.sign .lparen :: (kinds list.tokens ++ [.sign .rparen]) ++ [.newline])) :
    ReadsAsExpr text e := by
  obtain ⟨herror, hkinds⟩ := TokenStream.of_read? hread
  obtain ⟨ts, ns, htokens, hts, hns⟩ := List.map_eq_append_iff.mp hkinds
  obtain ⟨n, rfl, hn⟩ := List.map_eq_singleton_iff.mp hns
  obtain ⟨⟨_, opening⟩, inner, rfl, rfl, hinner⟩ := List.map_eq_cons_iff.mp hts
  obtain ⟨us, cs, rfl, hus, hcs⟩ := List.map_eq_append_iff.mp hinner
  obtain ⟨⟨_, closing⟩, rfl, rfl⟩ := List.map_eq_singleton_iff.mp hcs
  obtain ⟨f, rfl⟩ := exists_move hlist hus
  obtain ⟨d, hd, halike⟩ := @TestList.exists_enclosed next (list.move f) opening closing
  obtain ⟨e₁, he₁, hmoved⟩ := (hact ▸ list.act_move f next next).of_ok
  obtain ⟨e', he', henclosed⟩ := (he₁ ▸ halike).of_ok
  have hplaceless : e'.placeless = e.placeless := henclosed.trans hmoved
  have hdepth' : e'.info.nesting ≤ maxExprNesting := by
    rwa [← e'.nesting_placeless, hplaceless, e.nesting_placeless]
  have hstream : tokenize (String.ofList text) = ⟨d.tokens ++ [n], none⟩ := by
    rw [hd, list.tokens_move, ← herror]
    exact congrArg (TokenStream.mk · _) htokens
  obtain ⟨c, t, e'', hparse, hbody, hform, heq⟩ := Expression.readsAsExpr hn hstream he' hdepth'
  exact ⟨c, t, e'', hparse, hbody, hform, heq.trans (Expr.anonymous_of_placeless hplaceless)⟩

-- Tokens that leave a bracket open are those of no program.
theorem not_parse_of_open {source : String} {ts : List Token} (hts : Balanced ts)
    (hread : (tokenize source).read? = some (.sign .lparen :: ts ++ [.newline])) (c : Cell) :
    parse source ≠ .ok c := by
  intro hparse
  obtain ⟨-, d, hd, -⟩ := of_parseTokens hparse
  have hkinds := (TokenStream.of_read? hread).2
  have hclosed := d.closes.foldl_after 0
  rw [hd, hkinds, List.cons_append, List.foldl_cons, List.foldl_append, hts.foldl_after] at hclosed
  cases hclosed

end

end Grammar
end NoteCell
