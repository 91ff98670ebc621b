import NoteCell.Proofs.Grammar.Accepted
import NoteCell.Proofs.Grammar.UnambiguousStatements

/-!
Whatever is derived of a program is read by its rules, as long as no action of the derivation
refuses. A list of expressions may reach up to the next token, so that what a statement takes is
told by where it stops.
-/
namespace NoteCell

open NoteCell.Grammar NoteCell.Parser

namespace Cursor

variable {c c' c'' : Cursor} {t : Located} {ts us : List Located} {n : Nat}

-- A part before further tokens may be counted as read up to anywhere.
theorem Takes.split (h : c.Takes (ts ++ us) n c'') (m : Nat) :
    ∃ c', c.Takes ts m c' ∧ c'.Takes us n c'' :=
  ⟨⟨us ++ c''.rest, c.error, m⟩, ⟨by rw [h.rest, List.append_assoc], rfl, rfl⟩,
    ⟨rfl, h.stop, h.error⟩⟩

theorem Takes.next (h : c.Takes (t :: us) n c') : c.next.Takes us n c' := by
  obtain ⟨rest, error, stop⟩ := c
  obtain ⟨hrest, hstop, herror⟩ := h
  subst hrest
  exact ⟨rfl, hstop, herror⟩

theorem Takes.head? (h : c.Takes (t :: us) n c') : c.head? = some t.token := by
  rw [Cursor.head?, h.rest]
  rfl

theorem Takes.length_next (h : c.Takes (t :: us) n c') :
    c.next.rest.length + 1 = c.rest.length := by
  rw [h.next.rest, h.rest]
  rfl

theorem Takes.length_le (h : c.Takes ts n c') : c'.rest.length ≤ c.rest.length := by
  rw [h.rest, List.length_append]
  exact Nat.le_add_left _ _

theorem Takes.consumes (h : c.Takes ts (stopOf ts) c') (hne : ts ≠ []) : c.Consumes ts c' := by
  refine ⟨h.rest, ?_, h.error⟩
  rw [h.stop, stopOf]
  cases hlast : ts.getLast? with
  | none => exact absurd (List.getLast?_eq_none_iff.mp hlast) hne
  | some t => rfl

theorem stopOf_append (hne : us ≠ []) (ts : List Located) : stopOf (ts ++ us) = stopOf us := by
  rw [stopOf, stopOf, List.getLast?_append]
  cases hlast : us.getLast? with
  | none => exact absurd (List.getLast?_eq_none_iff.mp hlast) hne
  | some t => rfl

theorem Consumes.split_takes (h : c.Consumes (ts ++ us) c'') (hne : us ≠ []) (m : Nat) :
    ∃ c', c.Takes ts m c' ∧ c'.Consumes us c'' := by
  have hne' : ts ++ us ≠ [] := List.append_ne_nil_of_right_ne_nil ts hne
  obtain ⟨c', hts, hus⟩ := (h.takes hne').split m
  exact ⟨c', hts, Takes.consumes (stopOf_append hne ts ▸ hus) hne⟩

theorem ext_fields (hrest : c.rest = c'.rest) (herror : c.error = c'.error)
    (hstop : c.stop = c'.stop) : c = c' := by
  cases c
  cases c'
  cases hrest
  cases herror
  cases hstop
  rfl

theorem start_of_rest {u : Located} (h : c.rest = u :: us) : c.start = u.span.start := by
  rw [Cursor.start, h]

end Cursor

namespace Grammar

section

variable {c c' : Cursor} {n k : Nat}

theorem head?_ne_of_notBefore {stops : List Token} {t : Token} (h : NotBefore stops c.rest)
    (ht : t ∈ stops) : c.head? ≠ some t := by
  intro hhead
  obtain ⟨u, hu, rfl⟩ := Option.map_eq_some_iff.mp hhead
  exact h u hu ht

theorem EndsSmall.head?_eq (h : EndsSmall c.rest) :
    c.head? = some .newline ∨ c.head? = some (.sign .semicolon) := by
  obtain ⟨t, us, hrest, ht⟩ := h
  rw [Cursor.head?, hrest]
  exact ht.imp (congrArg some) (congrArg some)

theorem EndsSmall.ne_nil {ts : List Located} (h : EndsSmall ts) : ts ≠ [] := by
  obtain ⟨t, us, rfl, -⟩ := h
  exact List.cons_ne_nil t us

theorem makeStmtBefore_ok {follows : Option Token → Bool} {form : StmtForm Stmt}
    {location : Location} {s : Stmt} (h : Grammar.makeStmt location form = .ok s) :
    makeStmtBefore follows form location c = .ok (s, c) := by
  rw [makeStmtBefore]
  rw [Grammar.makeStmt] at h
  split at h
  case isTrue hle =>
    cases h
    exact congrFun (if_pos hle) c
  case isFalse => cases h

/-! ### Lists of expressions -/

def TestList.isTuple : TestList → Bool
  | single _ => false
  | tuple .. => true

theorem act_ne_nil {s : Symbol} {d : Derivation (.comma s)} {vs : List s.Value}
    (h : d.act = .ok vs) (hd : d ≠ .noItems) : vs ≠ [] := by
  rintro rfl
  exact hd (noItems_of_act h)

theorem items_tokens_ne_nil {items : Derivation (.comma (.level .expression))}
    (h : items ≠ .noItems) : items.tokens ≠ [] := by
  cases items with
  | noItems => exact absurd rfl h
  | lastItem e => exact tokens_ne_nil e
  | item e comma rest => exact List.append_ne_nil_of_right_ne_nil _ (List.cons_ne_nil _ _)

theorem exprList_ok {t : TestList} {e : Expr} (hact : t.act c'.start = .ok e)
    (hc : c.Takes t.tokens (t.stop c'.start) c') (hrest : EndsList c'.rest)
    (hne : c'.rest ≠ []) (hn : 32 * c.rest.length + 23 ≤ n) :
    exprList n c = .ok ((e, t.isTuple), c') := by
  cases t with
  | single first =>
    have k := Cursor.Takes.consumes hc (tokens_ne_nil first)
    have hread : expression n c = .ok (e, c') :=
      (accepted first trivial).ok hact k hrest.1 hn
    have hcomma : c'.head? ≠ some (.sign .comma) := by
      rw [Cursor.head?, ← List.head?_map]
      exact hrest.2.1
    rw [exprList, bind_ok (start_eq c), bind_ok hread, bind_ok (accept_other hcomma),
      if_neg Bool.false_ne_true]
    rfl
  | tuple first comma items =>
    obtain ⟨v, hv, hact⟩ := of_bind_eq_ok hact
    obtain ⟨vs, hvs, hmake⟩ := of_bind_eq_ok hact
    obtain ⟨c₁, kfirst, k₁⟩ := Cursor.Takes.split hc (stopOf first.tokens)
    have kfirst := kfirst.consumes (tokens_ne_nil first)
    have hlength₁ := kfirst.length_le
    have hlength₂ := k₁.length_next
    have hread : expression n c = .ok (v, c₁) := (accepted first trivial).ok hv kfirst
      (by rw [k₁.rest]; exact ends_level rfl) hn
    have hplace : Location.between c.start c'.stop
        = .between (startOf (TestList.tuple first comma items).tokens)
            ((TestList.tuple first comma items).stop c'.start) :=
      Cursor.Takes.place hc (TestList.tokens_ne_nil (.tuple first comma items))
    have hmade : makeExprBefore endsBareTuple (.tuple (v :: vs)) c.start c' = .ok (e, c') := by
      rw [makeExprBefore, bind_ok (stop_eq c'), hplace]
      rw [Grammar.makeExpr] at hmake
      split at hmake
      case isTrue hle =>
        cases hmake
        exact congrFun (if_pos hle) c'
      case isFalse => cases hmake
    have haccept : accept (.sign .comma) c₁ = .ok (true, c₁.next) := accept_head k₁.head?
    rw [exprList, bind_ok (start_eq c), bind_ok hread, bind_ok haccept, if_pos rfl]
    by_cases hitems : items = .noItems
    case pos =>
      subst hitems
      cases hvs
      -- Nothing follows the comma, and the tuple reaches up to the next token.
      have k₂ := k₁.next
      have hnext : reachNext c₁.next = .ok ((), c') := by
        obtain ⟨u, us, hus⟩ := List.exists_cons_of_ne_nil hne
        have hstart : c₁.next.start = c'.stop := by
          rw [k₂.stop, Cursor.start_of_rest (k₂.rest.trans hus)]
          exact (Cursor.start_of_rest hus).symm
        rw [reachNext, hstart]
        exact congrArg (fun c => Except.ok ((), c)) (Cursor.ext_fields k₂.rest k₂.error.symm rfl)
      have hreadItems : elements n c₁.next = .ok ([], c₁.next) := by
        rw [elements_eq]
        refine @Accepted.row_end (.level .expression) trivial n c₁.next (by omega) ?_
        rw [k₂.rest]
        exact hrest.2.2
      rw [bind_ok hreadItems]
      exact (bind_ok hnext).trans (bind_ok hmade)
    case neg =>
      have hneItems := items_tokens_ne_nil hitems
      obtain ⟨u, us, rfl⟩ := List.exists_cons_of_ne_nil (act_ne_nil hvs hitems)
      have hstop : (TestList.tuple first comma items).stop c'.start = stopOf items.tokens := by
        rw [TestList.stop_tuple hitems, TestList.tokens,
          Cursor.stopOf_append (List.cons_ne_nil _ _), ← List.singleton_append,
          Cursor.stopOf_append hneItems]
      have kitems : c₁.next.Consumes items.tokens c' :=
        Cursor.Takes.consumes (hstop ▸ k₁.next) hneItems
      have hreadItems : elements n c₁.next = .ok (u :: us, c') := by
        rw [elements_eq]
        exact (accepted items trivial).ok hvs kitems hrest
          (show 32 * c₁.next.rest.length + 25 ≤ n by omega)
      rw [bind_ok hreadItems]
      exact bind_ok hmade

-- Expressions behind equals signs, with a first one before them.
theorem assigned_ok {first : TestList} {rest : List (Span × TestList)} {e : Expr}
    {es : List Expr} (hfirst : first.act (nextAssigned c'.start rest) = .ok e)
    (hacts : actAssigned c'.start rest = .ok es)
    (hc : c.Takes (first.tokens ++ assignedTokens rest)
      (((rest.getLast?.map (·.2)).getD first).stop c'.start) c')
    (hrest : EndsSmall c'.rest) (hn : 32 * c.rest.length + 23 ≤ n) (hk : c.rest.length ≤ k) :
    ∃ c₁, exprList n c = .ok ((e, first.isTuple), c₁) ∧ assigned n k c₁ = .ok (es, c')
      ∧ c₁.rest = assignedTokens rest ++ c'.rest := by
  obtain ⟨u, us, hfirstTokens, -⟩ := first.starts
  have hpos : 1 ≤ c.rest.length := by
    rw [hc.rest, hfirstTokens]
    simp
  obtain ⟨k, rfl⟩ : ∃ m, k = m + 1 := ⟨k - 1, by omega⟩
  induction rest generalizing c k first e es u us with
  | nil =>
    cases hacts
    rw [assignedTokens, List.flatMap_nil, List.append_nil] at hc
    refine ⟨c', exprList_ok hfirst hc hrest.list hrest.ne_nil hn, ?_, rfl⟩
    have hassign : c'.head? ≠ some (.sign .assign) := by
      obtain hhead | hhead := hrest.head?_eq <;> rw [hhead] <;> simp
    rw [assigned, bind_ok (accept_other hassign), if_neg Bool.false_ne_true]
    rfl
  | cons p rest ih =>
    obtain ⟨assign, t⟩ := p
    obtain ⟨et, het, hacts⟩ := of_bind_eq_ok hacts
    obtain ⟨ets, hets, hacts⟩ := of_bind_eq_ok hacts
    cases hacts
    rw [getLast_cons] at hc
    obtain ⟨c₁, kfirst, k₁⟩ :=
      hc.split (first.stop (nextAssigned c'.start ((assign, t) :: rest)))
    have hstart : c₁.start = nextAssigned c'.start ((assign, t) :: rest) :=
      Cursor.start_of_rest k₁.rest
    rw [← hstart] at hfirst kfirst
    have hlength₁ := kfirst.length_le
    have hlength₂ : c₁.next.rest.length + 1 = c₁.rest.length := k₁.length_next
    have hends : EndsList c₁.rest := by
      rw [k₁.rest]
      exact endsList_cons rfl (by simp [Grammar.sign]) rfl
    have hread := exprList_ok hfirst kfirst hends
      (by rw [k₁.rest]; exact List.cons_ne_nil _ _) hn
    obtain ⟨v, vs, htokens, -⟩ := t.starts
    have hpos : 1 ≤ c₁.next.rest.length := by
      rw [k₁.next.rest, htokens]
      simp
    obtain ⟨k, rfl⟩ : ∃ m, k = m + 1 := ⟨k - 1, by omega⟩
    obtain ⟨c₂, hreadNext, hassigned, -⟩ := ih het hets k₁.next (by omega) v vs htokens hpos k
      (by omega)
    refine ⟨c₁, hread, ?_, k₁.rest⟩
    have haccept : accept (.sign .assign) c₁ = .ok (true, c₁.next) := accept_head k₁.head?
    rw [assigned, bind_ok haccept, if_pos rfl, bind_ok hreadNext]
    exact bind_ok hassigned

/-! ### Imports -/

theorem dottedRest_ok {rest : List (Span × Name)}
    (hc : c.Consumes (rest.flatMap fun p => [Grammar.sign .dot p.1, p.2.token]) c')
    (hrest : NotBefore [.sign .dot] c'.rest) (hn : c.rest.length < n) :
    dottedRest n c = .ok (rest.map (·.2.text), c') := by
  obtain ⟨n, rfl⟩ : ∃ m, n = m + 1 := ⟨n - 1, by omega⟩
  induction rest generalizing c n with
  | nil =>
    obtain rfl := hc.eq_of_nil
    rw [dottedRest, bind_ok (accept_other (head?_ne_of_notBefore hrest (by simp))),
      if_neg Bool.false_ne_true]
    rfl
  | cons p rest ih =>
    have k₁ := hc.next
    have hlength₁ := hc.length_next
    have hlength₂ := k₁.length_next
    obtain ⟨n, rfl⟩ : ∃ m, n = m + 1 := ⟨n - 1, by omega⟩
    rw [dottedRest, bind_ok (accept_sign hc), if_pos rfl, bind_ok (identifier_head k₁.head?),
      bind_ok (ih k₁.next n (by omega))]
    rfl

theorem dottedName_ok {d : DottedName} (hc : c.Consumes d.tokens c')
    (hrest : NotBefore [.sign .dot] c'.rest) (hn : c.rest.length ≤ n) :
    dottedName n c = .ok (d.path, c') := by
  have hlength := Cursor.Consumes.length_next hc
  rw [dottedName, bind_ok (identifier_head (Cursor.Consumes.head? hc)),
    bind_ok (dottedRest_ok (Cursor.Consumes.next hc) hrest (by omega))]
  rfl

theorem alias_ok {a : ImportAlias} (hc : c.Consumes a.tokens c')
    (hrest : NotBefore [.sign .dot, .word .as_] c'.rest) (hn : c.rest.length ≤ n) :
    alias_ n c = .ok (a.value, c') := by
  obtain ⟨name, asname⟩ := a
  obtain ⟨c₁, kname, k₁⟩ := Cursor.Consumes.split hc
  cases asname with
  | none =>
    obtain rfl := Cursor.Consumes.eq_of_nil k₁
    have hdot : NotBefore [.sign .dot] c'.rest :=
      fun t ht hmem => hrest t ht (List.mem_cons.mpr (.inl (List.mem_singleton.mp hmem)))
    rw [alias_, bind_ok (dottedName_ok kname hdot hn),
      bind_ok (accept_other (head?_ne_of_notBefore hrest (by simp))), if_neg Bool.false_ne_true]
    rfl
  | some p =>
    have k₁ : c₁.Consumes [Grammar.word .as_ p.1, p.2.token] c' := k₁
    have hdot : NotBefore [.sign .dot] c₁.rest := by
      rw [k₁.rest]
      exact notBefore_cons (by simp [Grammar.word])
    have k₂ := k₁.next
    obtain rfl := k₂.next.eq_of_nil
    rw [alias_, bind_ok (dottedName_ok kname hdot hn), bind_ok (accept_word k₁), if_pos rfl,
      bind_ok (identifier_head k₂.head?)]
    rfl

theorem aliases_ok {as : ImportAliases} (hc : c.Consumes as.tokens c')
    (hrest : EndsSmall c'.rest) (hn : c.rest.length < n) :
    aliases n c = .ok (as.values, c') := by
  obtain ⟨first, rest⟩ := as
  obtain ⟨n, rfl⟩ : ∃ m, n = m + 1 := ⟨n - 1, by omega⟩
  induction rest generalizing c n first with
  | nil =>
    have kfirst : c.Consumes (first.tokens ++ []) c' := hc
    rw [List.append_nil] at kfirst
    have hcomma : c'.head? ≠ some (.sign .comma) := by
      obtain hhead | hhead := hrest.head?_eq <;> rw [hhead] <;> simp
    rw [aliases, bind_ok (alias_ok kfirst (hrest.notBefore (by simp)) (by omega)),
      bind_ok (accept_other hcomma), if_neg Bool.false_ne_true]
    rfl
  | cons p rest ih =>
    obtain ⟨comma, second⟩ := p
    obtain ⟨c₁, kfirst, k₁⟩ := Cursor.Consumes.split hc
    have k₁ : c₁.Consumes (Grammar.sign .comma comma
      :: (ImportAliases.mk second rest).tokens) c' := k₁
    have hlength₁ := kfirst.length_le
    have hlength₂ := k₁.length_next
    have hends : NotBefore [.sign .dot, .word .as_] c₁.rest := by
      rw [k₁.rest]
      exact notBefore_cons (by simp [Grammar.sign])
    obtain ⟨n, rfl⟩ : ∃ m, n = m + 1 := ⟨n - 1, by omega⟩
    rw [aliases, bind_ok (alias_ok kfirst hends (by omega)), bind_ok (accept_sign k₁), if_pos rfl,
      bind_ok (ih second k₁.next n (by omega))]
    rfl

/-! ### Simple statements -/

theorem makeSimple_ok {d : SmallStatement} {form : StmtForm Stmt} {s : Stmt}
    (hc : c.Takes d.tokens (d.stop c'.start) c')
    (h : Grammar.makeStmt (d.place c'.start) form = .ok s) :
    makeSimple form c.start c' = .ok (s, c') := by
  rw [makeSimple, bind_ok (stop_eq c'), hc.place d.tokens_ne_nil]
  exact makeStmtBefore_ok h

theorem assignment_ok {first : TestList} {rest : List (Span × TestList)} {e : Expr}
    {es : List Expr} {s : Stmt}
    (hc : c.Takes (SmallStatement.assignment first rest).tokens
      ((SmallStatement.assignment first rest).stop c'.start) c')
    (h : makeAssignment ((SmallStatement.assignment first rest).place c'.start) e es = .ok s) :
    assignment e es c.start c' = .ok (s, c') := by
  rw [makeAssignment] at h
  rw [assignment]
  cases hlast : es.getLast? with
  | none =>
    rw [hlast] at h
    exact makeSimple_ok hc h
  | some value =>
    rw [hlast] at h
    dsimp only at h ⊢
    rw [findSome?_unassignable] at h
    cases hfind : (e :: es.dropLast).find? (·.unassignable?.isSome) with
    | none =>
      rw [hfind] at h
      exact makeSimple_ok hc h
    | some target =>
      have htarget := List.find?_some hfind
      obtain ⟨part, hpart⟩ := Option.isSome_iff_exists.mp htarget
      rw [hfind, Option.bind_some, hpart] at h
      cases h

theorem startsExpression_eq (c : Cursor) : startsExpression c
    = .ok ((c.head?.map Token.startsExpression).getD false, c) :=
  rfl

theorem startsExpression_head {e : Expression} {us : List Located}
    (h : c.rest = e.tokens ++ us) : (c.head?.map Token.startsExpression).getD false = true := by
  have hstarts := (opens_tokens e).startsWith (kinds us)
  rw [← kinds_append, ← h] at hstarts
  rw [Cursor.head?, ← List.head?_map]
  exact hstarts

theorem TestList.startsExpression_head {t : TestList} {us : List Located}
    (h : c.rest = t.tokens ++ us) : (c.head?.map Token.startsExpression).getD false = true := by
  cases t with
  | single e => exact Grammar.startsExpression_head h
  | tuple first comma items =>
    rw [TestList.tokens, List.append_assoc] at h
    exact Grammar.startsExpression_head h

theorem EndsSmall.not_startsExpression (h : EndsSmall c.rest) :
    (c.head?.map Token.startsExpression).getD false = false := by
  obtain hhead | hhead := h.head?_eq <;> rw [hhead] <;> rfl

-- What begins with an expression is an assignment or an expression by itself.
theorem small_eq_exprStatement (h : (c.head?.map Token.startsExpression).getD false = true) :
    small n c = exprStatement n c := by
  rw [small, bind_ok (start_eq c), bind_ok (rfl : peek? c = .ok (c.head?, c))]
  generalize c.head? = t at h
  split
  case h_8 => rfl
  all_goals cases h

theorem exprStatement_assignment {first : TestList} {rest : List (Span × TestList)} {s : Stmt}
    (hact : (SmallStatement.assignment first rest).act c'.start = .ok s)
    (hc : c.Takes (SmallStatement.assignment first rest).tokens
      ((SmallStatement.assignment first rest).stop c'.start) c')
    (hrest : EndsSmall c'.rest) (hn : 32 * c.rest.length + 23 ≤ n) :
    exprStatement n c = .ok (s, c') := by
  obtain ⟨e, he, hact⟩ := of_bind_eq_ok hact
  obtain ⟨es, hes, hmake⟩ := of_bind_eq_ok hact
  obtain ⟨c₁, hfirst, hassigned, hc₁⟩ := assigned_ok he hes hc hrest hn (k := n) (by omega)
  have hhead : c₁.head? >>= Token.augmented? = none := by
    cases rest with
    | nil =>
      have hends : EndsSmall c₁.rest := by
        rw [hc₁]
        exact hrest
      obtain hhead | hhead := hends.head?_eq <;> rw [hhead] <;> rfl
    | cons p rest =>
      rw [Cursor.head?, hc₁]
      rfl
  have hop : (if first.isTuple = true then none else c₁.head? >>= Token.augmented?) = none := by
    rw [hhead, ite_self]
  rw [exprStatement, bind_ok (start_eq c), bind_ok hfirst]
  dsimp only
  rw [bind_ok (rfl : peek? c₁ = .ok (c₁.head?, c₁)), hop]
  exact (bind_ok hassigned).trans (assignment_ok hc hmake)

theorem exprStatement_augmented {target : Expression} {op : AugOp} {value : TestList} {s : Stmt}
    (hact : (SmallStatement.augmented target op value).act c'.start = .ok s)
    (hc : c.Takes (SmallStatement.augmented target op value).tokens
      ((SmallStatement.augmented target op value).stop c'.start) c')
    (hrest : EndsSmall c'.rest) (hn : 32 * c.rest.length + 23 ≤ n) :
    exprStatement n c = .ok (s, c') := by
  obtain ⟨e, he, hact⟩ := of_bind_eq_ok hact
  obtain ⟨v, hv, hmake⟩ := of_bind_eq_ok hact
  obtain ⟨c₁, ktarget, k₁⟩ := Cursor.Takes.split hc (stopOf target.tokens)
  have hlength₁ := ktarget.length_le
  have hlength₂ := k₁.length_next
  have hends : EndsList c₁.rest := by
    rw [k₁.rest]
    exact op.ends _
  have hreadTarget : exprList n c = .ok ((e, false), c₁) :=
    exprList_ok (t := .single target) he ktarget hends
      (by rw [k₁.rest]; exact List.cons_ne_nil _ _) hn
  have hreadValue : exprList n c₁.next = .ok ((v, value.isTuple), c') :=
    exprList_ok hv k₁.next hrest.list hrest.ne_nil (by omega)
  have hop : c₁.head? >>= Token.augmented? = some op.op := by
    rw [k₁.head?]
    exact op.op_eq
  rw [makeAugmented] at hmake
  split at hmake
  case isFalse => cases hmake
  case isTrue hplace =>
    rw [exprStatement, bind_ok (start_eq c), bind_ok hreadTarget]
    dsimp only
    rw [bind_ok (rfl : peek? c₁ = .ok (c₁.head?, c₁)), if_neg Bool.false_ne_true, hop]
    dsimp only
    rw [bind_ok (advance_head k₁.head?), bind_ok hreadValue]
    dsimp only
    rw [if_pos hplace]
    exact makeSimple_ok hc hmake

theorem small_ok {d : SmallStatement} {s : Stmt} (hact : d.act c'.start = .ok s)
    (hc : c.Takes d.tokens (d.stop c'.start) c') (hrest : EndsSmall c'.rest)
    (hn : 32 * c.rest.length + 23 ≤ n) : small n c = .ok (s, c') := by
  cases d
  case assignment first rest =>
    have hstarts : c.rest = first.tokens ++ (assignedTokens rest ++ c'.rest) := by
      rw [hc.rest, SmallStatement.tokens, List.append_assoc]
    rw [small_eq_exprStatement (TestList.startsExpression_head hstarts)]
    exact exprStatement_assignment hact hc hrest hn
  case augmented target op value =>
    have hstarts : c.rest = target.tokens ++ (op.token :: value.tokens ++ c'.rest) := by
      rw [hc.rest, SmallStatement.tokens, List.append_assoc]
    rw [small_eq_exprStatement (startsExpression_head hstarts)]
    exact exprStatement_augmented hact hc hrest hn
  all_goals
    rw [small, bind_ok (start_eq c), bind_ok (rfl : peek? c = .ok (c.head?, c)),
      Cursor.Takes.head? hc]
    refine (bind_ok (advance_head (Cursor.Takes.head? hc))).trans ?_
    have k₁ := Cursor.Takes.next hc
    have hlength := Cursor.Takes.length_next hc
  case pass | breakLoop | continueLoop =>
    have k₂ := (Cursor.Takes.consumes hc (List.cons_ne_nil _ _)).next
    rw [← k₂.eq_of_nil]
    exact makeSimple_ok hc hact
  case ret value =>
    cases value with
    | none =>
      have k₂ := (Cursor.Takes.consumes hc (List.cons_ne_nil _ _)).next
      rw [← k₂.eq_of_nil, bind_ok (startsExpression_eq c'), hrest.not_startsExpression,
        if_neg Bool.false_ne_true]
      exact makeSimple_ok hc hact
    | some value =>
      obtain ⟨v, hv, hmake⟩ := of_bind_eq_ok hact
      obtain ⟨e, he, heq⟩ := of_bind_eq_ok ((Option.mapM_some ..).symm.trans hv)
      cases heq
      have htokens : (some value).toList.flatMap TestList.tokens = value.tokens := by simp
      have k₁ : c.next.Takes value.tokens (value.stop c'.start) c' := by
        rw [← htokens]
        exact k₁
      rw [bind_ok (startsExpression_eq c.next), TestList.startsExpression_head k₁.rest, if_pos rfl,
        bind_ok (exprList_ok he k₁ hrest.list hrest.ne_nil (by omega))]
      exact makeSimple_ok hc hmake
  case raise exc =>
    cases exc with
    | none =>
      have k₂ := (Cursor.Takes.consumes hc (List.cons_ne_nil _ _)).next
      rw [← k₂.eq_of_nil, bind_ok (startsExpression_eq c'), hrest.not_startsExpression,
        if_neg Bool.false_ne_true]
      exact makeSimple_ok hc hact
    | some exc =>
      obtain ⟨v, hv, hmake⟩ := of_bind_eq_ok hact
      obtain ⟨e, he, heq⟩ := of_bind_eq_ok ((Option.mapM_some ..).symm.trans hv)
      cases heq
      have k₂ : c.next.Consumes exc.tokens c' := by
        simpa using (Cursor.Takes.consumes hc (List.cons_ne_nil _ _)).next
      have hread : expression n c.next = .ok (e, c') :=
        (accepted exc trivial).ok he k₂ hrest.list.1
          (show 32 * c.next.rest.length + 23 ≤ n by omega)
      rw [bind_ok (startsExpression_eq c.next), startsExpression_head k₂.rest, if_pos rfl,
        bind_ok hread]
      exact makeSimple_ok hc hmake
  case imports names =>
    have k₂ := (Cursor.Takes.consumes hc (List.cons_ne_nil _ _)).next
    rw [bind_ok (aliases_ok k₂ hrest (by omega))]
    exact makeSimple_ok hc hact
  case importFrom path import_ names =>
    obtain ⟨c₁, kpath, k₂⟩ := (Cursor.Takes.consumes hc (List.cons_ne_nil _ _)).next.split
    have hlength₁ := kpath.length_le
    have hlength₂ := k₂.length_next
    have hends : NotBefore [.sign .dot] c₁.rest := by
      rw [k₂.rest]
      exact notBefore_cons (by simp [Grammar.word])
    rw [bind_ok (dottedName_ok kpath hends (by omega)), bind_ok (word_eq k₂),
      bind_ok (aliases_ok k₂.next hrest (by omega))]
    exact makeSimple_ok hc hact

-- The statements of a line, up to the end of the line.
theorem smalls_ok {d : SmallStatement} {rest : List (Span × SmallStatement)}
    {semicolon : Option Span} {newline : Span} {ss : List Stmt}
    (hact : actSmalls (startOf (SimpleStatements.mk d rest semicolon newline).ending) d rest
      = .ok ss)
    (hc : c.Consumes (SimpleStatements.mk d rest semicolon newline).tokens c')
    (hn : 32 * c.rest.length + 23 ≤ n) (hk : c.rest.length ≤ k) :
    ∃ c₁, smalls n k c = .ok (ss, c₁) ∧ c₁.Consumes [⟨.newline, newline⟩] c' := by
  have hpos : 1 ≤ c.rest.length := by
    obtain ⟨u, us, htokens, -⟩ := d.starts
    rw [hc.rest, SimpleStatements.tokens, htokens]
    simp
  obtain ⟨k, rfl⟩ : ∃ m, k = m + 1 := ⟨k - 1, by omega⟩
  induction rest generalizing c k d ss with
  | nil =>
    obtain ⟨s, hs, heq⟩ := of_bind_eq_ok hact
    cases heq
    have hend : EndsSmall ((SimpleStatements.mk d [] semicolon newline).ending ++ c'.rest) := by
      cases semicolon with
      | none => exact ⟨_, _, rfl, .inl rfl⟩
      | some semicolon => exact ⟨_, _, rfl, .inr rfl⟩
    have hne : (SimpleStatements.mk d [] semicolon newline).ending ≠ [] :=
      List.append_ne_nil_of_right_ne_nil _ (List.cons_ne_nil _ _)
    obtain ⟨c₁, kd, k₁⟩ := hc.split_takes hne
      (d.stop (startOf (SimpleStatements.mk d [] semicolon newline).ending))
    have k₁ : c₁.Consumes (SimpleStatements.mk d [] semicolon newline).ending c' := k₁
    rw [← k₁.start hne] at hs kd
    have hread := small_ok hs kd (k₁.rest ▸ hend) hn
    cases semicolon with
    | none =>
      have k₁ : c₁.Consumes [⟨.newline, newline⟩] c' := k₁
      have hsemicolon : c₁.head? ≠ some (.sign .semicolon) := by
        rw [k₁.head?]
        simp
      refine ⟨c₁, ?_, k₁⟩
      rw [smalls, bind_ok hread, bind_ok (accept_other hsemicolon), if_neg Bool.false_ne_true]
      rfl
    | some semicolon =>
      have k₁ : c₁.Consumes [Grammar.sign .semicolon semicolon, ⟨.newline, newline⟩] c' := k₁
      have k₂ := k₁.next
      refine ⟨c₁.next, ?_, k₂⟩
      rw [smalls, bind_ok hread, bind_ok (accept_sign k₁), if_pos rfl,
        bind_ok (rfl : peek? c₁.next = .ok (c₁.next.head?, c₁.next)), if_pos k₂.head?]
      rfl
  | cons p rest ih =>
    obtain ⟨span, d'⟩ := p
    obtain ⟨s, hs, hact⟩ := of_bind_eq_ok hact
    obtain ⟨ss', hss, heq⟩ := of_bind_eq_ok hact
    cases heq
    have htokens : (SimpleStatements.mk d ((span, d') :: rest) semicolon newline).tokens
        = d.tokens ++ Grammar.sign .semicolon span
          :: (SimpleStatements.mk d' rest semicolon newline).tokens := by
      simp [SimpleStatements.tokens, SimpleStatements.ending, smallTokens]
    rw [htokens] at hc
    obtain ⟨c₁, kd, k₁⟩ := hc.split_takes (List.cons_ne_nil _ _) (d.stop span.start)
    have hstart : c₁.start = span.start := k₁.start (List.cons_ne_nil _ _)
    rw [← hstart] at hs kd
    have hlength₁ := kd.length_le
    have hlength₂ := k₁.length_next
    have hend : EndsSmall c₁.rest := by
      rw [k₁.rest]
      exact ⟨_, _, rfl, .inr rfl⟩
    have hread := small_ok hs kd hend hn
    have k₂ := k₁.next
    obtain ⟨u, us, hd', hu⟩ := d'.starts
    have hpos : 1 ≤ c₁.next.rest.length := by
      rw [k₂.rest, SimpleStatements.tokens, hd']
      simp
    have hnewline : c₁.next.head? ≠ some .newline := by
      rw [Cursor.head?, k₂.rest, SimpleStatements.tokens, hd']
      intro hhead
      have hhead : u.token = .newline := Option.some.inj hhead
      rw [hhead] at hu
      cases hu
    obtain ⟨k, rfl⟩ : ∃ m, k = m + 1 := ⟨k - 1, by omega⟩
    obtain ⟨c₂, hsmalls, k₃⟩ := ih hss k₂ (by omega) hpos k (by omega)
    refine ⟨c₂, ?_, k₃⟩
    rw [smalls, bind_ok hread, bind_ok (accept_sign k₁), if_pos rfl,
      bind_ok (rfl : peek? c₁.next = .ok (c₁.next.head?, c₁.next)), if_neg hnewline,
      bind_ok hsmalls]
    rfl

theorem simple_ok {d : SimpleStatements} {ss : List Stmt} (hact : d.act = .ok ss)
    (hc : c.Consumes d.tokens c') (hn : 32 * c.rest.length + 23 ≤ n) :
    simple n c = .ok (ss, c') := by
  obtain ⟨c₁, hsmalls, k₁⟩ := smalls_ok hact hc hn (k := n) (by omega)
  obtain rfl := k₁.next.eq_of_nil
  rw [simple, bind_ok hsmalls, bind_ok (expect_head k₁.head?)]
  rfl

/-! ### Parts of compound statements -/

theorem targetName_ok {name : Name} {e : Expr} (hact : name.act = .ok e)
    (hc : c.Consumes [name.token] c') : targetName c = .ok (e, c') := by
  obtain rfl := hc.next.eq_of_nil
  rw [targetName, bind_ok (start_eq c), bind_ok (identifier_head hc.head?)]
  exact makeExprBefore_ok hc (List.cons_ne_nil _ _) hact

theorem targetNames_ok {first : Name} {rest : List (Span × Name)} {es : List Expr}
    (hact : (first :: rest.map (·.2)).mapM Name.act = .ok es)
    (hc : c.Consumes (first.token :: rest.flatMap fun p => [Grammar.sign .comma p.1, p.2.token]) c')
    (hrest : NotBefore [.sign .comma] c'.rest) (hn : c.rest.length ≤ n) :
    targetNames n c = .ok (es, c') := by
  have hlength := hc.length_next
  obtain ⟨n, rfl⟩ : ∃ m, n = m + 1 := ⟨n - 1, by omega⟩
  induction rest generalizing c n first es with
  | nil =>
    obtain ⟨e, he, hact⟩ := of_bind_eq_ok ((List.mapM_cons ..).symm.trans hact)
    cases hact
    rw [targetNames, bind_ok (targetName_ok he hc),
      bind_ok (accept_other (head?_ne_of_notBefore hrest (by simp))), if_neg Bool.false_ne_true]
    rfl
  | cons p rest ih =>
    obtain ⟨e, he, hact⟩ := of_bind_eq_ok ((List.mapM_cons ..).symm.trans hact)
    obtain ⟨es', hes, heq⟩ := of_bind_eq_ok hact
    cases heq
    obtain ⟨c₁, kfirst, k₁⟩ := @Cursor.Consumes.split c c' [first.token] _ hc
    have hlength₁ := kfirst.length_le
    have hlength₂ := k₁.length_next
    have hlength₃ := k₁.next.length_next
    obtain ⟨n, rfl⟩ : ∃ m, n = m + 1 := ⟨n - 1, by omega⟩
    rw [targetNames, bind_ok (targetName_ok he kfirst), bind_ok (accept_sign k₁), if_pos rfl,
      bind_ok (ih hes k₁.next hlength₃ n (by omega))]
    rfl

theorem loopTarget_ok {t : ForTarget} {e : Expr} (hact : t.act = .ok e)
    (hc : c.Consumes t.tokens c') (hrest : NotBefore [.sign .comma] c'.rest)
    (hn : c.rest.length ≤ n) : loopTarget n c = .ok (e, c') := by
  cases t with
  | single name =>
    have hnames : [name].mapM Name.act = .ok [e] := by
      rw [List.mapM_cons]
      exact congrArg (· >>= fun e => return e :: []) hact
    have hread : targetNames n c = .ok ([e], c') :=
      @targetNames_ok c c' n name [] [e] hnames hc hrest hn
    rw [loopTarget, bind_ok (start_eq c), bind_ok hread]
    rfl
  | tuple first comma second rest =>
    obtain ⟨es, hes, hmake⟩ := of_bind_eq_ok hact
    have hread : targetNames n c = .ok (es, c') :=
      @targetNames_ok c c' n first ((comma, second) :: rest) es hes hc hrest hn
    rw [loopTarget, bind_ok (start_eq c), bind_ok hread]
    obtain ⟨e₁, _, hes⟩ := of_bind_eq_ok ((List.mapM_cons ..).symm.trans hes)
    obtain ⟨es', hes', heq⟩ := of_bind_eq_ok hes
    obtain ⟨e₂, _, hes'⟩ := of_bind_eq_ok ((List.mapM_cons ..).symm.trans hes')
    obtain ⟨es'', _, heq'⟩ := of_bind_eq_ok hes'
    cases heq'
    cases heq
    exact makeExprBefore_ok hc (List.cons_ne_nil _ _) hmake

theorem chainClauses_ok {follows : Option Token → Bool} {orelse ss : List Stmt}
    {cs : List Clause} (h : chain orelse cs = .ok ss) :
    chainClauses follows orelse cs c = .ok (ss, c) := by
  induction cs generalizing ss with
  | nil =>
    cases h
    rfl
  | cons clause cs ih =>
    obtain ⟨rest, hrest, h⟩ := of_bind_eq_ok h
    obtain ⟨s, hs, heq⟩ := of_bind_eq_ok h
    cases heq
    rw [chainClauses, bind_ok (ih hrest), bind_ok (makeStmtBefore_ok hs)]
    rfl

theorem openBlock_ok {span : Span} (hc : c.Consumes [⟨.indent, span⟩] c') :
    openBlock c = .ok ((), c') := by
  obtain rfl := hc.next.eq_of_nil
  rw [openBlock, bind_ok (accept_head hc.head?)]
  rfl

theorem makeCompound_ok {d : StmtDerivation .compound} {form : StmtForm Stmt} {s : Stmt}
    (hc : c.Consumes d.tokens c') (h : Grammar.makeStmt d.place form = .ok s) :
    makeCompound form c.start c' = .ok (s, c') := by
  rw [makeCompound, bind_ok (stop_eq c'), hc.place d.tokens_ne_nil]
  exact makeStmtBefore_ok h

end

/-! ### Statements -/

-- What is left of a block behind its first statement.
def blockRest (n : Nat) : Parser (List Stmt) := do
  if ← accept .dedent then return [] else block n

theorem block_succ (n : Nat) : block (n + 1) = (do
    let first ← statement n
    let rest ← blockRest n
    return first ++ rest) := by
  rw [block]
  simp only [blockRest, ite_bind, bind_assoc, pure_bind, List.append_nil]

def elseBlock (n : Nat) : Parser (List Stmt) := do
  if ← accept (.word .else_) then
    Parser.sign .colon
    suite n
  else return []

theorem elsePart_eq (n : Nat) : elsePart n n = (do
    let cs ← clauses n
    let orelse ← elseBlock n
    chainClauses endsCompound orelse cs) := by
  simp only [elsePart, elseBlock, ite_bind, bind_assoc, pure_bind]

-- A compound statement is read as a statement, and the statements of a block up to its end.
def StmtRead : (s : StmtSymbol) → Nat → Cursor → s.Value → Cursor → Prop
  | .statement, n, c, v, c' => statement n c = .ok (v, c')
  | .compound, n, c, v, c' => statement n c = .ok ([v], c')
  | .suite, n, c, v, c' => suite n c = .ok (v, c')
  | .statements, n, c, v, c' =>
    ∀ span c'', c'.Consumes [⟨.dedent, span⟩] c'' → blockRest n c = .ok (v, c'')
  | .clauses, n, c, v, c' => clauses n c = .ok (v, c')
  | .orelse, n, c, v, c' => elseBlock n c = .ok (v, c')

def StmtSymbol.need : StmtSymbol → Nat
  | statements => 27
  | _ => 26

def StmtAccepted {s : StmtSymbol} (d : StmtDerivation s) : Prop :=
  ∀ n c c' v, d.act = .ok v → c.Consumes d.tokens c' → s.Ends c'.rest →
    32 * c.rest.length + s.need ≤ n → StmtRead s n c v c'

namespace StmtAccepted

theorem simple (s : SimpleStatements) : StmtAccepted (.simple s) := by
  intro n c c' v hact hc hrest hn
  have hn : 32 * c.rest.length + 26 ≤ n := hn
  obtain ⟨n, rfl⟩ : ∃ m, n = m + 1 := ⟨n - 1, by omega⟩
  have hread : Parser.simple n c = .ok (v, c') := simple_ok hact hc (by omega)
  have hplain : ∀ k ∈ compoundWords, c.head? ≠ some (.word k) := by
    intro k hk hhead
    obtain ⟨⟨t, span⟩, ht, rfl⟩ := Option.map_eq_some_iff.mp hhead
    obtain ⟨ts, hts⟩ := List.head?_eq_some_iff.mp ht
    exact s.not_word hk (hts.symm.trans (Cursor.Consumes.rest hc))
  change statement (n + 1) c = _
  rw [statement, bind_ok (rfl : peek? c = .ok (c.head?, c))]
  generalize c.head? = t at hplain
  split
  case h_6 => exact hread
  case h_1 => exact absurd rfl (hplain .if_ (by decide))
  case h_2 => exact absurd rfl (hplain .while_ (by decide))
  case h_3 => exact absurd rfl (hplain .for_ (by decide))
  case h_4 => exact absurd rfl (hplain .def_ (by decide))
  case h_5 => exact absurd rfl (hplain .async_ (by decide))

theorem compound {s : StmtDerivation .compound} (hs : StmtAccepted s) :
    StmtAccepted (.compound s) := by
  intro n c c' v hact hc hrest hn
  obtain ⟨o, ho, heq⟩ := of_bind_eq_ok hact
  cases heq
  exact hs n c c' o ho hc hrest hn

theorem conditional {test : Expression} {body : StmtDerivation .suite}
    {clauses : StmtDerivation .clauses} {orelse : StmtDerivation .orelse}
    (hbody : StmtAccepted body) (hclauses : StmtAccepted clauses) (horelse : StmtAccepted orelse)
    (if_ colon : Span) : StmtAccepted (.conditional if_ test colon body clauses orelse) := by
  intro n c c' v hact hc hrest hn
  obtain ⟨t, ht, hact⟩ := of_bind_eq_ok hact
  obtain ⟨b, hb, hact⟩ := of_bind_eq_ok hact
  obtain ⟨cs, hcs, hact⟩ := of_bind_eq_ok hact
  obtain ⟨o, ho, hact⟩ := of_bind_eq_ok hact
  obtain ⟨rest, hchain, hmake⟩ := of_bind_eq_ok hact
  have hn : 32 * c.rest.length + 26 ≤ n := hn
  obtain ⟨n, rfl⟩ : ∃ m, n = m + 1 + 1 := ⟨n - 2, by omega⟩
  have hlength₁ := Cursor.Consumes.length_next hc
  obtain ⟨c₁, ktest, k₁⟩ := (Cursor.Consumes.next hc).split
  obtain ⟨c₂, kbody, k₂⟩ := k₁.next.split
  obtain ⟨c₃, kclauses, korelse⟩ := k₂.split
  have hlength₂ := ktest.length_le
  have hlength₃ := k₁.length_next
  have hlength₄ := kbody.length_le
  have hlength₅ := kclauses.length_le
  have hendsClauses : StmtSymbol.clauses.Ends c₃.rest := by
    rw [korelse.rest]
    exact StmtUnique.ends_orelse orelse hrest
  have hendsOrelse : StmtSymbol.orelse.Ends c'.rest :=
    fun t ht hmem => hrest t ht (List.mem_cons_of_mem _ hmem)
  have hreadTest : expression n c.next = .ok (t, c₁) := (accepted test trivial).ok ht ktest
    (ends_consumed k₁ rfl) (show 32 * c.next.rest.length + 23 ≤ n by omega)
  have hreadBody : suite n c₁.next = .ok (b, c₂) := hbody n _ _ b hb kbody trivial
    (show 32 * c₁.next.rest.length + 26 ≤ n by omega)
  have hreadClauses : Parser.clauses n c₂ = .ok (cs, c₃) := hclauses n _ _ cs hcs kclauses
    hendsClauses (show 32 * c₂.rest.length + 26 ≤ n by omega)
  have hreadOrelse : elseBlock n c₃ = .ok (o, c') := horelse n _ _ o ho korelse hendsOrelse
    (show 32 * c₃.rest.length + 26 ≤ n by omega)
  have hreadElse : elsePart n n c₂ = .ok (rest, c') := by
    rw [elsePart_eq, bind_ok hreadClauses, bind_ok hreadOrelse]
    exact chainClauses_ok hchain
  have hread : Parser.conditional (n + 1) c = .ok (v, c') := by
    rw [conditional_eq, bind_ok (start_eq c), bind_ok (word_eq hc), bind_ok hreadTest,
      bind_ok (sign_eq k₁), bind_ok hreadBody, bind_ok hreadElse]
    exact makeCompound_ok hc hmake
  change statement (n + 1 + 1) c = _
  rw [statement, bind_ok (rfl : peek? c = .ok (c.head?, c)), Cursor.Consumes.head? hc]
  exact bind_ok hread

theorem whileLoop {test : Expression} {body : StmtDerivation .suite} (hbody : StmtAccepted body)
    (while_ colon : Span) : StmtAccepted (.whileLoop while_ test colon body) := by
  intro n c c' v hact hc hrest hn
  obtain ⟨t, ht, hact⟩ := of_bind_eq_ok hact
  obtain ⟨b, hb, hmake⟩ := of_bind_eq_ok hact
  have hn : 32 * c.rest.length + 26 ≤ n := hn
  obtain ⟨n, rfl⟩ : ∃ m, n = m + 1 + 1 := ⟨n - 2, by omega⟩
  have hlength₁ := Cursor.Consumes.length_next hc
  obtain ⟨c₁, ktest, k₁⟩ := (Cursor.Consumes.next hc).split
  have hlength₂ := ktest.length_le
  have hlength₃ := k₁.length_next
  have hreadTest : expression n c.next = .ok (t, c₁) := (accepted test trivial).ok ht ktest
    (ends_consumed k₁ rfl) (show 32 * c.next.rest.length + 23 ≤ n by omega)
  have hreadBody : suite n c₁.next = .ok (b, c') := hbody n _ _ b hb k₁.next trivial
    (show 32 * c₁.next.rest.length + 26 ≤ n by omega)
  have hread : Parser.whileLoop (n + 1) c = .ok (v, c') := by
    rw [Parser.whileLoop, bind_ok (start_eq c), bind_ok (word_eq hc), bind_ok hreadTest,
      bind_ok (sign_eq k₁), bind_ok hreadBody]
    exact makeCompound_ok hc hmake
  change statement (n + 1 + 1) c = _
  rw [statement, bind_ok (rfl : peek? c = .ok (c.head?, c)), Cursor.Consumes.head? hc]
  exact bind_ok hread

theorem forLoop {target : ForTarget} {iter : Expression} {body : StmtDerivation .suite}
    (hbody : StmtAccepted body) (for_ in_ colon : Span) :
    StmtAccepted (.forLoop for_ target in_ iter colon body) := by
  intro n c c' v hact hc hrest hn
  obtain ⟨t, ht, hact⟩ := of_bind_eq_ok hact
  obtain ⟨i, hi, hact⟩ := of_bind_eq_ok hact
  obtain ⟨b, hb, hmake⟩ := of_bind_eq_ok hact
  have hn : 32 * c.rest.length + 26 ≤ n := hn
  obtain ⟨n, rfl⟩ : ∃ m, n = m + 1 + 1 := ⟨n - 2, by omega⟩
  have hlength₁ := Cursor.Consumes.length_next hc
  obtain ⟨c₁, ktarget, k₁⟩ := (Cursor.Consumes.next hc).split
  obtain ⟨c₂, kiter, k₂⟩ := k₁.next.split
  have hlength₂ := ktarget.length_le
  have hlength₃ := k₁.length_next
  have hlength₄ := kiter.length_le
  have hlength₅ := k₂.length_next
  have hendsTarget : NotBefore [.sign .comma] c₁.rest := by
    rw [k₁.rest]
    exact notBefore_cons (by simp [Grammar.word])
  have hreadIter : expression n c₁.next = .ok (i, c₂) := (accepted iter trivial).ok hi kiter
    (ends_consumed k₂ rfl) (show 32 * c₁.next.rest.length + 23 ≤ n by omega)
  have hreadBody : suite n c₂.next = .ok (b, c') := hbody n _ _ b hb k₂.next trivial
    (show 32 * c₂.next.rest.length + 26 ≤ n by omega)
  have hread : Parser.forLoop (n + 1) c = .ok (v, c') := by
    rw [Parser.forLoop, bind_ok (start_eq c), bind_ok (word_eq hc),
      bind_ok (loopTarget_ok ht ktarget hendsTarget (by omega)), bind_ok (word_eq k₁),
      bind_ok hreadIter, bind_ok (sign_eq k₂), bind_ok hreadBody]
    exact makeCompound_ok hc hmake
  change statement (n + 1 + 1) c = _
  rw [statement, bind_ok (rfl : peek? c = .ok (c.head?, c)), Cursor.Consumes.head? hc]
  exact bind_ok hread

-- A definition behind the word before it, if there is one.
theorem accept_async {async_ : Option Span} {c c' : Cursor} {def_ : Span} {us : List Located}
    (hc : c.Consumes (async_.toList.map (Grammar.word .async_) ++ Grammar.word .def_ def_ :: us)
      c') : ∃ c₁, accept (.word .async_) c = .ok (async_.isSome, c₁)
        ∧ c₁.Consumes (Grammar.word .def_ def_ :: us) c' ∧ c₁.rest.length ≤ c.rest.length := by
  cases async_ with
  | none =>
    have k₁ : c.Consumes (Grammar.word .def_ def_ :: us) c' := hc
    have hasync : c.head? ≠ some (.word .async_) := by
      rw [k₁.head?]
      simp [Grammar.word]
    exact ⟨c, accept_other hasync, k₁, Nat.le_refl _⟩
  | some span =>
    have k₁ : c.Consumes (Grammar.word .async_ span :: Grammar.word .def_ def_ :: us) c' := hc
    have hlength := k₁.length_next
    exact ⟨c.next, accept_word k₁, k₁.next, by omega⟩

theorem statement_define {async_ : Option Span} {c c' : Cursor} {def_ : Span}
    {us : List Located} {n : Nat}
    (hc : c.Consumes (async_.toList.map (Grammar.word .async_) ++ Grammar.word .def_ def_ :: us)
      c') : statement (n + 1) c = (do return [← definition n] : Parser (List Stmt)) c := by
  rw [statement, bind_ok (rfl : peek? c = .ok (c.head?, c))]
  cases async_ <;> rw [Cursor.Consumes.head? hc] <;> rfl

theorem define {async_ : Option Span} {params : Derivation (.comma .parameter)}
    {body : StmtDerivation .suite} (hbody : StmtAccepted body) (def_ : Span) (name : Name)
    (opening closing colon : Span) :
    StmtAccepted (.define async_ def_ name opening params closing colon body) := by
  intro n c c' v hact hc hrest hn
  obtain ⟨ps, hps, hact⟩ := of_bind_eq_ok hact
  obtain ⟨b, hb, hmake⟩ := of_bind_eq_ok hact
  have hn : 32 * c.rest.length + 26 ≤ n := hn
  obtain ⟨n, rfl⟩ : ∃ m, n = m + 1 + 1 := ⟨n - 2, by omega⟩
  have htokens : c.Consumes (async_.toList.map (Grammar.word .async_) ++ Grammar.word .def_ def_
    :: (name.token :: Grammar.sign .lparen opening :: (params.tokens
      ++ Grammar.sign .rparen closing :: Grammar.sign .colon colon :: body.tokens))) c' := hc
  obtain ⟨c₁, hasync, k₁, hlength₁⟩ := accept_async htokens
  have k₂ := k₁.next
  have k₃ := k₂.next
  obtain ⟨c₂, kparams, k₄⟩ := k₃.next.split
  have k₅ := k₄.next
  have hlength₂ := k₁.length_next
  have hlength₃ := k₂.length_next
  have hlength₄ := k₃.length_next
  have hlength₅ := kparams.length_le
  have hlength₆ := k₄.length_next
  have hlength₇ := k₅.length_next
  have hends : (Symbol.comma .parameter).Ends c₂.rest := by
    rw [k₄.rest]
    exact ends_closing trivial rfl
  have hreadParams : Parser.params n c₁.next.next.next = .ok (ps, c₂) := by
    rw [params_eq]
    exact (accepted params trivial).ok hps kparams hends
      (show 32 * c₁.next.next.next.rest.length + 25 ≤ n by omega)
  have hreadBody : suite n c₂.next.next = .ok (b, c') := hbody n _ _ b hb k₅.next trivial
    (show 32 * c₂.next.next.rest.length + 26 ≤ n by omega)
  have hread : definition (n + 1) c = .ok (v, c') := by
    rw [definition, bind_ok (start_eq c), bind_ok hasync, bind_ok (word_eq k₁),
      bind_ok (identifier_head k₂.head?), bind_ok (sign_eq k₃), bind_ok hreadParams,
      bind_ok (sign_eq k₄), bind_ok (sign_eq k₅), bind_ok hreadBody]
    exact makeCompound_ok hc hmake
  change statement (n + 1 + 1) c = _
  rw [statement_define htokens]
  exact bind_ok hread

theorem line (s : SimpleStatements) : StmtAccepted (.line s) := by
  intro n c c' v hact hc hrest hn
  have hn : 32 * c.rest.length + 26 ≤ n := hn
  obtain ⟨n, rfl⟩ : ∃ m, n = m + 1 := ⟨n - 1, by omega⟩
  have hread : Parser.simple n c = .ok (v, c') := simple_ok hact hc (by omega)
  have hnewline : c.head? ≠ some .newline := by
    obtain ⟨t, us, htokens, ht⟩ := s.starts
    rw [Cursor.head?, Cursor.Consumes.rest hc, StmtDerivation.tokens, htokens]
    intro hhead
    have hhead : t.token = .newline := Option.some.inj hhead
    rw [hhead] at ht
    cases ht
  change suite (n + 1) c = _
  rw [suite, bind_ok (accept_other hnewline), if_neg Bool.false_ne_true]
  exact hread

theorem block {first : StmtDerivation .statement} {more : StmtDerivation .statements}
    (hfirst : StmtAccepted first) (hmore : StmtAccepted more) (newline indent dedent : Span) :
    StmtAccepted (.block newline indent first more dedent) := by
  intro n c c' v hact hc hrest hn
  obtain ⟨f, hf, hact⟩ := of_bind_eq_ok hact
  obtain ⟨m, hm, heq⟩ := of_bind_eq_ok hact
  cases heq
  have hn : 32 * c.rest.length + 26 ≤ n := hn
  obtain ⟨n, rfl⟩ : ∃ m, n = m + 1 + 1 := ⟨n - 2, by omega⟩
  have k₁ := Cursor.Consumes.next hc
  obtain ⟨c₁, kindent, k₂⟩ := @Cursor.Consumes.split c.next c' [⟨.indent, indent⟩] _ k₁
  obtain ⟨c₂, kfirst, k₃⟩ := k₂.split
  obtain ⟨c₃, kmore, k₄⟩ := k₃.split
  have hlength₁ := Cursor.Consumes.length_next hc
  have hlength₂ := kindent.length_next
  have hlength₃ := kindent.next.length_le
  have hlength₄ := kfirst.length_le
  have hends : StmtSymbol.statements.Ends c₃.rest := by
    rw [k₄.rest]
    intro t ht
    obtain rfl := Option.some.inj ht
    rfl
  have hendsFirst : StmtSymbol.statement.Ends c₂.rest := by
    rw [kmore.rest]
    exact ends_statements more hends
  have hreadFirst : statement n c₁ = .ok (f, c₂) := hfirst n _ _ f hf kfirst hendsFirst
    (show 32 * c₁.rest.length + 26 ≤ n by omega)
  have hreadMore : blockRest n c₂ = .ok (m, c') := hmore n _ _ m hm kmore hends
    (show 32 * c₂.rest.length + 27 ≤ n by omega) dedent c' k₄
  change suite (n + 1 + 1) c = _
  rw [suite, bind_ok (accept_head (Cursor.Consumes.head? hc)), if_pos rfl,
    bind_ok (openBlock_ok kindent), block_succ, bind_ok hreadFirst, bind_ok hreadMore]
  rfl

theorem noStatements : StmtAccepted .noStatements := by
  intro n c c' v hact hc hrest hn span c'' hdedent
  obtain rfl := Cursor.Consumes.eq_of_nil hc
  cases hact
  obtain rfl := hdedent.next.eq_of_nil
  rw [blockRest, bind_ok (accept_head hdedent.head?)]
  rfl

theorem more {first : StmtDerivation .statement} {more : StmtDerivation .statements}
    (hfirst : StmtAccepted first) (hmore : StmtAccepted more) :
    StmtAccepted (.more first more) := by
  intro n c c' v hact hc hrest hn span c'' hdedent
  obtain ⟨f, hf, hact⟩ := of_bind_eq_ok hact
  obtain ⟨m, hm, heq⟩ := of_bind_eq_ok hact
  cases heq
  have hn : 32 * c.rest.length + 27 ≤ n := hn
  obtain ⟨n, rfl⟩ : ∃ m, n = m + 1 := ⟨n - 1, by omega⟩
  obtain ⟨c₁, kfirst, kmore⟩ := Cursor.Consumes.split hc
  obtain ⟨t, us, htokens, ht⟩ := first.starts (.inl rfl)
  have hrestTokens : c.rest = t :: (us ++ c₁.rest) := by
    rw [kfirst.rest, htokens, List.cons_append]
  have hlength : c₁.rest.length + 1 ≤ c.rest.length := by
    rw [hrestTokens]
    simp
  have hstarts : c.head? ≠ some .dedent := by
    rw [Cursor.head?, hrestTokens]
    intro hhead
    have hhead : t.token = .dedent := Option.some.inj hhead
    rw [hhead] at ht
    cases ht
  have hendsFirst : StmtSymbol.statement.Ends c₁.rest := by
    rw [kmore.rest]
    exact ends_statements more hrest
  have hreadFirst : statement n c = .ok (f, c₁) := hfirst n _ _ f hf kfirst hendsFirst
    (show 32 * c.rest.length + 26 ≤ n by omega)
  have hreadMore : blockRest n c₁ = .ok (m, c'') := hmore n _ _ m hm kmore hrest
    (show 32 * c₁.rest.length + 27 ≤ n by omega) span c'' hdedent
  rw [blockRest, bind_ok (accept_other hstarts), if_neg Bool.false_ne_true, block_succ,
    bind_ok hreadFirst, bind_ok hreadMore]
  rfl

theorem noClauses : StmtAccepted .noClauses := by
  intro n c c' v hact hc hrest hn
  obtain rfl := Cursor.Consumes.eq_of_nil hc
  cases hact
  have hn : 32 * c'.rest.length + 26 ≤ n := hn
  obtain ⟨n, rfl⟩ : ∃ m, n = m + 1 := ⟨n - 1, by omega⟩
  change Parser.clauses (n + 1) c' = _
  rw [Parser.clauses, bind_ok (start_eq c'),
    bind_ok (accept_other (head?_ne_of_notBefore hrest (by simp))), if_neg Bool.false_ne_true]
  rfl

theorem clause {test : Expression} {body : StmtDerivation .suite}
    {clauses : StmtDerivation .clauses} (hbody : StmtAccepted body)
    (hclauses : StmtAccepted clauses) (elif_ colon : Span) :
    StmtAccepted (.clause elif_ test colon body clauses) := by
  intro n c c' v hact hc hrest hn
  obtain ⟨t, ht, hact⟩ := of_bind_eq_ok hact
  obtain ⟨b, hb, hact⟩ := of_bind_eq_ok hact
  obtain ⟨cs, hcs, heq⟩ := of_bind_eq_ok hact
  cases heq
  have hn : 32 * c.rest.length + 26 ≤ n := hn
  obtain ⟨n, rfl⟩ : ∃ m, n = m + 1 := ⟨n - 1, by omega⟩
  obtain ⟨c₃, kclause, kclauses⟩ := Cursor.Consumes.split hc
  have hlength₁ := kclause.length_next
  obtain ⟨c₁, ktest, k₁⟩ := kclause.next.split
  have hlength₂ := ktest.length_le
  have hlength₃ := k₁.length_next
  have hlength₄ := k₁.next.length_le
  have hreadTest : expression n c.next = .ok (t, c₁) := (accepted test trivial).ok ht ktest
    (ends_consumed k₁ rfl) (show 32 * c.next.rest.length + 23 ≤ n by omega)
  have hreadBody : suite n c₁.next = .ok (b, c₃) := hbody n _ _ b hb k₁.next trivial
    (show 32 * c₁.next.rest.length + 26 ≤ n by omega)
  have hreadClauses : Parser.clauses n c₃ = .ok (cs, c') := hclauses n _ _ cs hcs kclauses hrest
    (show 32 * c₃.rest.length + 26 ≤ n by omega)
  change Parser.clauses (n + 1) c = _
  rw [Parser.clauses, bind_ok (start_eq c), bind_ok (accept_word kclause), if_pos rfl,
    bind_ok hreadTest, bind_ok (sign_eq k₁), bind_ok hreadBody, bind_ok (stop_eq c₃),
    bind_ok hreadClauses, kclause.place (List.cons_ne_nil _ _)]
  rfl

theorem nothingElse : StmtAccepted .nothingElse := by
  intro n c c' v hact hc hrest hn
  obtain rfl := Cursor.Consumes.eq_of_nil hc
  cases hact
  change elseBlock n c' = _
  rw [elseBlock, bind_ok (accept_other (head?_ne_of_notBefore hrest (by simp))),
    if_neg Bool.false_ne_true]
  rfl

theorem otherwise {body : StmtDerivation .suite} (hbody : StmtAccepted body)
    (else_ colon : Span) : StmtAccepted (.otherwise else_ colon body) := by
  intro n c c' v hact hc hrest hn
  have hn : 32 * c.rest.length + 26 ≤ n := hn
  have k₁ := Cursor.Consumes.next hc
  have hlength₁ := Cursor.Consumes.length_next hc
  have hlength₂ := k₁.length_next
  have hreadBody : suite n c.next.next = .ok (v, c') := hbody n _ _ v hact k₁.next trivial
    (show 32 * c.next.next.rest.length + 26 ≤ n by omega)
  change elseBlock n c = _
  rw [elseBlock, bind_ok (accept_word hc), if_pos rfl, bind_ok (sign_eq k₁)]
  exact hreadBody

end StmtAccepted

theorem stmtAccepted {s : StmtSymbol} (d : StmtDerivation s) : StmtAccepted d := by
  induction d with
  | simple s => exact .simple s
  | compound s hs => exact .compound hs
  | conditional if_ test colon body clauses orelse hbody hclauses horelse =>
    exact .conditional hbody hclauses horelse if_ colon
  | whileLoop while_ test colon body hbody => exact .whileLoop hbody while_ colon
  | forLoop for_ target in_ iter colon body hbody => exact .forLoop hbody for_ in_ colon
  | define async_ def_ name opening params closing colon body hbody =>
    exact .define hbody def_ name opening closing colon
  | line s => exact .line s
  | block newline indent first more dedent hfirst hmore =>
    exact .block hfirst hmore newline indent dedent
  | noStatements => exact .noStatements
  | more first more hfirst hmore => exact .more hfirst hmore
  | noClauses => exact .noClauses
  | clause elif_ test colon body clauses hbody hclauses =>
    exact .clause hbody hclauses elif_ colon
  | nothingElse => exact .nothingElse
  | otherwise else_ colon body hbody => exact .otherwise hbody else_ colon

-- A program is read up to the end of the source.
theorem statements_ok (d : Program) {n : Nat} {c c' : Cursor} {ss : List Stmt}
    (hact : d.act = .ok ss) (hc : c.Consumes d.tokens c') (hend : c'.rest = [])
    (herror : c'.error = none) (hn : 32 * c.rest.length + 27 ≤ n) :
    statements n c = .ok (ss, c') := by
  obtain ⟨n, rfl⟩ : ∃ m, n = m + 1 := ⟨n - 1, by omega⟩
  match d with
  | .noStatements =>
    obtain rfl := Cursor.Consumes.eq_of_nil hc
    cases hact
    obtain ⟨rest, error, stop⟩ := c'
    cases hend
    cases herror
    rfl
  | .more first more =>
    obtain ⟨f, hf, hact⟩ := of_bind_eq_ok hact
    obtain ⟨m, hm, heq⟩ := of_bind_eq_ok hact
    cases heq
    obtain ⟨c₁, kfirst, kmore⟩ := Cursor.Consumes.split hc
    obtain ⟨t, us, htokens, -⟩ := first.starts (.inl rfl)
    have hrestTokens : c.rest = t :: (us ++ c₁.rest) := by
      rw [kfirst.rest, htokens, List.cons_append]
    have hlength : c₁.rest.length + 1 ≤ c.rest.length := by
      rw [hrestTokens]
      simp
    have hends : StmtSymbol.statements.Ends c'.rest := by
      rw [hend]
      nofun
    have hendsFirst : StmtSymbol.statement.Ends c₁.rest := by
      rw [kmore.rest]
      exact ends_statements more hends
    have hreadFirst : statement n c = .ok (f, c₁) := stmtAccepted first n _ _ f hf kfirst
      hendsFirst (show 32 * c.rest.length + 26 ≤ n by omega)
    have hreadMore : statements n c₁ = .ok (m, c') :=
      statements_ok more hm kmore hend herror (by omega)
    obtain ⟨rest, error, stop⟩ := c
    cases hrestTokens
    rw [statements]
    refine (bind_ok (a := ⟨_, error, stop⟩) rfl).trans ?_
    exact (bind_ok hreadFirst).trans (bind_ok hreadMore)

end Grammar
end NoteCell
