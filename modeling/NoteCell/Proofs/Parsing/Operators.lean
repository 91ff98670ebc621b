import NoteCell.Proofs.Parsing.Levels
import Mathlib.Data.List.Forall2

/-!
Operators. An operation is read as soon as its operands are read at the levels that it asks of them.
Operators that group to the left are read by a loop, and what is read so far is its left operand.
-/
namespace NoteCell

open NoteCell.Parser

section

variable {info : NodeInfo} {tl tr : List Token} {left right : Expr} {t : Token}

theorem Joint.children_form (joint : Joint) (left right : Expr) :
    (joint.form left right).children = [left, right] := by
  cases joint <;> rfl

theorem Joint.map_form (joint : Joint) {left right left' right' : Expr}
    (hl : left'.bare = left.bare) (hr : right'.bare = right.bare) :
    (joint.form left' right').map Expr.bare = (joint.form left right).map Expr.bare := by
  cases joint <;> simp [Joint.form, ExprForm.map, hl, hr]

theorem ReadsLeft.joint {f : Family} (joint : Joint) (hl : ReadsLeft f tl left)
    (hr : Reads (f.strength + 1) tr right) (hj : f.joint? t = some joint)
    (ht : t.hold = f.strength) :
    ReadsLeft f (tl ++ t :: tr) (.node info (joint.form left right)) := by
  intro n c rest hc hn hrest
  have below {e : Expr} (he : e ∈ [left, right]) (h : (Expr.node info (joint.form left right)).Fits) :
      e.Fits := h.child (joint.children_form left right ▸ he)
  rw [List.append_assoc, List.cons_append] at hc hn
  obtain ⟨_, m, e', c', he', hm, heq⟩ | ⟨hf, err, heq⟩ := hl n c (t :: (tr ++ rest)) hc hn (Nat.le_of_eq ht)
  case inr => exact .inr ⟨fun h => hf (below (by simp) h), err, heq⟩
  case inl =>
    obtain ⟨m, rfl⟩ : ∃ k, m = k + 1 + 1 := ⟨m - 2, by simp at hm; omega⟩
    have hread := hr m c'.next rest he'.faces.next (by simp [fuelFor] at hm ⊢; omega)
      (Nat.lt_succ_of_le hrest)
    have hjoint : (t :: (tr ++ rest)).head? >>= f.joint? = some joint := hj
    rw [heq]
    change Reaches _ _ _ (joined (m + 1 + 1) f c.start e' c')
    rw [joined, bind_ok (peek?_eq he'.faces), hjoint]
    simp only []
    rw [bind_ok (advance_eq he'.faces), operand_eq, ← bind_assoc]
    refine Verdict.reaches (hread.seq (below (by simp)) fun _ r' c'' hr' => ?_)
      (by simp at hm; omega)
    refine verdict_makeExprBefore (joint.map_form he'.bare hr'.bare) ?_ hr'.faces
    simp [joint.children_form, he'.nested, hr'.nested]

theorem lt_sign_of_lt_power {ts : List Token} (h : holdOf ts < Strength.power) :
    holdOf ts < Strength.sign := by
  cases ts
  case nil => decide
  case cons t ts =>
    rw [holdOf_cons] at h ⊢
    unfold Token.hold at h ⊢
    split <;> simp_all [Strength.power, Strength.sign, Strength.atom] <;> decide

theorem Reads.pow (hl : Reads Strength.await tl left) (hr : Reads Strength.sign tr right) :
    Reads Strength.power (tl ++ .sign .doubleStar :: tr) (.node info (.binary .pow left right)) := by
  intro n c rest hc hn hrest
  have ⟨m, hm, hlt⟩ := fuel_step hn (by decide)
  rw [List.append_assoc, List.cons_append] at hc hlt
  change Verdict _ (Parser.power n c) _
  rw [hm, Parser.power, bind_ok (start_eq c)]
  refine (hl m c _ hc (Nat.le_of_lt hlt) (Nat.lt_succ_self _)).seq
    (fun h => h.child (List.mem_cons_self ..)) fun _ l' c' hl' => ?_
  rw [bind_ok (accept_eq hl'.faces), if_pos rfl]
  have hread := hr m c'.next rest hl'.faces.next (by simp [fuelFor, Strength.sign] at hlt ⊢; omega)
    (lt_sign_of_lt_power hrest)
  refine hread.seq (fun h => h.child (List.mem_cons_of_mem _ (List.mem_cons_self ..)))
    fun _ r' c'' hr' => ?_
  exact verdict_makeExprBefore (by simp [ExprForm.map, hl'.bare, hr'.bare])
    (by simp [ExprForm.children, hl'.nested, hr'.nested]) hr'.faces

theorem Reads.unary {op : UnaryOp} {ts : List Token} {e : Expr} (h : Reads op.strength ts e) :
    Reads op.strength (op.token :: ts) (.node info (.unary op e)) := by
  intro n c rest hc hn hrest
  have hk : op.strength < 12 := by cases op <;> decide
  have ⟨m, hm, hlt⟩ := fuel_step hn hk
  have hread := h m c.next rest hc.next
    (by simp only [fuelFor, List.cons_append, List.length_cons] at hlt ⊢; omega) hrest
  have hmake (e' : Expr) (c' : Cursor) (k : Nat) (he' : Reading e rest e' c') :
      Verdict (Expr.node info (.unary op e)).Fits (makeExpr k (.unary op e') c.start c')
        (Reading (.node info (.unary op e)) rest) :=
    verdict_makeExprBefore (by simp [ExprForm.map, he'.bare])
      (by simp [ExprForm.children, he'.nested]) he'.faces
  have hchild : (Expr.node info (.unary op e)).Fits → e.Fits := fun h => h.child (by simp [ExprForm.children])
  cases op
  case not =>
    change Verdict _ (negation n c) _
    rw [hm, negation, bind_ok (start_eq c),
      bind_ok (accept_eq (t := .word .not_) hc), if_pos rfl]
    exact hread.seq hchild fun _ e' c' he' => hmake e' c' 2 he'
  case neg =>
    change Verdict _ (factor n c) _
    rw [hm, factor, bind_ok (start_eq c),
      bind_ok (accept_eq (t := .sign .minus) hc), if_pos rfl]
    exact hread.seq hchild fun _ e' c' he' => hmake e' c' 4 he'
  case pos =>
    change Verdict _ (factor n c) _
    rw [hm, factor, bind_ok (start_eq c),
      bind_ok (accept_ne (t := .sign .minus) hc (by simp [UnaryOp.token])), if_neg (by simp),
      bind_ok (accept_eq (t := .sign .plus) hc), if_pos rfl]
    exact hread.seq hchild fun _ e' c' he' => hmake e' c' 4 he'

theorem Reads.awaiting {ts : List Token} {e : Expr} (h : Reads Strength.atom ts e) :
    Reads Strength.await (.word .await_ :: ts) (.node info (.await e)) := by
  intro n c rest hc hn hrest
  have ⟨m, hm, hlt⟩ := fuel_step hn (by decide)
  change Verdict _ (awaited n c) _
  rw [hm, awaited, bind_ok (start_eq c), bind_ok (accept_eq hc), if_pos rfl]
  refine (h m c.next rest hc.next ?_ (Nat.lt_succ_of_lt hrest)).seq
    (fun h => h.child (List.mem_cons_self ..)) fun _ e' c' he' => ?_
  · simp only [fuelFor, List.cons_append, List.length_cons] at hlt ⊢
    omega
  · exact verdict_makeExprBefore (by simp [ExprForm.map, he'.bare])
      (by simp [ExprForm.children, he'.nested]) he'.faces

theorem Reads.conditional {tb tt te : List Token} {test body orelse : Expr}
    (hb : Reads Strength.or tb body) (ht : Reads Strength.or tt test)
    (ho : Reads Strength.test te orelse) :
    Reads Strength.test (tb ++ .word .if_ :: tt ++ .word .else_ :: te)
      (.node info (.conditional test body orelse)) := by
  intro n c rest hc hn hrest
  have ⟨m, hm, hlt⟩ := fuel_step hn (by decide)
  simp only [List.append_assoc, List.cons_append] at hc hlt
  have hchild {e : Expr} (he : e ∈ [test, body, orelse])
      (h : (Expr.node info (.conditional test body orelse)).Fits) : e.Fits := h.child he
  change Verdict _ (expression n c) _
  rw [hm, expression, bind_ok (start_eq c)]
  refine (hb m c _ hc (Nat.le_of_lt hlt) (Nat.lt_succ_self _)).seq (hchild (by simp)) fun _ b' cb hb' => ?_
  rw [bind_ok (accept_eq hb'.faces), if_pos rfl]
  refine (ht m cb.next _ hb'.faces.next ?_ (Nat.zero_lt_succ _)).seq (hchild (by simp))
    fun _ t' ct ht' => ?_
  · simp only [fuelFor, List.length_append, List.length_cons] at hlt ⊢
    omega
  rw [word, bind_ok (expect_eq ht'.faces)]
  refine (ho m ct.next _ ht'.faces.next ?_ hrest).seq (hchild (by simp)) fun _ o' co ho' => ?_
  · simp only [fuelFor, List.length_append, List.length_cons, Strength.test] at hlt ⊢
    omega
  exact verdict_makeExprBefore (by simp [ExprForm.map, ht'.bare, hb'.bare, ho'.bare])
    (by simp [ExprForm.children, ht'.nested, hb'.nested, ho'.nested]) ho'.faces

end

/-! ### Comparisons -/

theorem compareOp?_eq (op : CompareOp) {c : Cursor} {ts : List Token}
    (hc : c.Faces (op.tokens ++ ts)) (ho : Opens Strength.sum ts) :
    ∃ c', compareOp? c = .ok (some op, c') ∧ c'.Faces ts := by
  rw [compareOp?, bind_ok (peek?_eq hc)]
  cases op
  case notIn =>
    refine ⟨c.next.next, ?_, hc.next.next⟩
    change (advance >>= _) c = _
    rw [bind_ok (advance_eq hc), word, bind_ok (expect_eq hc.next)]
    rfl
  case is =>
    have hnot : ts.head? ≠ some (.word .not_) := by
      have : (ts ++ []).head? ≠ some (.word .not_) := ho.head?_ne rfl
      simpa using this
    refine ⟨c.next, ?_, hc.next⟩
    change (advance >>= _) c = _
    rw [bind_ok (advance_eq hc), bind_ok (accept_ne hc.next hnot)]
    rfl
  case isNot =>
    refine ⟨c.next.next, ?_, hc.next.next⟩
    change (advance >>= _) c = _
    rw [bind_ok (advance_eq hc), bind_ok (accept_eq hc.next)]
    rfl
  all_goals
    refine ⟨c.next, ?_, hc.next⟩
    change (advance >>= _) c = _
    rw [bind_ok (advance_eq hc)]
    rfl

theorem hold_comparisonTokens (part : CompareOp × Expr) (ts : List Token) :
    holdOf (comparisonTokens part ++ ts) = Strength.comparison := by
  have ⟨op, e⟩ := part
  cases op <;> rfl

def PartMirrors (part part' : CompareOp × Expr) : Prop :=
  part.1 = part'.1 ∧ Mirrors part.2 part'.2

theorem PartMirrors.rows {parts parts' : List (CompareOp × Expr)}
    (h : List.Forall₂ PartMirrors parts parts') :
    (parts'.map fun (op, e) => (op, e.bare)) = parts.map (fun (op, e) => (op, e.bare))
      ∧ ∀ p ∈ parts', p.2.WellNested := by
  induction h
  case nil => simp
  case cons hd _ ih =>
    exact ⟨by simp [hd.1, hd.2.bare, ih.1], List.forall_mem_cons.mpr ⟨hd.2.nested, ih.2⟩⟩

theorem reads_comparisons {parts : List (CompareOp × Expr)}
    (h : ∀ p ∈ parts, Reads Strength.sum (p.2.tokens Strength.sum) p.2) {n : Nat} {c : Cursor}
    {rest : List Token} (hc : c.Faces (parts.flatMap comparisonTokens ++ rest))
    (hn : 32 * (parts.flatMap comparisonTokens ++ rest).length < n)
    (hrest : holdOf rest < Strength.comparison) :
    Verdict (∀ p ∈ parts, p.2.Fits) (comparisons n c)
      fun parts' c' => List.Forall₂ PartMirrors parts parts' ∧ c'.Faces rest := by
  induction parts generalizing n c
  case nil =>
    rw [comparisons_eq hc (by omega) hrest]
    exact .ok (by simp) ⟨.nil, hc⟩
  case cons p ps ih =>
    obtain ⟨n, rfl⟩ : ∃ m, n = m + 1 := ⟨n - 1, by omega⟩
    simp only [List.flatMap_cons, comparisonTokens, List.append_assoc] at hc hn
    have hops : 0 < p.1.tokens.length := by cases p.1 <;> decide
    obtain ⟨c', hop, hc'⟩ := compareOp?_eq p.1 hc ((p.2.opens_tokens _ (by decide)).append _)
    have hhold : holdOf (ps.flatMap comparisonTokens ++ rest) < Strength.sum := by
      cases ps
      case nil => exact Nat.lt_succ_of_lt hrest
      case cons q qs =>
        rw [List.flatMap_cons, List.append_assoc, hold_comparisonTokens]
        decide
    rw [comparisons, bind_ok hop]
    refine (h p (List.mem_cons_self ..) n c' _ hc' ?_ hhold).seq (fun hf => hf p (by simp))
      fun hf e' c'' he' => ?_
    · simp only [fuelFor, List.length_append] at hn ⊢
      omega
    refine (ih (fun q hq => h q (List.mem_cons_of_mem _ hq)) he'.faces ?_).seq
      (fun hf q hq => hf q (List.mem_cons_of_mem _ hq)) fun hfs parts' c₃ hread => ?_
    · simp only [List.length_append] at hn ⊢
      omega
    obtain ⟨hparts, hc₃⟩ := hread
    exact .pure (List.forall_mem_cons.mpr ⟨hf, hfs⟩) ⟨.cons ⟨rfl, he'.toMirrors⟩ hparts, hc₃⟩

theorem Reads.comparing {info : NodeInfo} {left : Expr} {parts : List (CompareOp × Expr)}
    (hl : Reads Strength.sum (left.tokens Strength.sum) left)
    (hparts : ∀ p ∈ parts, Reads Strength.sum (p.2.tokens Strength.sum) p.2) (hne : parts ≠ []) :
    Reads Strength.comparison (left.tokens Strength.sum ++ parts.flatMap comparisonTokens)
      (.node info (.compare left parts)) := by
  intro n c rest hc hn hrest
  obtain ⟨m, hm, hlt⟩ := fuel_step hn (by decide)
  rw [List.append_assoc] at hc hlt
  have hhold : holdOf (parts.flatMap comparisonTokens ++ rest) < Strength.sum := by
    obtain ⟨q, qs, rfl⟩ := List.exists_cons_of_ne_nil hne
    rw [List.flatMap_cons, List.append_assoc, hold_comparisonTokens]
    decide
  change Verdict _ (Parser.comparison n c) _
  rw [hm, Parser.comparison, bind_ok (start_eq c)]
  refine (hl m c _ hc (Nat.le_of_lt hlt) hhold).seq (fun hf => hf.child (by simp [ExprForm.children]))
    fun _ l' c' hl' => ?_
  refine (reads_comparisons hparts hl'.faces (fuel_rest hlt) hrest).seq
    (fun hf p hp => hf.child (List.mem_cons_of_mem _ (List.mem_map_of_mem hp)))
    fun _ parts' c'' hread => ?_
  obtain ⟨hparts', hc''⟩ := hread
  obtain ⟨hbares, hnested⟩ := PartMirrors.rows hparts'
  cases hparts'
  case nil => exact absurd rfl hne
  case cons =>
    exact verdict_makeExprBefore (by simpa [ExprForm.map, hl'.bare] using hbares)
      (List.forall_mem_cons.mpr ⟨hl'.nested, List.forall_mem_map.mpr hnested⟩) hc''

end NoteCell
