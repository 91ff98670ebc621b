import NoteCell.Proofs.Printing.Tokens
import NoteCell.Proofs.Tree.Shape

/-!
Canonical text is a matter of shape: trees of one shape are written alike.
-/
namespace NoteCell

open Word

-- A change of a part that leaves what is written of it.
structure SameWords (f : Expr → Expr) (e : Expr) : Prop where
  words (context : Nat) : (f e).words context = e.words context
  owner : (f e).ownerStrength = e.ownerStrength

theorem ExprForm.strength_map {α β : Type} (f : α → β) (form : ExprForm α) :
    (form.map f).strength = form.strength := by
  cases form
  case tuple items => cases items <;> rfl
  all_goals rfl

section

variable {f : Expr → Expr}

theorem Expr.rows_map {items : List Expr} (h : ∀ e ∈ items, SameWords f e) :
    rows (items.map f) = rows items := by
  rw [rows_eq, rows_eq, List.map_map]
  exact List.map_congr_left fun e he => (h e he).words _

theorem Expr.comparisonWords_map {rest : List (CompareOp × Expr)} (h : ∀ p ∈ rest, SameWords f p.2) :
    comparisonWords (rest.map fun p => (p.1, f p.2)) = comparisonWords rest := by
  induction rest
  case nil => rfl
  case cons p rest ih =>
    rw [List.map_cons, comparisonWords, comparisonWords, (h p List.mem_cons_self).words,
      ih fun q hq => h q (List.mem_cons_of_mem p hq)]

theorem ExprForm.words_map {form : ExprForm Expr} (h : ∀ c ∈ form.children, SameWords f c) :
    (form.map f).words = form.words := by
  have hwords : ∀ c ∈ form.children, ∀ k, (f c).words k = c.words k := fun c hc => (h c hc).words
  cases form
  case bool b => cases b <;> rfl
  case list items => exact congrArg (enclosed .lbracket .rbracket ∘ separated) (Expr.rows_map h)
  case tuple items =>
    match items, h with
    | [], _ => rfl
    | [e], h => simp only [map, List.map_cons, List.map_nil, words, (h e List.mem_cons_self).words]
    | e :: d :: es, h => exact congrArg separated (Expr.rows_map h)
  case dict entries =>
    simp only [map, words, Expr.entryRows_eq, List.map_map]
    congr 2
    refine List.map_congr_left fun p hp => ?_
    have hk := h p.1 (List.mem_flatMap.mpr ⟨p, hp, by simp⟩)
    have hv := h p.2 (List.mem_flatMap.mpr ⟨p, hp, by simp⟩)
    simp only [Function.comp_apply, hk.words, hv.words]
  case compare left rest =>
    have hrest := @Expr.comparisonWords_map f rest fun p hp =>
      h p.2 (List.mem_cons_of_mem left (List.mem_map_of_mem hp))
    simp only [map, words, (h left List.mem_cons_self).words]
    rw [← hrest]
  case call func args keywords =>
    have hargs := Expr.rows_map fun e he => h e (List.mem_cons_of_mem func (List.mem_append_left _ he))
    have hkeywords : Expr.keywordRows (keywords.map fun k => (k.1, f k.2))
        = Expr.keywordRows keywords := by
      rw [Expr.keywordRows_eq, Expr.keywordRows_eq, List.map_map]
      refine List.map_congr_left fun k hk => ?_
      have hk := h k.2 (List.mem_cons_of_mem func (List.mem_append_right _ (List.mem_map_of_mem hk)))
      simp only [Function.comp_apply, hk.words]
    simp only [map, words, (h func List.mem_cons_self).words, hargs]
    rw [← hkeywords]
  case member value attr =>
    have hvalue := h value List.mem_cons_self
    simp only [map, words, hvalue.words, hvalue.owner]
  case binary | logical | conditional | subscript | unary | await =>
    simp only [children, List.forall_mem_cons] at hwords
    simp only [map, words, hwords]
  all_goals rfl

end

theorem Expr.sameWords_bare (e : Expr) : SameWords bare e := by
  induction e using childrenInduction
  case h info form ih =>
    have howner : (bare (node info form)).ownerStrength = (node info form).ownerStrength := by
      rw [bare_node]
      cases form <;> rfl
    refine ⟨fun context => ?_, howner⟩
    rw [bare_node, words, words, ExprForm.strength_map, ExprForm.words_map ih]

@[simp] theorem Expr.words_bare (e : Expr) (context : Nat) : e.bare.words context = e.words context :=
  e.sameWords_bare.words context

/-! ### Statements -/

theorem StmtForm.words_bare (form : StmtForm Stmt) :
    (form.map Expr.bare Stmt.bare).words = form.words := by
  cases form
  case assign =>
    have htarget : targetWords ∘ Expr.bare = targetWords := funext fun e => by simp [targetWords]
    simp [map, words, htarget]
  case define name params body isAsync =>
    have hparams : (Param.words ∘ fun p => ⟨p.name, p.default?.map Expr.bare⟩) = Param.words := by
      funext p
      obtain ⟨name, default?⟩ := p
      cases default? <;> simp [Param.words]
    simp only [map, words, List.map_map, hparams]
  case ret value | raise value => cases value <;> simp [map, words, keywordWords]
  all_goals simp [map, words, headWords, keywordWords]

-- The first line apart, which is a matter of the form.
def Stmt.SameLines (s : Stmt) : Prop :=
  ∀ d, (s.form.map Expr.bare bare).bodyLines d = s.form.bodyLines d

theorem Stmt.blockLines_map_bare {body : List Stmt} (h : ∀ s ∈ body, s.SameLines) (d : Nat) :
    blockLines d (body.map bare) = blockLines d body := by
  induction body with
  | nil => rfl
  | cons s body ih =>
    have hs := h s List.mem_cons_self d
    obtain ⟨info, form⟩ := s
    rw [List.map_cons, blockLines, blockLines, ih fun t ht => h t (List.mem_cons_of_mem _ ht),
      bare_node, lines, lines, StmtForm.words_bare]
    exact congrArg (fun ls => (_ :: ls) ++ _) hs

theorem Stmt.elseLines_map_bare {orelse : List Stmt} (h : ∀ s ∈ orelse, s.SameLines) (d : Nat) :
    elseLines d (orelse.map bare) = elseLines d orelse := by
  cases orelse using Stmt.elseTokens.fun_cases
  case case1 => rfl
  case case2 info test body orelse =>
    have hs : ((StmtForm.ifElse test body orelse).map Expr.bare bare).bodyLines d
        = (StmtForm.ifElse test body orelse).bodyLines d := h _ List.mem_cons_self d
    rw [List.map_cons, List.map_nil, bare_node]
    simp only [StmtForm.map, elseLines, StmtForm.bodyLines, headWords, keywordWords,
      Expr.words_bare] at hs ⊢
    rw [hs]
  case case3 s rest hne =>
    have hne' (info : NodeInfo) (test : Expr) (body orelse : List Stmt)
        (hs : s.bare = .node info (.ifElse test body orelse)) (hrest : rest.map bare = []) : False := by
      obtain ⟨info', form⟩ := s
      rw [bare_node] at hs
      cases form <;> cases hs
      exact hne _ _ _ _ rfl (List.map_eq_nil_iff.mp hrest)
    rw [List.map_cons, elseLines.eq_3 _ _ _ hne, elseLines.eq_3 _ _ _ hne']
    exact congrArg _ (blockLines_map_bare h (d + 1))

theorem Stmt.sameLines (s : Stmt) : s.SameLines := by
  induction s using stmtsInduction
  case h info form ih =>
    intro d
    cases form
    case ifElse test body orelse =>
      have hbody := blockLines_map_bare (fun s hs => ih s (List.mem_append_left _ hs)) (d + 1)
      have horelse := elseLines_map_bare (fun s hs => ih s (List.mem_append_right _ hs)) d
      simp only [form, StmtForm.map, StmtForm.bodyLines, hbody, horelse]
    case whileLoop | forEach | define => exact blockLines_map_bare ih (d + 1)
    all_goals rfl

theorem Cell.lines_eq_of_bare {c c' : Cell} (h : c'.bare = c.bare) : c'.lines = c.lines := by
  have hlines (c : Cell) : Stmt.blockLines 0 c.bare = c.lines :=
    Stmt.blockLines_map_bare (fun s _ => s.sameLines) 0
  rw [← hlines c', h, hlines c]

theorem Cell.text_eq_of_bare {c c' : Cell} (h : c'.bare = c.bare) : c'.text = c.text := by
  rw [text, text, chars, chars, lines_eq_of_bare h]

end NoteCell
