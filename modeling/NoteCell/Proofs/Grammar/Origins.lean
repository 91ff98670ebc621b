import NoteCell.Proofs.Grammar.Brackets
import NoteCell.Proofs.Grammar.Consumed
import NoteCell.Proofs.Tree.Ids

/-!
Where expressions come from. Each node of what the actions of a derivation build was built from some
of its tokens that stand side by side, and has the place of those.
-/
namespace NoteCell.Grammar

/-! ### Nodes and their tokens -/

theorem of_makeExpr_eq_ok {location : Location} {form : ExprForm Expr} {e : Expr}
    (h : makeExpr location form = .ok e) :
    e = .build form location ∧ e.info.nesting ≤ maxExprNesting := by
  rw [makeExpr] at h
  split at h
  case isTrue hdepth =>
    obtain rfl := Except.ok.inj h
    exact ⟨rfl, hdepth⟩
  case isFalse => cases h

-- A node that was built from some tokens that stand side by side among the given ones.
def Origin (ts : List Located) (e : Expr) : Prop :=
  ∃ (l : Level) (d : Derivation (.level l)) (form : ExprForm Expr),
    d.tokens <:+: ts ∧ d.act = .ok e ∧ makeExpr d.place form = .ok e

theorem Origin.mono {ts us : List Located} {e : Expr} (h : Origin ts e) (hts : ts <:+: us) :
    Origin us e := by
  obtain ⟨l, d, form, hd, hbuilt⟩ := h
  exact ⟨l, d, form, hd.trans hts, hbuilt⟩

-- Trees whose nodes all were.
def Stems (ts : List Located) (es : List Expr) : Prop := ∀ e ∈ es, ∀ n ∈ e.nodes, Origin ts n

namespace Stems

variable {ts : List Located} {e : Expr} {es es' : List Expr}

theorem mono {us : List Located} (h : Stems ts es) (hts : ts <:+: us) : Stems us es :=
  fun e he n hn => (h e he n hn).mono hts

theorem left (h : Stems ts es) (us : List Located) : Stems (ts ++ us) es :=
  h.mono (List.prefix_append ts us).isInfix

theorem right (h : Stems ts es) (us : List Located) : Stems (us ++ ts) es :=
  h.mono (List.suffix_append us ts).isInfix

theorem tail (h : Stems ts es) (t : Located) : Stems (t :: ts) es := h.right [t]

theorem nil : Stems ts [] := List.forall_mem_nil _

theorem append (h : Stems ts es) (h' : Stems ts es') : Stems ts (es ++ es') :=
  List.forall_mem_append.mpr ⟨h, h'⟩

theorem cons (h : Stems ts [e]) (h' : Stems ts es) : Stems ts (e :: es) := append h h'

theorem of_subset (h : Stems ts es) (hes : es' ⊆ es) : Stems ts es' := fun e he => h e (hes he)

theorem node {l : Level} {d : Derivation (.level l)} {form : ExprForm Expr} (hact : d.act = .ok e)
    (hmake : makeExpr d.place form = .ok e) (h : Stems d.tokens form.children) :
    Stems d.tokens [e] := by
  refine List.forall_mem_singleton.mpr ?_
  have horigin : Origin d.tokens e := ⟨l, d, form, List.infix_rfl, hact, hmake⟩
  obtain ⟨rfl, -⟩ := of_makeExpr_eq_ok hmake
  rw [Expr.build] at horigin ⊢
  rw [Expr.nodes_node]
  refine List.forall_mem_cons.mpr ⟨horigin, fun n hn => ?_⟩
  obtain ⟨c, hc, hn⟩ := List.mem_flatMap.mp hn
  exact h c hc n hn

theorem leaf {l : Level} {d : Derivation (.level l)} {form : ExprForm Expr} (hact : d.act = .ok e)
    (hmake : d.act = makeExpr d.place form) (h : form.children = []) : Stems d.tokens [e] :=
  node hact (hmake.symm.trans hact) (h ▸ nil)

end Stems

/-! ### What actions build -/

-- The expressions of what is built from a nonterminal.
def Symbol.roots : (s : Symbol) → s.Value → List Expr
  | level _, e => [e]
  | comparisons, rest => rest.map (·.2)
  | argument, a => [a.value]
  | entry, p => [p.1, p.2]
  | parameter, p => p.default?.toList
  | comma item, items => items.flatMap item.roots

theorem roots_expressions {l : Level} (es : List Expr) : (Symbol.level l).comma.roots es = es :=
  List.flatMap_singleton' es

theorem roots_arguments (given : List Argument) :
    Symbol.argument.comma.roots given = given.map Argument.value :=
  List.map_eq_flatMap.symm

theorem value_of_makeKeyword {target value : Expr} {a : Argument}
    (h : makeKeyword target value = .ok a) : a.value = value := by
  rw [makeKeyword] at h
  split at h <;> cases h
  rfl

-- Arguments are sorted by their kinds, and none is made up.
theorem mem_of_splitArguments {args args' : List Expr} {keywords keywords' : List (String × Expr)}
    {given : List Argument} (h : splitArguments args keywords given = .ok (args', keywords')) :
    args' ++ keywords'.map (·.2) ⊆ args ++ keywords.map (·.2) ++ given.map Argument.value := by
  induction given generalizing args keywords
  case nil =>
    cases h
    simp
  case cons a given ih =>
    cases a with
    | positional value =>
      rw [splitArguments] at h
      split at h
      case isTrue =>
        refine List.Subset.trans (ih h) fun e he => ?_
        simp only [List.mem_append, List.map_cons, List.mem_cons, Argument.value] at he ⊢
        tauto
      case isFalse => cases h
    | keyword name value =>
      rw [splitArguments] at h
      split at h
      case isTrue => cases h
      case isFalse =>
        refine List.Subset.trans (ih h) fun e he => ?_
        simp only [List.mem_append, List.map_append, List.map_cons, List.map_nil, List.mem_cons,
          Argument.value] at he ⊢
        tauto

theorem children_joint (joint : Joint) (left right : Expr) :
    (joint.form left right).children = [left, right] := by
  cases joint <;> rfl

theorem Derivation.stems {s : Symbol} (d : Derivation s) {v : s.Value} (hact : d.act = .ok v) :
    Stems d.tokens (s.roots v) := by
  induction d
  case conditional hbody htest horelse =>
    obtain ⟨_, hb, hmake⟩ := of_bind_eq_ok hact
    obtain ⟨_, ht, hmake⟩ := of_bind_eq_ok hmake
    obtain ⟨_, ho, hmake⟩ := of_bind_eq_ok hmake
    exact .node hact hmake (.cons (((htest ht).left _).tail _ |>.right _)
      (.cons ((hbody hb).left _) (((horelse ho).tail _ |>.right _).tail _ |>.right _)))
  case joined link _ hleft hright =>
    obtain ⟨left, hl, hmake⟩ := of_bind_eq_ok hact
    obtain ⟨right, hr, hmake⟩ := of_bind_eq_ok hmake
    refine .node hact hmake ?_
    rw [children_joint]
    exact .cons ((hleft hl).left _) ((hright hr).tail _ |>.right _)
  case compared hleft hright hrest =>
    obtain ⟨_, hl, hmake⟩ := of_bind_eq_ok hact
    obtain ⟨_, hr, hmake⟩ := of_bind_eq_ok hmake
    obtain ⟨_, hs, hmake⟩ := of_bind_eq_ok hmake
    exact .node hact hmake (.cons ((hleft hl).left _)
      (.cons (((hright hr).left _).right _ |>.right _) (((hrest hs).right _).right _ |>.right _)))
  case comparison hright hrest =>
    obtain ⟨_, hr, h⟩ := of_bind_eq_ok hact
    obtain ⟨_, hs, h⟩ := of_bind_eq_ok h
    cases h
    exact .cons (((hright hr).left _).right _) (((hrest hs).right _).right _)
  case not h | minus h | plus h | await h =>
    obtain ⟨_, he, hmake⟩ := of_bind_eq_ok hact
    exact .node hact hmake ((h he).tail _)
  case power hbase hexponent =>
    obtain ⟨_, hb, hmake⟩ := of_bind_eq_ok hact
    obtain ⟨_, he, hmake⟩ := of_bind_eq_ok hmake
    exact .node hact hmake (.cons ((hbase hb).left _) ((hexponent he).tail _ |>.right _))
  case member h =>
    obtain ⟨_, hv, hmake⟩ := of_bind_eq_ok hact
    exact .node hact hmake ((h hv).left _)
  case call hfunc hargs =>
    obtain ⟨_, hf, hmake⟩ := of_bind_eq_ok hact
    obtain ⟨_, ha, hmake⟩ := of_bind_eq_ok hmake
    obtain ⟨⟨args, keywords⟩, hsplit, hmake⟩ := of_bind_eq_ok hmake
    have hvalues := mem_of_splitArguments hsplit
    have hsorted := (roots_arguments _ ▸ hargs ha).of_subset hvalues
    exact .node hact hmake (.cons ((hfunc hf).left _) ((hsorted.left _).tail _ |>.right _))
  case subscript hvalue hindex =>
    obtain ⟨_, hv, hmake⟩ := of_bind_eq_ok hact
    obtain ⟨_, hi, hmake⟩ := of_bind_eq_ok hmake
    exact .node hact hmake (.cons ((hvalue hv).left _) (((hindex hi).left _).tail _ |>.right _))
  case positional h =>
    obtain ⟨_, he, h'⟩ := of_bind_eq_ok hact
    cases h'
    exact h he
  case keyword htarget hvalue =>
    obtain ⟨_, ht, h⟩ := of_bind_eq_ok hact
    obtain ⟨_, hv, h⟩ := of_bind_eq_ok h
    rw [Symbol.roots, value_of_makeKeyword h]
    exact (hvalue hv).tail _ |>.right _
  case enclosed h => exact ((h hact).left _).tail _
  case tuple hfirst hrest =>
    obtain ⟨_, hf, hmake⟩ := of_bind_eq_ok hact
    obtain ⟨_, hr, hmake⟩ := of_bind_eq_ok hmake
    have hitems := roots_expressions _ ▸ hrest hr
    exact .node hact hmake
      (.cons ((hfirst hf).left _ |>.tail _) (((hitems.left _).tail _ |>.right _).tail _))
  case list h =>
    obtain ⟨_, hi, hmake⟩ := of_bind_eq_ok hact
    have hitems := roots_expressions _ ▸ h hi
    exact .node hact hmake ((hitems.left _).tail _)
  case dict h =>
    obtain ⟨_, he, hmake⟩ := of_bind_eq_ok hact
    exact .node hact hmake (((h he).left _).tail _)
  case entry hkey hvalue =>
    obtain ⟨_, hk, h⟩ := of_bind_eq_ok hact
    obtain ⟨_, hv, h⟩ := of_bind_eq_ok h
    cases h
    exact .cons ((hkey hk).left _) ((hvalue hv).tail _ |>.right _)
  case optional h =>
    obtain ⟨_, hd, h'⟩ := of_bind_eq_ok hact
    cases h'
    exact ((h hd).tail _).tail _
  case lastItem h =>
    obtain ⟨_, he, h'⟩ := of_bind_eq_ok hact
    cases h'
    exact (h he).append .nil
  case item hitem hrest =>
    obtain ⟨_, he, h⟩ := of_bind_eq_ok hact
    obtain ⟨_, hr, h⟩ := of_bind_eq_ok h
    cases h
    exact .append ((hitem he).left _) ((hrest hr).tail _ |>.right _)
  case name | int | float | strings | true_ | false_ | none_ | unit => exact .leaf hact rfl rfl
  case noComparisons | noItems | required =>
    cases hact
    exact .nil
  case unconditional h | single h | affirmed h | uncompared h | unsigned h | unraised h
    | unawaited h | plain h => exact h hact

end NoteCell.Grammar
