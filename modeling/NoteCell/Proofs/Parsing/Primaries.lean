import NoteCell.Proofs.Parsing.Atoms

/-!
Primaries: attributes, subscripts and calls. They are read by a loop behind their owner.
-/
namespace NoteCell

open NoteCell.Parser

namespace Argument

def tokens : Argument → List Token
  | positional e => e.tokens Strength.test
  | keyword s e => keywordTokens (s, e)

def value : Argument → Expr
  | positional e | keyword _ e => e

def Mirrors : Argument → Argument → Prop
  | positional e, positional e' => NoteCell.Mirrors e e'
  | keyword s e, keyword s' e' => s = s' ∧ NoteCell.Mirrors e e'
  | _, _ => False

def given (args : List Expr) (keywords : List (String × Expr)) : List Argument :=
  args.map positional ++ keywords.map fun (s, e) => keyword s e

theorem opens_tokens (a : Argument) : Opens Strength.test a.tokens := by
  cases a
  case positional e => exact e.opens_tokens _ (by decide)
  case keyword => exact ⟨_, _, rfl, rfl⟩

theorem tokens_given (args : List Expr) (keywords : List (String × Expr)) :
    (given args keywords).map tokens
      = args.map (Expr.tokens Strength.test) ++ keywords.map keywordTokens := by
  simp [given, Function.comp_def, tokens]

def KeywordMirrors (k k' : String × Expr) : Prop := k.1 = k'.1 ∧ NoteCell.Mirrors k.2 k'.2

theorem value_mem_children (func : Expr) {args : List Expr} {keywords : List (String × Expr)}
    {a : Argument} (ha : a ∈ given args keywords) :
    a.value ∈ (ExprForm.call func args keywords).children := by
  simp only [given, List.mem_append, List.mem_map] at ha
  obtain ⟨e, he, rfl⟩ | ⟨k, hk, rfl⟩ := ha
  · simp [ExprForm.children, value, he]
  · exact List.mem_cons_of_mem _ (List.mem_append_right _ (List.mem_map_of_mem hk))

theorem mirrors_given {args : List Expr} {keywords : List (String × Expr)} {as : List Argument}
    (h : List.Forall₂ Mirrors (given args keywords) as) :
    ∃ args' keywords', as = given args' keywords' ∧ List.Forall₂ NoteCell.Mirrors args args'
      ∧ List.Forall₂ KeywordMirrors keywords keywords' := by
  induction args generalizing as
  case nil =>
    induction keywords generalizing as
    case nil =>
      cases h
      exact ⟨[], [], rfl, .nil, .nil⟩
    case cons k ks ih =>
      cases h
      case cons a as ha has =>
        have ⟨args', keywords', hg, hargs, hkeys⟩ := ih has
        cases hargs
        match a, ha with
        | keyword s' e', ⟨hs, he⟩ =>
          exact ⟨[], (s', e') :: keywords', by simp [given, hg], .nil, .cons ⟨hs, he⟩ hkeys⟩
  case cons e es ih =>
    cases h
    case cons a as ha has =>
      have ⟨args', keywords', hg, hargs, hkeys⟩ := ih has
      match a, ha with
      | positional e', he =>
        exact ⟨e' :: args', keywords', by simp [given, hg], .cons he hargs, hkeys⟩

end Argument

theorem Argument.KeywordMirrors.rows {keywords keywords' : List (String × Expr)}
    (h : List.Forall₂ KeywordMirrors keywords keywords') :
    keywords'.map (·.1) = keywords.map (·.1)
      ∧ (keywords'.map fun (s, e) => (s, e.bare)) = keywords.map (fun (s, e) => (s, e.bare))
      ∧ ∀ k ∈ keywords', k.2.WellNested := by
  induction h
  case nil => simp
  case cons hd _ ih =>
    refine ⟨by simp [hd.1, ih.1], by simp [hd.1, hd.2.bare, ih.2.1], ?_⟩
    exact List.forall_mem_cons.mpr ⟨hd.2.nested, ih.2.2⟩

theorem splitArguments_keywords {args : List Expr} {keywords before : List (String × Expr)}
    (h : ((before ++ keywords).map (·.1)).Nodup) :
    splitArguments args before (keywords.map fun (s, e) => .keyword s e)
      = .ok (args, before ++ keywords) := by
  induction keywords generalizing before
  case nil => simp [splitArguments]
  case cons k ks ih =>
    have hk : before.any (fun b => b.1 = k.1) = false := by
      simp only [List.map_append, List.nodup_append] at h
      simp only [List.any_eq_false, decide_eq_true_eq]
      exact fun b hb => h.2.2 _ (List.mem_map_of_mem hb) _ (by simp)
    rw [List.map_cons, splitArguments, hk, if_neg (by simp), ih (by simpa using h)]
    simp

theorem splitArguments_given {args : List Expr} {keywords : List (String × Expr)}
    (h : (keywords.map (·.1)).Nodup) (before : List Expr) :
    splitArguments before [] (Argument.given args keywords) = .ok (before ++ args, keywords) := by
  induction args generalizing before
  case nil => simpa [Argument.given] using @splitArguments_keywords before keywords [] h
  case cons e es ih =>
    change splitArguments (before ++ [e]) [] (Argument.given es keywords) = _
    simp [ih]

section

variable {info : NodeInfo}

theorem fits_name (s : String) : (Expr.node info (.name s)).Fits := by
  simp [Expr.Fits, Expr.depth_node, ExprForm.children, Expr.nestingOver, maxExprNesting]

theorem Reads.argument {a : Argument}
    (h : Reads Strength.test (a.value.tokens Strength.test) a.value) :
    ReadsItem Parser.argument Argument.tokens (fun a => a.value.Fits) Argument.Mirrors 24
      EndsExpr a := by
  intro n c rest hc hn ⟨hrest, hassign⟩
  obtain ⟨m, rfl⟩ : ∃ k, n = k + 1 := ⟨n - 1, by omega⟩
  rw [Parser.argument, bind_ok (start_eq c)]
  cases a
  case positional e =>
    refine (h m c rest hc (Nat.le_of_succ_le_succ hn) (by rw [hrest]; decide)).seq id
      fun hf e' c' he' => ?_
    rw [bind_ok (accept_ne he'.faces hassign), if_neg (by simp)]
    exact .pure hf ⟨he'.toMirrors, he'.faces⟩
  case keyword s e =>
    simp only [Argument.tokens, keywordTokens, List.cons_append] at hc hn
    have hatom : ReadsAtom (ExprForm.name s).tokens (.node ⟨0, .unknown, 0⟩ (.name s)) :=
      .single rfl rfl
    have hname : Reads Strength.test [.name s] (.node ⟨0, .unknown, 0⟩ (.name s)) :=
      (Ready.atom hatom.owner ⟨_, _, rfl, rfl⟩).reads _ (by decide) (by decide)
    refine (hname m c _ hc (by simp [fuelFor, Strength.test] at hn ⊢; omega) (Nat.zero_lt_succ _)).seq
      (fun _ => fits_name s) fun _ s' c' hs' => ?_
    rw [bind_ok (accept_eq hs'.faces), if_pos rfl]
    refine (h m c'.next rest hs'.faces.next ?_ (by rw [hrest]; decide)).seq id
      fun hf e' c'' he' => ?_
    · simp [fuelFor, Argument.value, Strength.test] at hn ⊢
      omega
    have hform : s'.form = .name s := by
      have := congrArg Expr.form hs'.bare
      rw [Expr.form_bare, Expr.form_bare] at this
      revert this
      cases s'.form <;> simp [ExprForm.map, Expr.form]
    rw [hform]
    exact .pure hf ⟨⟨rfl, he'.toMirrors⟩, he'.faces⟩

variable {tv ts : List Token} {value e : Expr}

-- What extends a primary is read by the loop behind it.
theorem ReadsOwner.extend {t : Token} (h : ReadsOwner tv value) (ht : t.hold = Strength.atom)
    (hfits : e.Fits → value.Fits)
    (hext : ∀ m at_ c e' rest, Reading value (t :: ts ++ rest) e' c →
      32 * (t :: ts ++ rest).length < m + 1 → holdOf rest ≤ Strength.atom →
      Reaches e rest (fun m e' => extended m at_ e') (extended (m + 1) at_ e' c)) :
    ReadsOwner (tv ++ t :: ts) e := by
  intro n c rest hc hn hrest
  rw [List.append_assoc] at hc hn
  obtain ⟨_, m, e', c', he', hm, heq⟩ | ⟨hf, err, heq⟩ :=
    h n c (t :: ts ++ rest) hc hn (Nat.le_of_eq ht)
  case inl =>
    obtain ⟨m, rfl⟩ : ∃ k, m = k + 1 := ⟨m - 1, by omega⟩
    rw [heq]
    exact hext m c.start c' e' rest he' hm hrest
  case inr => exact .inr ⟨fun h => hf (hfits h), err, heq⟩

theorem ReadsOwner.member {attr : String} (h : ReadsOwner tv value) :
    ReadsOwner (tv ++ [.sign .dot, .name attr]) (.node info (.member value attr)) := by
  refine h.extend rfl (fun hf => hf.child (by simp [ExprForm.children]))
    fun m at_ c e' rest he' hm _ => ?_
  have hmake : Verdict (Expr.node info (.member value attr)).Fits
      (makeExpr 6 (.member e' attr) at_ c.next.next) (Reading (.node info (.member value attr)) rest) :=
    verdict_makeExprBefore (by simp [ExprForm.map, he'.bare])
      (by simp [ExprForm.children, he'.nested]) he'.faces.next.next
  rw [extended, bind_ok (accept_eq he'.faces), if_pos rfl,
    bind_ok (identifier_eq he'.faces.next)]
  exact hmake.reaches (by simp at hm; omega)

theorem ReadsOwner.subscript {ti : List Token} {index : Expr} (h : ReadsOwner tv value)
    (hi : Reads Strength.test ti index) :
    ReadsOwner (tv ++ .sign .lbracket :: (ti ++ [.sign .rbracket]))
      (.node info (.subscript value index)) := by
  refine h.extend rfl (fun hf => hf.child (by simp [ExprForm.children]))
    fun m at_ c e' rest he' hm _ => ?_
  have hc := he'.faces
  simp only [List.cons_append, List.append_assoc, List.nil_append] at hc hm
  rw [extended, bind_ok (accept_ne (t := .sign .dot) hc (by simp)), if_neg (by simp),
    bind_ok (accept_ne (t := .sign .lparen) hc (by simp)), if_neg (by simp),
    bind_ok (accept_eq hc), if_pos rfl]
  have hindex := hi m c.next _ hc.next
    (by simp [fuelFor, Strength.test] at hm ⊢; omega) (Nat.zero_lt_succ _)
  have hmake : Verdict (Expr.node info (.subscript value index)).Fits
      ((expression m >>= fun index => Parser.sign .rbracket >>= fun _ =>
        makeExpr 6 (.subscript e' index) at_) c.next)
      (Reading (.node info (.subscript value index)) rest) := by
    refine hindex.seq (fun hf => hf.child (by simp [ExprForm.children])) fun _ i' c' hi' => ?_
    rw [Parser.sign, bind_ok (expect_eq hi'.faces)]
    exact verdict_makeExprBefore (by simp [ExprForm.map, he'.bare, hi'.bare])
      (by simp [ExprForm.children, he'.nested, hi'.nested]) hi'.faces.next
  have hreach : Reaches (.node info (.subscript value index)) rest
      (fun m e' => extended m at_ e') _ := hmake.reaches (m := m) (by simp at hm; omega)
  simpa [bind_assoc] using hreach

theorem ReadsOwner.call {args : List Expr} {keywords : List (String × Expr)}
    (h : ReadsOwner tv value)
    (hargs : ∀ a ∈ Argument.given args keywords,
      Reads Strength.test (a.value.tokens Strength.test) a.value)
    (hkeys : (keywords.map (·.1)).Nodup) :
    ReadsOwner (tv ++ .sign .lparen
        :: (commaed (args.map (Expr.tokens Strength.test) ++ keywords.map keywordTokens)
          ++ [.sign .rparen]))
      (.node info (.call value args keywords)) := by
  refine h.extend rfl (fun hf => hf.child (by simp [ExprForm.children]))
    fun m at_ c e' rest he' hm _ => ?_
  have hc := he'.faces
  simp only [List.cons_append, List.append_assoc, List.nil_append,
    ← Argument.tokens_given] at hc hm
  have hfits (hf : (Expr.node info (.call value args keywords)).Fits) (a : Argument)
      (ha : a ∈ Argument.given args keywords) : a.value.Fits :=
    hf.child (Argument.value_mem_children value ha)
  have hrow := isOpenRow_arguments.reads (fun a _ => a.opens_tokens.startsWith)
    (fun a ha => Reads.argument (hargs a ha)) (endsRow_closing rfl rest) endsExpr_comma
    (not_startsWith_closing rfl rest) hc.next (n := m)
    (by simp only [List.length_append, List.length_cons] at hm ⊢; omega)
  rw [extended, bind_ok (accept_ne (t := .sign .dot) hc (by simp)), if_neg (by simp),
    bind_ok (accept_eq hc), if_pos rfl]
  cases hread : arguments m c.next with
  | error err =>
    rw [hread] at hrow
    rw [bind_error hread]
    exact .inr ⟨fun h => hrow (hfits h), err, rfl⟩
  | ok read =>
    obtain ⟨as, c'⟩ := read
    rw [hread] at hrow
    obtain ⟨_, has, hc'⟩ := hrow
    obtain ⟨args', keywords', rfl, ha, hk⟩ := Argument.mirrors_given has
    obtain ⟨hnames, hbares, hnested⟩ := Argument.KeywordMirrors.rows hk
    rw [bind_ok hread, Parser.sign, bind_ok (expect_eq hc'),
      splitArguments_given (hnames ▸ hkeys)]
    have hmake : Verdict (Expr.node info (.call value args keywords)).Fits
        (makeExpr 6 (.call e' args' keywords') at_ c'.next)
        (Reading (.node info (.call value args keywords)) rest) := by
      refine verdict_makeExprBefore ?_ ?_ hc'.next
      · simp [ExprForm.map, he'.bare, (Mirrors.rows ha).1, hbares]
      · simp only [ExprForm.children, List.forall_mem_cons, List.forall_mem_append,
          List.forall_mem_map]
        exact ⟨he'.nested, (Mirrors.rows ha).2, hnested⟩
    exact hmake.reaches (by simp at hm; omega)

end

end NoteCell
