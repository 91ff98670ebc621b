import NoteCell.Proofs.Grammar.Consumed
import NoteCell.Proofs.Grammar.Derivations
import NoteCell.Proofs.Parsing.PrintedStatement

/-!
The rules that read the nonterminals for expressions. Whatever they read is derived by the grammar,
and what they build is what the actions of its derivation build.
-/
namespace NoteCell

open NoteCell.Grammar

namespace Parser

-- Items between commas, each of which begins with one of the tokens that may start it.
def row {α : Type} (starts : Token → Bool) (item : Nat → Parser α) : Nat → Parser (List α)
  | 0 => misplaced
  | n + 1 => do
    if ((← peek?).map starts).getD false then
      let a ← item n
      if ← accept (.sign .comma) then return a :: (← row starts item n)
      else return [a]
    else return []

def entry (n : Nat) : Parser (Expr × Expr) := do
  let key ← expression n
  sign .colon
  let value ← expression n
  return (key, value)

theorem elements_eq : elements = row Token.startsExpression expression := by
  funext n
  induction n with
  | zero => rfl
  | succ n ih => rw [elements, row, ih]

theorem arguments_eq : arguments = row Token.startsExpression argument := by
  funext n
  induction n with
  | zero => rfl
  | succ n ih => rw [arguments, row, ih]

theorem entries_eq : entries = row Token.startsExpression entry := by
  funext n
  induction n with
  | zero => rfl
  | succ n ih => simp only [entries, row, ih, entry, bind_assoc, pure_bind]

theorem params_eq : params = row startsName param := by
  funext n
  induction n with
  | zero => rfl
  | succ n ih =>
    funext c
    rw [params, row, ih, bind_ok (rfl : peek? c = .ok (c.head?, c)),
      bind_ok (rfl : peek? c = .ok (c.head?, c))]
    cases c.head? with
    | none => rfl
    | some t => cases t <;> rfl

end Parser
end NoteCell

/-! ### What the rules read -/

namespace NoteCell.Grammar

open NoteCell.Parser

-- What a rule reads is derived from a nonterminal.
def Derives (s : Symbol) (p : Parser s.Value) : Prop :=
  ∀ c v c', p c = .ok (v, c') → ∃ d : Derivation s, d.act = .ok v ∧ c.Consumes d.tokens c'

-- Behind what has been read from `s`, a rule reads what together is derived from `s` again.
def Extends (s : Symbol) (p : Nat → s.Value → Parser s.Value) : Prop :=
  ∀ (c₀ c : Cursor) v v' c' (d : Derivation s), d.act = .ok v → c₀.Consumes d.tokens c →
    p c₀.start v c = .ok (v', c') → ∃ d' : Derivation s, d'.act = .ok v' ∧ c₀.Consumes d'.tokens c'

-- What the rules with so much fuel come to.
structure ExprDerivations (n : Nat) : Prop where
  expression : Derives (.level .expression) (expression n)
  family (f : Family) : Derives (.level (.family f)) (family n f)
  operand (f : Family) : Derives (.level (operand f)) (Parser.operand n f)
  joined (f : Family) : Extends (.level (.family f)) (joined n f)
  negation : Derives (.level .negation) (negation n)
  comparison : Derives (.level .comparison) (comparison n)
  comparisons : Derives .comparisons (comparisons n)
  factor : Derives (.level .factor) (factor n)
  power : Derives (.level .power) (power n)
  awaited : Derives (.level .awaited) (awaited n)
  primary : Derives (.level .primary) (primary n)
  extended : Extends (.level .primary) (extended n)
  atom : Derives (.level .atom) (atom n)
  elements : Derives (.comma (.level .expression)) (elements n)
  entries : Derives (.comma .entry) (entries n)
  arguments : Derives (.comma .argument) (arguments n)
  argument : Derives .argument (argument n)

theorem Derives.misplaced {s : Symbol} : Derives s misplaced :=
  fun _ _ _ hp => (of_misplaced hp).elim

theorem Extends.misplaced {s : Symbol} : Extends s fun _ _ => misplaced :=
  fun _ _ _ _ _ _ _ _ hp => (of_misplaced hp).elim

section

variable {l : Level} {c c' c₁ : Cursor} {e : Expr} {level : Nat} {form : ExprForm Expr}

-- A node made behind all tokens of its derivation.
theorem of_makeExpr {d : Derivation (.level l)} (hc : c.Consumes d.tokens c₁)
    (hact : d.act = Grammar.makeExpr d.place form)
    (h : Parser.makeExpr level form c.start c₁ = .ok (e, c')) :
    d.act = .ok e ∧ c.Consumes d.tokens c' := by
  obtain ⟨rfl, he⟩ := of_makeExprBefore h
  rw [hact, Derivation.place, ← hc.place (tokens_ne_nil d), he]
  exact ⟨rfl, hc⟩

theorem Derives.of_bind {s : Symbol} {p : Parser s.Value} {β : Type} {q : s.Value → Parser β}
    {b : β} (hp : Derives s p) (h : (p >>= q) c = .ok (b, c')) :
    ∃ (d : Derivation s) (v : s.Value) (c₁ : Cursor),
      d.act = .ok v ∧ c.Consumes d.tokens c₁ ∧ q v c₁ = .ok (b, c') := by
  obtain ⟨v, c₁, hv, hq⟩ := Parser.of_bind h
  obtain ⟨d, hd, hc⟩ := hp c v c₁ hv
  exact ⟨d, v, c₁, hd, hc, hq⟩

theorem Derives.row {s : Symbol} {starts : Token → Bool} {item : Nat → Parser s.Value} {n : Nat}
    (hitem : Derives s (item n)) (hrow : Derives (.comma s) (row starts item n)) :
    Derives (.comma s) (row starts item (n + 1)) := by
  intro c v c' hp
  rw [Parser.row, bind_ok (rfl : peek? c = .ok (c.head?, c))] at hp
  split at hp
  · obtain ⟨e, _, _, he, ke, hp⟩ := hitem.of_bind hp
    obtain ⟨comma, _, kcomma, hp⟩ | ⟨_, hp⟩ := of_ifAccept hp
    · obtain ⟨rest, _, _, hrest, krest, hp⟩ := hrow.of_bind hp
      obtain ⟨rfl, rfl⟩ := of_pure hp
      refine ⟨.item e comma rest, ?_, ke.trans (kcomma.cons krest)⟩
      rw [Derivation.act, he, hrest]
      rfl
    · obtain ⟨rfl, rfl⟩ := of_pure hp
      refine ⟨.lastItem e, ?_, ke⟩
      rw [Derivation.act, he]
      rfl
  · obtain ⟨rfl, rfl⟩ := of_pure hp
    exact ⟨.noItems, rfl, .refl _⟩

theorem head?_tokens {t : Token} {op : CompareOp} (h : comparison? t = some op) :
    op.tokens.head? = some t := by
  unfold comparison? at h
  split at h <;> cases h <;> rfl

-- An operator of a comparison.
theorem of_compareOp? {o : Option CompareOp} (h : compareOp? c = .ok (o, c')) :
    o = none ∧ c' = c ∨ ∃ o' : Comparator, o = some o'.op ∧ c.Consumes o'.words c' := by
  rw [compareOp?, bind_ok (rfl : peek? c = .ok (c.head?, c))] at h
  cases ht : c.head? with
  | none =>
    rw [ht] at h
    exact .inl (of_pure h)
  | some t =>
    rw [ht, Option.bind_eq_bind, Option.bind_some] at h
    cases hop : comparison? t with
    | none =>
      rw [hop] at h
      exact .inl (of_pure h)
    | some op =>
      rw [hop] at h
      have hhead := head?_tokens hop
      cases op <;> cases hhead
      case isNot.refl => cases hop
      case notIn.refl =>
        obtain ⟨_, _, knot, h⟩ := of_bind_advance ht h
        obtain ⟨_, _, kin, h⟩ := of_bind_expect h
        obtain ⟨rfl, rfl⟩ := of_pure h
        exact .inr ⟨⟨.notIn, _, rfl⟩, rfl, knot.cons kin⟩
      case is.refl =>
        obtain ⟨_, _, kis, h⟩ := of_bind_advance ht h
        obtain ⟨isNot, _, hnot, h⟩ := Parser.of_bind h
        obtain ⟨rfl, rfl⟩ := of_pure h
        cases isNot with
        | true =>
          obtain ⟨_, knot⟩ := of_accept_true hnot
          exact .inr ⟨⟨.isNot, _, rfl⟩, rfl, kis.cons knot⟩
        | false =>
          obtain ⟨rfl, -⟩ := of_accept_false hnot
          exact .inr ⟨⟨.is, _, rfl⟩, rfl, kis⟩
      all_goals
        obtain ⟨span, _, kop, h⟩ := of_bind_advance ht h
        obtain ⟨rfl, rfl⟩ := of_pure h
        exact .inr ⟨⟨_, [⟨_, span⟩], rfl⟩, rfl, kop⟩

-- Strings side by side.
theorem of_strings {n : Nat} {s : String} (h : strings n c = .ok (s, c')) :
    ∃ parts : List (String × Span), String.join (parts.map (·.1)) = s
      ∧ c.Consumes (parts.map stringToken) c' := by
  induction n generalizing c c' s with
  | zero =>
    obtain ⟨rfl, rfl⟩ := of_pure h
    exact ⟨[], rfl, .refl _⟩
  | succ n ih =>
    rw [strings, bind_ok (rfl : peek? c = .ok (c.head?, c))] at h
    generalize ht : c.head? = t at h
    split at h
    case h_1 first =>
      obtain ⟨span, _, kfirst, h⟩ := of_bind_advance ht h
      obtain ⟨text, _, hrest, h⟩ := of_bind h
      obtain ⟨parts, rfl, kparts⟩ := ih hrest
      obtain ⟨rfl, rfl⟩ := of_pure h
      refine ⟨(first, span) :: parts, ?_, kfirst.cons kparts⟩
      simp
    case h_2 =>
      obtain ⟨rfl, rfl⟩ := of_pure h
      exact ⟨[], rfl, .refl _⟩

end

namespace ExprDerivations

variable {n : Nat} (h : ExprDerivations n)

include h

theorem expression_succ : Derives (.level .expression) (Parser.expression (n + 1)) := by
  intro c v c' hp
  rw [Parser.expression, bind_ok (start_eq c)] at hp
  obtain ⟨body, _, _, hbody, kbody, hp⟩ := (h.family .or).of_bind hp
  obtain ⟨if_, _, kif, hp⟩ | ⟨_, hp⟩ := of_ifAccept hp
  · obtain ⟨test, _, _, htest, ktest, hp⟩ := (h.family .or).of_bind hp
    obtain ⟨else_, _, kelse, hp⟩ := of_bind_expect hp
    obtain ⟨orelse, _, _, horelse, korelse, hp⟩ := h.expression.of_bind hp
    refine ⟨.conditional body if_ test else_ orelse, of_makeExpr ?_ ?_ hp⟩
    · exact kbody.trans (kif.cons (ktest.trans (kelse.cons korelse)))
    · rw [Derivation.act, hbody, htest, horelse]
      rfl
  · obtain ⟨rfl, rfl⟩ := of_pure hp
    exact ⟨.unconditional body, hbody, kbody⟩

theorem family_succ (f : Family) : Derives (.level (.family f)) (Parser.family (n + 1) f) := by
  intro c v c' hp
  rw [Parser.family, bind_ok (start_eq c)] at hp
  obtain ⟨left, _, _, hleft, kleft, hp⟩ := (h.operand f).of_bind hp
  exact h.joined f c _ _ v c' (.single left) hleft kleft hp

theorem operand_succ (f : Family) :
    Derives (.level (Grammar.operand f)) (Parser.operand (n + 1) f) := by
  cases f
  case or => exact h.family .and
  case and => exact h.negation
  case sum => exact h.family .product
  case product => exact h.factor

theorem joined_succ (f : Family) : Extends (.level (.family f)) (Parser.joined (n + 1) f) := by
  intro c₀ c v v' c' d hd kd hp
  rw [Parser.joined, bind_ok (rfl : peek? c = .ok (c.head?, c))] at hp
  cases ht : c.head? with
  | none =>
    rw [ht] at hp
    obtain ⟨rfl, rfl⟩ := of_pure hp
    exact ⟨d, hd, kd⟩
  | some t =>
    rw [ht, Option.bind_eq_bind, Option.bind_some] at hp
    cases hjoint : f.joint? t with
    | none =>
      rw [hjoint] at hp
      obtain ⟨rfl, rfl⟩ := of_pure hp
      exact ⟨d, hd, kd⟩
    | some joint =>
      rw [hjoint] at hp
      obtain ⟨span, _, kop, hp⟩ := of_bind_advance ht hp
      obtain ⟨right, _, _, hright, kright, hp⟩ := (h.operand f).of_bind hp
      obtain ⟨e, c₂, he, hp⟩ := of_bind hp
      have hjoined := of_makeExpr (d := .joined d ⟨⟨t, span⟩, joint, hjoint⟩ right)
        (kd.trans (kop.cons kright)) (by rw [Derivation.act, hd, hright]; rfl) he
      exact h.joined f c₀ c₂ e v' c' _ hjoined.1 hjoined.2 hp

theorem negation_succ : Derives (.level .negation) (Parser.negation (n + 1)) := by
  intro c v c' hp
  rw [Parser.negation, bind_ok (start_eq c)] at hp
  obtain ⟨not_, _, knot, hp⟩ | ⟨_, hp⟩ := of_ifAccept hp
  · obtain ⟨e, _, _, he, ke, hp⟩ := h.negation.of_bind hp
    refine ⟨.not not_ e, of_makeExpr (knot.cons ke) ?_ hp⟩
    rw [Derivation.act, he]
    rfl
  · obtain ⟨e, he, ke⟩ := h.comparison _ _ _ hp
    exact ⟨.affirmed e, he, ke⟩

theorem comparison_succ : Derives (.level .comparison) (Parser.comparison (n + 1)) := by
  intro c v c' hp
  rw [Parser.comparison, bind_ok (start_eq c)] at hp
  obtain ⟨left, _, _, hleft, kleft, hp⟩ := (h.family .sum).of_bind hp
  obtain ⟨rest, vs, _, hrest, krest, hp⟩ := h.comparisons.of_bind hp
  cases rest with
  | noComparisons =>
    cases hrest
    obtain ⟨rfl, rfl⟩ := of_pure hp
    refine ⟨.uncompared left, hleft, ?_⟩
    have k := kleft.trans krest
    rwa [Derivation.tokens, List.append_nil] at k
  | comparison op right rest =>
    obtain ⟨e, hright, hr⟩ := of_bind_eq_ok hrest
    obtain ⟨es, htail, heq⟩ := of_bind_eq_ok hr
    obtain rfl := Except.ok.inj heq
    refine ⟨.compared left op right rest, of_makeExpr (kleft.trans krest) ?_ hp⟩
    rw [Derivation.act, hleft, hright, show rest.act = _ from htail]
    rfl

theorem comparisons_succ : Derives .comparisons (Parser.comparisons (n + 1)) := by
  intro c v c' hp
  rw [Parser.comparisons] at hp
  obtain ⟨_, _, hop, hrest⟩ := of_bind hp
  obtain ⟨rfl, rfl⟩ | ⟨op, rfl, kop⟩ := of_compareOp? hop
  · obtain ⟨rfl, rfl⟩ := of_pure hrest
    exact ⟨.noComparisons, rfl, .refl _⟩
  · obtain ⟨right, _, _, hright, kright, htail⟩ := (h.family .sum).of_bind hrest
    obtain ⟨rest, _, _, hact, krest, hend⟩ := h.comparisons.of_bind htail
    obtain ⟨rfl, rfl⟩ := of_pure hend
    refine ⟨.comparison op right rest, ?_, kop.trans (kright.trans krest)⟩
    rw [Derivation.act, hright, hact]
    rfl

theorem factor_succ : Derives (.level .factor) (Parser.factor (n + 1)) := by
  intro c v c' hp
  rw [Parser.factor, bind_ok (start_eq c)] at hp
  obtain ⟨sign, _, ksign, hp⟩ | ⟨_, hp⟩ := of_ifAccept hp
  · obtain ⟨e, _, _, he, ke, hp⟩ := h.factor.of_bind hp
    refine ⟨.minus sign e, of_makeExpr (ksign.cons ke) ?_ hp⟩
    rw [Derivation.act, he]
    rfl
  · obtain ⟨sign, _, ksign, hp⟩ | ⟨_, hp⟩ := of_ifAccept hp
    · obtain ⟨e, _, _, he, ke, hp⟩ := h.factor.of_bind hp
      refine ⟨.plus sign e, of_makeExpr (ksign.cons ke) ?_ hp⟩
      rw [Derivation.act, he]
      rfl
    · obtain ⟨e, he, ke⟩ := h.power _ _ _ hp
      exact ⟨.unsigned e, he, ke⟩

theorem power_succ : Derives (.level .power) (Parser.power (n + 1)) := by
  intro c v c' hp
  rw [Parser.power, bind_ok (start_eq c)] at hp
  obtain ⟨base, _, _, hbase, kbase, hp⟩ := h.awaited.of_bind hp
  obtain ⟨op, _, kop, hp⟩ | ⟨_, hp⟩ := of_ifAccept hp
  · obtain ⟨exponent, _, _, hexponent, kexponent, hp⟩ := h.factor.of_bind hp
    refine ⟨.power base op exponent, of_makeExpr (kbase.trans (kop.cons kexponent)) ?_ hp⟩
    rw [Derivation.act, hbase, hexponent]
    rfl
  · obtain ⟨rfl, rfl⟩ := of_pure hp
    exact ⟨.unraised base, hbase, kbase⟩

theorem awaited_succ : Derives (.level .awaited) (Parser.awaited (n + 1)) := by
  intro c v c' hp
  rw [Parser.awaited, bind_ok (start_eq c)] at hp
  obtain ⟨await_, _, kawait, hp⟩ | ⟨_, hp⟩ := of_ifAccept hp
  · obtain ⟨e, _, _, he, ke, hp⟩ := h.primary.of_bind hp
    refine ⟨.await await_ e, of_makeExpr (kawait.cons ke) ?_ hp⟩
    rw [Derivation.act, he]
    rfl
  · obtain ⟨e, he, ke⟩ := h.primary _ _ _ hp
    exact ⟨.unawaited e, he, ke⟩

theorem primary_succ : Derives (.level .primary) (Parser.primary (n + 1)) := by
  intro c v c' hp
  rw [Parser.primary, bind_ok (start_eq c)] at hp
  obtain ⟨e, _, _, he, ke, hp⟩ := h.atom.of_bind hp
  exact h.extended c _ _ v c' (.plain e) he ke hp

theorem extended_succ : Extends (.level .primary) (Parser.extended (n + 1)) := by
  intro c₀ c v v' c' d hd kd hp
  rw [Parser.extended] at hp
  obtain ⟨dot, _, kdot, hp⟩ | ⟨_, hp⟩ := of_ifAccept hp
  · obtain ⟨attr, _, kattr, hp⟩ := of_bind_identifier hp
    obtain ⟨e, c₂, he, hp⟩ := of_bind hp
    have hmember := of_makeExpr (d := .member d dot attr) (kd.trans (kdot.cons kattr))
      (by rw [Derivation.act, hd]; rfl) he
    exact h.extended c₀ c₂ e v' c' _ hmember.1 hmember.2 hp
  obtain ⟨opening, _, kopening, hp⟩ | ⟨_, hp⟩ := of_ifAccept hp
  · obtain ⟨args, given, _, hargs, kargs, hp⟩ := h.arguments.of_bind hp
    obtain ⟨closing, c₁, kclosing, hp⟩ := of_bind_expect hp
    cases hsplit : splitArguments [] [] given with
    | error fault =>
      rw [hsplit] at hp
      exact (of_refuse hp).elim
    | ok split =>
      rw [hsplit] at hp
      obtain ⟨e, c₂, he, hp⟩ := of_bind hp
      have hcall := of_makeExpr (d := .call d opening args closing)
        (kd.trans (kopening.cons (kargs.trans kclosing)))
        (by rw [Derivation.act, hd, hargs, ok_bind, ok_bind, makeCall, hsplit, ok_bind]) he
      exact h.extended c₀ c₂ e v' c' _ hcall.1 hcall.2 hp
  obtain ⟨opening, _, kopening, hp⟩ | ⟨_, hp⟩ := of_ifAccept hp
  · obtain ⟨index, _, _, hindex, kindex, hp⟩ := h.expression.of_bind hp
    obtain ⟨closing, _, kclosing, hp⟩ := of_bind_expect hp
    obtain ⟨e, c₂, he, hp⟩ := of_bind hp
    have hsubscript := of_makeExpr (d := .subscript d opening index closing)
      (kd.trans (kopening.cons (kindex.trans kclosing)))
      (by rw [Derivation.act, hd, hindex]; rfl) he
    exact h.extended c₀ c₂ e v' c' _ hsubscript.1 hsubscript.2 hp
  · obtain ⟨rfl, rfl⟩ := of_pure hp
    exact ⟨d, hd, kd⟩

theorem atom_succ : Derives (.level .atom) (Parser.atom (n + 1)) := by
  intro c v c' hp
  rw [Parser.atom, bind_ok (start_eq c), bind_ok (rfl : peek? c = .ok (c.head?, c))] at hp
  generalize ht : c.head? = t at hp
  split at hp
  case h_1 s =>
    obtain ⟨span, _, ks, hp⟩ := of_bind_advance ht hp
    exact ⟨.name ⟨s, span⟩, of_makeExpr ks rfl hp⟩
  case h_2 x =>
    obtain ⟨span, _, ks, hp⟩ := of_bind_advance ht hp
    exact ⟨.float x span, of_makeExpr ks rfl hp⟩
  case h_3 s =>
    obtain ⟨value, _, hs, hp⟩ := of_bind hp
    rw [strings, bind_ok (rfl : peek? c = .ok (c.head?, c)), ht] at hs
    obtain ⟨span, _, kfirst, hs⟩ := of_bind_advance ht hs
    obtain ⟨text, _, hrest, hs⟩ := of_bind hs
    obtain ⟨rest, rfl, krest⟩ := of_strings hrest
    obtain ⟨rfl, rfl⟩ := of_pure hs
    rw [← String.join_cons] at hp
    exact ⟨.strings (s, span) rest, of_makeExpr (kfirst.cons krest) rfl hp⟩
  case h_4 =>
    obtain ⟨span, _, ks, hp⟩ := of_bind_advance ht hp
    exact ⟨.true_ span, of_makeExpr ks rfl hp⟩
  case h_5 =>
    obtain ⟨span, _, ks, hp⟩ := of_bind_advance ht hp
    exact ⟨.false_ span, of_makeExpr ks rfl hp⟩
  case h_6 =>
    obtain ⟨span, _, ks, hp⟩ := of_bind_advance ht hp
    exact ⟨.none_ span, of_makeExpr ks rfl hp⟩
  case h_7 =>
    obtain ⟨opening, _, kopening, hp⟩ := of_bind_advance ht hp
    obtain ⟨closing, _, kclosing, hp⟩ | ⟨_, hp⟩ := of_ifAccept hp
    · exact ⟨.unit opening closing, of_makeExpr (kopening.cons kclosing) rfl hp⟩
    obtain ⟨first, _, _, hfirst, kfirst, hp⟩ := h.expression.of_bind hp
    obtain ⟨comma, _, kcomma, hp⟩ | ⟨_, hp⟩ := of_ifAccept hp
    · obtain ⟨rest, _, _, hrest, krest, hp⟩ := h.elements.of_bind hp
      obtain ⟨closing, _, kclosing, hp⟩ := of_bind_expect hp
      refine ⟨.tuple opening first comma rest closing, of_makeExpr ?_ ?_ hp⟩
      · exact kopening.cons (kfirst.trans (kcomma.cons (krest.trans kclosing)))
      · rw [Derivation.act, hfirst, hrest]
        rfl
    · obtain ⟨closing, _, kclosing, hp⟩ := of_bind_expect hp
      obtain ⟨rfl, rfl⟩ := of_pure hp
      exact ⟨.enclosed opening first closing, hfirst, kopening.cons (kfirst.trans kclosing)⟩
  case h_8 =>
    obtain ⟨opening, _, kopening, hp⟩ := of_bind_advance ht hp
    obtain ⟨items, _, _, hitems, kitems, hp⟩ := h.elements.of_bind hp
    obtain ⟨closing, _, kclosing, hp⟩ := of_bind_expect hp
    refine ⟨.list opening items closing, of_makeExpr (kopening.cons (kitems.trans kclosing)) ?_ hp⟩
    rw [Derivation.act, hitems]
    rfl
  case h_9 =>
    obtain ⟨opening, _, kopening, hp⟩ := of_bind_advance ht hp
    obtain ⟨items, _, _, hitems, kitems, hp⟩ := h.entries.of_bind hp
    obtain ⟨closing, _, kclosing, hp⟩ := of_bind_expect hp
    refine ⟨.dict opening items closing, of_makeExpr (kopening.cons (kitems.trans kclosing)) ?_ hp⟩
    rw [Derivation.act, hitems]
    rfl
  case h_10 k =>
    obtain ⟨span, _, ks, hp⟩ := of_bind_advance ht hp
    exact ⟨.int k span, of_makeExpr ks rfl hp⟩
  case h_11 => exact (of_misplaced hp).elim

theorem elements_succ : Derives (.comma (.level .expression)) (Parser.elements (n + 1)) := by
  have helements := h.elements
  rw [elements_eq] at helements ⊢
  exact h.expression.row helements

theorem entries_succ : Derives (.comma .entry) (Parser.entries (n + 1)) := by
  have hentries := h.entries
  rw [entries_eq] at hentries ⊢
  refine Derives.row ?_ hentries
  intro c v c' hp
  obtain ⟨key, _, _, hkey, kkey, hp⟩ := h.expression.of_bind hp
  obtain ⟨colon, _, kcolon, hp⟩ := of_bind_expect hp
  obtain ⟨value, _, _, hvalue, kvalue, hp⟩ := h.expression.of_bind hp
  obtain ⟨rfl, rfl⟩ := of_pure hp
  refine ⟨.entry key colon value, ?_, kkey.trans (kcolon.cons kvalue)⟩
  rw [Derivation.act, hkey, hvalue]
  rfl

theorem arguments_succ : Derives (.comma .argument) (Parser.arguments (n + 1)) := by
  have harguments := h.arguments
  rw [arguments_eq] at harguments ⊢
  exact h.argument.row harguments

theorem argument_succ : Derives .argument (Parser.argument (n + 1)) := by
  intro c v c' hp
  rw [Parser.argument, bind_ok (start_eq c)] at hp
  obtain ⟨target, e, _, htarget, ktarget, hp⟩ := h.expression.of_bind hp
  obtain ⟨assign, _, kassign, hp⟩ | ⟨_, hp⟩ := of_ifAccept hp
  · obtain ⟨value, e', _, hvalue, kvalue, hp⟩ := h.expression.of_bind hp
    have hact (a : Argument) (ha : makeKeyword e e' = .ok a) :
        (Derivation.keyword target assign value).act = .ok a := by
      rw [Derivation.act, htarget, hvalue]
      exact ha
    generalize hform : Expr.form e = form at hp
    split at hp
    case h_1 s =>
      obtain ⟨rfl, rfl⟩ := of_pure hp
      refine ⟨.keyword target assign value, hact _ ?_, ktarget.trans (kassign.cons kvalue)⟩
      rw [makeKeyword, hform]
    case h_2 => exact (of_refuse hp).elim
  · obtain ⟨rfl, rfl⟩ := of_pure hp
    refine ⟨.positional target, ?_, ktarget⟩
    rw [Derivation.act, htarget]
    rfl

theorem succ : ExprDerivations (n + 1) where
  expression := h.expression_succ
  family := h.family_succ
  operand := h.operand_succ
  joined := h.joined_succ
  negation := h.negation_succ
  comparison := h.comparison_succ
  comparisons := h.comparisons_succ
  factor := h.factor_succ
  power := h.power_succ
  awaited := h.awaited_succ
  primary := h.primary_succ
  extended := h.extended_succ
  atom := h.atom_succ
  elements := h.elements_succ
  entries := h.entries_succ
  arguments := h.arguments_succ
  argument := h.argument_succ

end ExprDerivations

theorem exprDerivations (n : Nat) : ExprDerivations n := by
  induction n with
  | zero =>
    constructor
    case joined => exact fun _ => Extends.misplaced
    case extended => exact Extends.misplaced
    all_goals first | exact Derives.misplaced | exact fun _ => Derives.misplaced
  | succ n ih => exact ih.succ

end NoteCell.Grammar
