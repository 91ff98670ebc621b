import NoteCell.Proofs.Grammar.Derivations
import NoteCell.Proofs.Grammar.Derived
import NoteCell.Proofs.Parsing.Atoms
import NoteCell.Proofs.Parsing.Operators

/-!
No row of tokens has two derivations from a nonterminal for expressions. Two derivations that start
alike are compared from the left, each of them before a token that does not go on with it.
-/
namespace NoteCell.Grammar

open NoteCell.Parser

-- Tokens behind which a nonterminal is over.
def Symbol.Ends : Symbol → List Located → Prop
  | level l, ts => holdOf (kinds ts) < l.strength
  | comparisons, ts => holdOf (kinds ts) < Strength.comparison
  | argument, ts | parameter, ts => EndsExpr (kinds ts)
  | entry, ts => holdOf (kinds ts) = 0
  | comma item, ts =>
    item.Ends ts ∧ (kinds ts).head? ≠ some (.sign .comma) ∧ ¬ item.OpenedBy (kinds ts)

-- Tokens that do not cut through the last part of a nonterminal, though they may go on with it.
def Symbol.Pauses : Symbol → List Located → Prop
  | level (.family f), ts => holdOf (kinds ts) ≤ f.strength
  | level .primary, ts => holdOf (kinds ts) ≤ Strength.atom
  | s, ts => s.Ends ts

theorem Symbol.Ends.pauses {s : Symbol} {ts : List Located} (h : s.Ends ts) : s.Pauses ts := by
  cases s with
  | level l => cases l <;> first | exact Nat.le_of_lt h | exact h
  | _ => exact h

-- How a derivation goes on to one that starts with it, by the tokens between their ends.
inductive Onward : {s : Symbol} → Derivation s → Derivation s → List Located → Prop
  | refl {s : Symbol} (d : Derivation s) : Onward d d []
  | joined {f : Family} {d d' : Derivation (.level (.family f))} {link : Link f}
      {right : Derivation (.level (operand f))} {ts : List Located} :
    Onward (.joined d link right) d' ts → Onward d d' (link.token :: (right.tokens ++ ts))
  | member {d d' : Derivation (.level .primary)} {dot : Span} {attr : Name} {ts : List Located} :
    Onward (.member d dot attr) d' ts → Onward d d' (sign .dot dot :: attr.token :: ts)
  | call {d d' : Derivation (.level .primary)} {opening closing : Span}
      {args : Derivation (.comma .argument)} {ts : List Located} :
    Onward (.call d opening args closing) d' ts →
      Onward d d' (sign .lparen opening :: (args.tokens ++ sign .rparen closing :: ts))
  | subscript {d d' : Derivation (.level .primary)} {opening closing : Span}
      {index : Expression} {ts : List Located} :
    Onward (.subscript d opening index closing) d' ts →
      Onward d d' (sign .lbracket opening :: (index.tokens ++ sign .rbracket closing :: ts))

theorem Onward.trans {s : Symbol} {d d' d'' : Derivation s} {ts us : List Located}
    (h : Onward d d' ts) (h' : Onward d' d'' us) : Onward d d'' (ts ++ us) := by
  induction h with
  | refl => exact h'
  | joined _ ih => simpa using (ih h').joined
  | member _ ih => simpa using (ih h').member
  | call _ ih => simpa using (ih h').call
  | subscript _ ih => simpa using (ih h').subscript

-- Whatever derivation starts with the tokens of `d` goes on from `d`.
def Unique {s : Symbol} (d : Derivation s) : Prop :=
  ∀ d' rest rest', s.Pauses rest → s.Ends rest' → d.tokens ++ rest = d'.tokens ++ rest' →
    ∃ ts, Onward d d' ts ∧ rest = ts ++ rest'

theorem Link.hold {f : Family} (link : Link f) : link.token.token.hold = f.strength := by
  obtain ⟨⟨t, span⟩, joint, h⟩ := link
  dsimp only at h ⊢
  unfold Family.joint? at h
  split at h <;> first | rfl | cases h

theorem Unique.eq {s : Symbol} {d d' : Derivation s} {rest rest' : List Located} (h : Unique d)
    (hrest : s.Ends rest) (hrest' : s.Ends rest')
    (heq : d.tokens ++ rest = d'.tokens ++ rest') : d = d' ∧ rest = rest' := by
  obtain ⟨ts, honward, rfl⟩ := h d' rest rest' hrest.pauses hrest' heq
  cases honward with
  | refl => exact ⟨rfl, rfl⟩
  | joined => simp [Symbol.Ends, Level.strength, Link.hold] at hrest
  | member | call | subscript => exact (Nat.lt_irrefl _ hrest).elim

-- Where nothing goes on, it is enough to compare derivations that are over.
theorem Unique.of_eq {s : Symbol} {d : Derivation s} (hs : ∀ ts, s.Pauses ts → s.Ends ts)
    (h : ∀ d' rest rest', s.Ends rest → s.Ends rest' → d.tokens ++ rest = d'.tokens ++ rest' →
      d = d' ∧ rest = rest') : Unique d := by
  intro d' rest rest' hrest hrest' heq
  obtain ⟨rfl, rfl⟩ := h d' rest rest' (hs rest hrest) hrest' heq
  exact ⟨[], .refl d, rfl⟩

theorem Link.ext_token {f : Family} {link link' : Link f}
    (h : link.token = link'.token) : link = link' := by
  obtain ⟨t, joint, hjoint⟩ := link
  obtain ⟨t', joint', hjoint'⟩ := link'
  cases h
  obtain rfl := Option.some.inj (hjoint.symm.trans hjoint')
  rfl

-- What a loop of the grammar starts with.
def Begins : {s : Symbol} → Derivation s → Prop
  | .level (.family _), d => ∃ e ts, Onward (.single e) d ts ∧ d.tokens = e.tokens ++ ts
  | .level .primary, d => ∃ e ts, Onward (.plain e) d ts ∧ d.tokens = e.tokens ++ ts
  | _, _ => True

theorem begins {s : Symbol} (d : Derivation s) : Begins d := by
  induction d
  case joined left link right hleft _ =>
    obtain ⟨e, ts, honward, htokens⟩ := hleft
    refine ⟨e, ts ++ (link.token :: (right.tokens ++ [])), honward.trans (.joined (.refl _)), ?_⟩
    simp [htokens]
  case single e _ => exact ⟨e, [], .refl _, (List.append_nil _).symm⟩
  case member value dot attr hvalue =>
    obtain ⟨e, ts, honward, htokens⟩ := hvalue
    refine ⟨e, ts ++ [sign .dot dot, attr.token], honward.trans (.member (.refl _)), ?_⟩
    simp [htokens]
  case call func opening args closing hfunc _ =>
    obtain ⟨e, ts, honward, htokens⟩ := hfunc
    refine ⟨e, ts ++ sign .lparen opening :: (args.tokens ++ [sign .rparen closing]),
      honward.trans (.call (.refl _)), ?_⟩
    simp [htokens]
  case subscript value opening index closing hvalue _ =>
    obtain ⟨e, ts, honward, htokens⟩ := hvalue
    refine ⟨e, ts ++ sign .lbracket opening :: (index.tokens ++ [sign .rbracket closing]),
      honward.trans (.subscript (.refl _)), ?_⟩
    simp [htokens]
  case plain e _ => exact ⟨e, [], .refl _, (List.append_nil _).symm⟩
  all_goals trivial

theorem Onward.pauses {s : Symbol} {d d' : Derivation s} {ts rest : List Located}
    (h : Onward d d' ts) (hrest : s.Ends rest) : s.Pauses (ts ++ rest) := by
  cases h with
  | refl => exact hrest.pauses
  | joined => exact Nat.le_of_eq (Link.hold _)
  | member | call | subscript => exact Nat.le_refl _

theorem strength_operand (f : Family) : (operand f).strength = f.strength + 1 := by
  cases f <;> rfl

-- Behind an operand there may be a link or what may stand behind the whole.
theorem ends_operand {f : Family} {ts : List Located} (h : holdOf (kinds ts) ≤ f.strength) :
    (Symbol.level (operand f)).Ends ts := by
  rw [Symbol.Ends, strength_operand]
  exact Nat.lt_succ_of_le h

theorem ends_level {l : Level} {t : Located} {ts : List Located}
    (h : Nat.blt t.token.hold l.strength = true) : (Symbol.level l).Ends (t :: ts) := by
  rw [Symbol.Ends, kinds_cons, holdOf_cons]
  exact Nat.ble_eq.mp h

theorem not_ends_level {l : Level} {t : Located} {ts : List Located}
    (h : (Symbol.level l).Ends (t :: ts)) (ht : Nat.ble l.strength t.token.hold = true) : False :=
  Nat.not_le_of_lt h (Nat.ble_eq.mp ht)

theorem Symbol.Ends.weaken {l l' : Level} {ts : List Located} (h : (level l).Ends ts)
    (hl : Nat.ble l.strength l'.strength = true) : (level l').Ends ts :=
  Nat.lt_of_lt_of_le h (Nat.ble_eq.mp hl)

theorem not_begins {l : Level} {d : Derivation (.level l)} {t : Located} {ts rest : List Located}
    (h : t :: ts = d.tokens ++ rest) (ht : t.token.opens l.strength = false) : False := by
  obtain ⟨u, us, hkinds, hu⟩ := opens_tokens d
  have hhead := congrArg kinds h
  rw [kinds_cons, kinds_append, hkinds, List.cons_append, List.cons.injEq] at hhead
  rw [← hhead.1, ht] at hu
  cases hu

theorem comparator_eq {op op' : Comparator} {ts ts' : List Located}
    (h : op.words ++ ts = op'.words ++ ts') (hts : Opens Strength.sum (kinds ts))
    (hts' : Opens Strength.sum (kinds ts')) : op = op' ∧ ts = ts' := by
  obtain ⟨op, words, hwords⟩ := op
  obtain ⟨op', words', hwords'⟩ := op'
  have hop : op = op' := by
    have hkinds : op.tokens ++ kinds ts = op'.tokens ++ kinds ts' := by
      rw [← hwords, ← hwords']
      simpa [kinds] using congrArg kinds h
    obtain ⟨t, us, hus, ht⟩ := hts
    obtain ⟨t', us', hus', ht'⟩ := hts'
    have hplain {t : Token} (ht : t.opens Strength.sum) : t ≠ .word .not_ ∧ t ≠ .word .in_ := by
      constructor <;> rintro rfl <;> cases ht
    have hts := hplain ht
    have hts' := hplain ht'
    rw [hus, hus'] at hkinds
    cases op <;> cases op' <;> simp [CompareOp.tokens] at hkinds ⊢
    · exact hts.1 hkinds.1
    · exact hts'.1 hkinds.1.symm
  subst hop
  have hlength : words.length = words'.length := by
    rw [← List.length_map (f := Located.token), hwords, ← hwords', List.length_map]
  obtain ⟨rfl, rfl⟩ := List.append_inj h hlength
  exact ⟨rfl, rfl⟩

theorem Name.ext_token {n n' : Name} (h : n.token = n'.token) : n = n' := by
  cases n
  cases n'
  cases h
  rfl

-- What a row between commas may be made of.
def Symbol.IsItem : Symbol → Prop
  | level .expression | argument | entry | parameter => True
  | _ => False

theorem openedBy_append {item : Symbol} {d : Derivation item} (hitem : item.IsItem)
    (us : List Located) : item.OpenedBy (kinds (d.tokens ++ us)) := by
  have h := openedBy_tokens d
  cases item
  case level l => exact opens_append h le_rfl us
  case argument | entry => exact opens_append h le_rfl us
  case parameter =>
    obtain ⟨name, ts, hname⟩ := h
    exact ⟨name, ts ++ kinds us, by rw [kinds_append, hname, List.cons_append]⟩
  all_goals exact hitem.elim

-- A sign that ends an expression and does not start or assign to one.
theorem ends_item {s : Sign} {item : Symbol} {span : Span} {ts : List Located}
    (hitem : item.IsItem) (hs : s.closes ∨ s = .comma) : item.Ends (sign s span :: ts) := by
  have hend : (Token.sign s).hold = 0 ∧ s ≠ .assign := by
    cases s <;> first | exact ⟨rfl, by decide⟩ | exact absurd hs (by decide)
  have hexpr : EndsExpr (kinds (sign s span :: ts)) :=
    ⟨hend.1, fun h => hend.2 (Token.sign.inj (Option.some.inj h))⟩
  cases item
  case level l =>
    cases l
    case expression => exact Nat.lt_one_iff.mpr hend.1
    all_goals exact hitem.elim
  case argument | parameter => exact hexpr
  case entry => exact hend.1
  all_goals exact hitem.elim

theorem not_openedBy {s : Sign} {item : Symbol} {span : Span} {ts : List Located}
    (hitem : item.IsItem) (hs : (Token.sign s).startsExpression = false) :
    ¬ item.OpenedBy (kinds (sign s span :: ts)) := by
  have hopens : ¬ Opens Strength.test (kinds (sign s span :: ts)) := by
    intro h
    have hstarts : (Token.sign s).startsExpression = true := h.startsWith []
    rw [hs] at hstarts
    cases hstarts
  cases item
  case level l =>
    cases l
    case expression => exact hopens
    all_goals exact hitem.elim
  case argument | entry => exact hopens
  case parameter =>
    rintro ⟨name, us, h⟩
    cases (List.cons.inj h).1
  all_goals exact hitem.elim

theorem ends_closing {s : Sign} {item : Symbol} {span : Span} {ts : List Located}
    (hitem : item.IsItem) (hs : s.closes) : (Symbol.comma item).Ends (sign s span :: ts) := by
  have hstarts : (Token.sign s).startsExpression = false ∧ s ≠ .comma := by
    cases s <;> first | exact ⟨rfl, by decide⟩ | exact absurd hs (by decide)
  exact ⟨ends_item hitem (.inl hs),
    fun h => hstarts.2 (Token.sign.inj (Option.some.inj h)), not_openedBy hitem hstarts.1⟩

theorem ends_expression {ts : List Located} (h : EndsExpr (kinds ts)) :
    (Symbol.level .expression).Ends ts := by
  rw [Symbol.Ends, h.hold]
  exact Nat.zero_lt_one

-- Rows are only made of what a row may be made of.
def Symbol.Proper : Symbol → Prop
  | comma item => item.IsItem
  | _ => True

theorem Symbol.IsItem.proper {item : Symbol} (h : item.IsItem) : item.Proper := by
  cases item
  case comma => exact h.elim
  all_goals trivial

-- The atom that is one token, if the token is one.
def leafOf? : Located → Option (Derivation (.level .atom))
  | ⟨.name s, span⟩ => some (.name ⟨s, span⟩)
  | ⟨.int value, span⟩ => some (.int value span)
  | ⟨.float value, span⟩ => some (.float value span)
  | ⟨.word .true_, span⟩ => some (.true_ span)
  | ⟨.word .false_, span⟩ => some (.false_ span)
  | ⟨.word .none_, span⟩ => some (.none_ span)
  | _ => none

theorem eq_of_leafOf? {t : Located} {d d' : Derivation (.level .atom)} {ts rest : List Located}
    (ht : leafOf? t = some d) (h : t :: ts = d'.tokens ++ rest) : d = d' ∧ ts = rest := by
  cases d' <;> obtain ⟨rfl, hts⟩ := List.cons.inj h <;> cases ht
  all_goals exact ⟨rfl, hts⟩

theorem stringToken_inj {p p' : String × Span} (h : stringToken p = stringToken p') : p = p' := by
  obtain ⟨text, span⟩ := p
  obtain ⟨text', span'⟩ := p'
  simpa [stringToken] using h

theorem strings_eq {parts parts' : List (String × Span)} {rest rest' : List Located}
    (hrest : (Symbol.level .atom).Ends rest) (hrest' : (Symbol.level .atom).Ends rest')
    (h : parts.map stringToken ++ rest = parts'.map stringToken ++ rest') :
    parts = parts' ∧ rest = rest' := by
  induction parts generalizing parts' with
  | nil =>
    cases parts' with
    | nil => exact ⟨rfl, h⟩
    | cons p parts' =>
      rw [List.map_nil, List.nil_append] at h
      subst h
      exact absurd hrest (Nat.lt_irrefl _)
  | cons p parts ih =>
    cases parts' with
    | nil =>
      rw [List.map_nil, List.nil_append] at h
      subst h
      exact absurd hrest' (Nat.lt_irrefl _)
    | cons p' parts' =>
      obtain ⟨hp, h₁⟩ := List.cons.inj h
      obtain ⟨rfl, rfl⟩ := ih h₁
      exact ⟨congrArg (· :: parts) (stringToken_inj hp), rfl⟩

theorem hold_words (op : Comparator) (ts : List Located) :
    holdOf (kinds (op.words ++ ts)) = Strength.comparison := by
  obtain ⟨op, words, hwords⟩ := op
  rw [kinds_append, kinds, hwords]
  cases op <;> rfl

theorem ends_words (op : Comparator) (ts : List Located) :
    (Symbol.level (.family .sum)).Ends (op.words ++ ts) := by
  rw [Symbol.Ends, hold_words]
  exact Nat.lt_succ_self _

theorem not_ends_words {op : Comparator} {ts : List Located}
    (h : (Symbol.level .comparison).Ends (op.words ++ ts)) : False := by
  rw [Symbol.Ends, hold_words] at h
  exact Nat.lt_irrefl _ h

-- Behind a comparison there may be a further one or what may stand behind the whole.
theorem ends_comparisons (rest : Derivation .comparisons) {ts : List Located}
    (h : (Symbol.level .comparison).Ends ts) :
    (Symbol.level (.family .sum)).Ends (rest.tokens ++ ts) := by
  cases rest with
  | noComparisons => exact h.weaken rfl
  | comparison op right rest =>
    rw [Derivation.tokens, List.append_assoc]
    exact ends_words op _

-- No token goes on with an operand of a sign and not with what is stronger.
theorem ends_factor {ts : List Located} (h : (Symbol.level .power).Ends ts) :
    (Symbol.level .factor).Ends ts :=
  lt_sign_of_lt_power h

namespace Unique

section

variable {rest rest' : List Located}

theorem conditional {body test : Derivation (.level (.family .or))} {orelse : Expression}
    (hbody : Unique body) (htest : Unique test) (horelse : Unique orelse) (if_ else_ : Span) :
    Unique (.conditional body if_ test else_ orelse) := by
  refine .of_eq (fun _ h => h) fun d' rest rest' hrest hrest' h => ?_
  cases d' with
  | conditional body' if_' test' else_' orelse' =>
    simp only [Derivation.tokens, List.append_assoc, List.cons_append] at h
    obtain ⟨rfl, h₁⟩ := hbody.eq (ends_level rfl) (ends_level rfl) h
    obtain ⟨hif, h₂⟩ := List.cons.inj h₁
    obtain ⟨rfl, h₃⟩ := htest.eq (ends_level rfl) (ends_level rfl) h₂
    obtain ⟨helse, h₄⟩ := List.cons.inj h₃
    obtain ⟨rfl, rfl⟩ := horelse.eq hrest hrest' h₄
    cases hif
    cases helse
    exact ⟨rfl, rfl⟩
  | unconditional e' =>
    simp only [Derivation.tokens, List.append_assoc, List.cons_append] at h
    obtain ⟨rfl, rfl⟩ := hbody.eq (ends_level rfl) (hrest'.weaken rfl) h
    exact (not_ends_level hrest' rfl).elim

theorem unconditional {e : Derivation (.level (.family .or))} (he : Unique e) :
    Unique (.unconditional e) := by
  refine .of_eq (fun _ h => h) fun d' rest rest' hrest hrest' h => ?_
  cases d' with
  | conditional body' if_' test' else_' orelse' =>
    simp only [Derivation.tokens, List.append_assoc, List.cons_append] at h
    obtain ⟨rfl, rfl⟩ := he.eq (hrest.weaken rfl) (ends_level rfl) h
    exact (not_ends_level hrest rfl).elim
  | unconditional e' =>
    obtain ⟨rfl, rfl⟩ := he.eq (hrest.weaken rfl) (hrest'.weaken rfl) h
    exact ⟨rfl, rfl⟩

theorem joined {f : Family} {left : Derivation (.level (.family f))}
    {right : Derivation (.level (operand f))} (hleft : Unique left) (hright : Unique right)
    (link : Link f) : Unique (.joined left link right) := by
  intro d' rest rest' hrest hrest' h
  simp only [Derivation.tokens, List.append_assoc, List.cons_append] at h
  obtain ⟨ts, honward, hts⟩ := hleft d' (link.token :: (right.tokens ++ rest)) rest'
    (Nat.le_of_eq link.hold) hrest' h
  cases honward with
  | refl =>
    subst hts
    exact absurd hrest' (by simp [Symbol.Ends, Level.strength, link.hold])
  | @joined _ _ _ link' right' ts honward =>
    obtain ⟨hlink, hright'⟩ := List.cons.inj hts
    obtain rfl := Link.ext_token hlink
    have hright'' : right.tokens ++ rest = right'.tokens ++ (ts ++ rest') :=
      hright'.trans (List.append_assoc ..)
    obtain ⟨rfl, rfl⟩ := hright.eq (ends_operand hrest) (ends_operand (honward.pauses hrest'))
      hright''
    exact ⟨ts, honward, rfl⟩

theorem single {f : Family} {e : Derivation (.level (operand f))} (he : Unique e) :
    Unique (.single e) := by
  intro d' rest rest' hrest hrest' h
  obtain ⟨e', ts, honward, htokens⟩ := begins d'
  rw [htokens, List.append_assoc] at h
  obtain ⟨rfl, rfl⟩ := he.eq (ends_operand hrest) (ends_operand (honward.pauses hrest')) h
  exact ⟨ts, honward, rfl⟩

theorem not {e : Derivation (.level .negation)} (he : Unique e) (not_ : Span) :
    Unique (.not not_ e) := by
  refine .of_eq (fun _ h => h) fun d' rest rest' hrest hrest' h => ?_
  cases d' with
  | not not_' e' =>
    obtain ⟨hnot, h₁⟩ := List.cons.inj h
    obtain ⟨rfl, rfl⟩ := he.eq hrest hrest' h₁
    cases hnot
    exact ⟨rfl, rfl⟩
  | affirmed e' => exact (not_begins (d := e') h rfl).elim

theorem affirmed {e : Derivation (.level .comparison)} (he : Unique e) :
    Unique (.affirmed e) := by
  refine .of_eq (fun _ h => h) fun d' rest rest' hrest hrest' h => ?_
  cases d' with
  | not not_' e' => exact (not_begins (d := e) h.symm rfl).elim
  | affirmed e' =>
    obtain ⟨rfl, rfl⟩ := he.eq (hrest.weaken rfl) (hrest'.weaken rfl) h
    exact ⟨rfl, rfl⟩

theorem compared {left right : Derivation (.level (.family .sum))}
    {comparisons : Derivation .comparisons} (hleft : Unique left) (hright : Unique right)
    (hcomparisons : Unique comparisons) (op : Comparator) :
    Unique (.compared left op right comparisons) := by
  refine .of_eq (fun _ h => h) fun d' rest rest' hrest hrest' h => ?_
  cases d' with
  | compared left' op' right' comparisons' =>
    simp only [Derivation.tokens, List.append_assoc] at h
    obtain ⟨rfl, h₁⟩ := hleft.eq (ends_words op _) (ends_words op' _) h
    obtain ⟨rfl, h₂⟩ := comparator_eq h₁ (opens_append (opens_tokens right) le_rfl _)
      (opens_append (opens_tokens right') le_rfl _)
    obtain ⟨rfl, h₃⟩ := hright.eq (ends_comparisons comparisons hrest)
      (ends_comparisons comparisons' hrest') h₂
    obtain ⟨rfl, rfl⟩ := hcomparisons.eq hrest hrest' h₃
    exact ⟨rfl, rfl⟩
  | uncompared e' =>
    simp only [Derivation.tokens, List.append_assoc] at h
    obtain ⟨rfl, rfl⟩ := hleft.eq (ends_words op _) (hrest'.weaken rfl) h
    exact (not_ends_words hrest').elim

theorem uncompared {e : Derivation (.level (.family .sum))} (he : Unique e) :
    Unique (.uncompared e) := by
  refine .of_eq (fun _ h => h) fun d' rest rest' hrest hrest' h => ?_
  cases d' with
  | compared left' op' right' comparisons' =>
    simp only [Derivation.tokens, List.append_assoc] at h
    obtain ⟨rfl, rfl⟩ := he.eq (hrest.weaken rfl) (ends_words op' _) h
    exact (not_ends_words hrest).elim
  | uncompared e' =>
    obtain ⟨rfl, rfl⟩ := he.eq (hrest.weaken rfl) (hrest'.weaken rfl) h
    exact ⟨rfl, rfl⟩

theorem noComparisons : Unique .noComparisons := by
  refine .of_eq (fun _ h => h) fun d' rest rest' hrest hrest' h => ?_
  cases d' with
  | noComparisons => exact ⟨rfl, h⟩
  | comparison op' right' comparisons' =>
    simp only [Derivation.tokens, List.append_assoc, List.nil_append] at h
    subst h
    exact (not_ends_words hrest).elim

theorem comparison {right : Derivation (.level (.family .sum))}
    {comparisons : Derivation .comparisons} (hright : Unique right)
    (hcomparisons : Unique comparisons) (op : Comparator) :
    Unique (.comparison op right comparisons) := by
  refine .of_eq (fun _ h => h) fun d' rest rest' hrest hrest' h => ?_
  cases d' with
  | noComparisons =>
    simp only [Derivation.tokens, List.append_assoc, List.nil_append] at h
    subst h
    exact (not_ends_words hrest').elim
  | comparison op' right' comparisons' =>
    simp only [Derivation.tokens, List.append_assoc] at h
    obtain ⟨rfl, h₁⟩ := comparator_eq h (opens_append (opens_tokens right) le_rfl _)
      (opens_append (opens_tokens right') le_rfl _)
    obtain ⟨rfl, h₂⟩ := hright.eq (ends_comparisons comparisons hrest)
      (ends_comparisons comparisons' hrest') h₁
    obtain ⟨rfl, rfl⟩ := hcomparisons.eq hrest hrest' h₂
    exact ⟨rfl, rfl⟩

theorem minus {e : Derivation (.level .factor)} (he : Unique e) (span : Span) :
    Unique (.minus span e) := by
  refine .of_eq (fun _ h => h) fun d' rest rest' hrest hrest' h => ?_
  cases d' with
  | minus span' e' =>
    obtain ⟨hsign, h₁⟩ := List.cons.inj h
    obtain ⟨rfl, rfl⟩ := he.eq hrest hrest' h₁
    cases hsign
    exact ⟨rfl, rfl⟩
  | plus span' e' => cases (List.cons.inj h).1
  | unsigned e' => exact (not_begins (d := e') h rfl).elim

theorem plus {e : Derivation (.level .factor)} (he : Unique e) (span : Span) :
    Unique (.plus span e) := by
  refine .of_eq (fun _ h => h) fun d' rest rest' hrest hrest' h => ?_
  cases d' with
  | minus span' e' => cases (List.cons.inj h).1
  | plus span' e' =>
    obtain ⟨hsign, h₁⟩ := List.cons.inj h
    obtain ⟨rfl, rfl⟩ := he.eq hrest hrest' h₁
    cases hsign
    exact ⟨rfl, rfl⟩
  | unsigned e' => exact (not_begins (d := e') h rfl).elim

theorem unsigned {e : Derivation (.level .power)} (he : Unique e) : Unique (.unsigned e) := by
  refine .of_eq (fun _ h => h) fun d' rest rest' hrest hrest' h => ?_
  cases d' with
  | minus span' e' => exact (not_begins (d := e) h.symm rfl).elim
  | plus span' e' => exact (not_begins (d := e) h.symm rfl).elim
  | unsigned e' =>
    obtain ⟨rfl, rfl⟩ := he.eq (hrest.weaken rfl) (hrest'.weaken rfl) h
    exact ⟨rfl, rfl⟩

theorem power {base : Derivation (.level .awaited)} {exponent : Derivation (.level .factor)}
    (hbase : Unique base) (hexponent : Unique exponent) (op : Span) :
    Unique (.power base op exponent) := by
  refine .of_eq (fun _ h => h) fun d' rest rest' hrest hrest' h => ?_
  cases d' with
  | power base' op' exponent' =>
    simp only [Derivation.tokens, List.append_assoc, List.cons_append] at h
    obtain ⟨rfl, h₁⟩ := hbase.eq (ends_level rfl) (ends_level rfl) h
    obtain ⟨hop, h₂⟩ := List.cons.inj h₁
    obtain ⟨rfl, rfl⟩ := hexponent.eq (ends_factor hrest) (ends_factor hrest') h₂
    cases hop
    exact ⟨rfl, rfl⟩
  | unraised e' =>
    simp only [Derivation.tokens, List.append_assoc, List.cons_append] at h
    obtain ⟨rfl, rfl⟩ := hbase.eq (ends_level rfl) (hrest'.weaken rfl) h
    exact (not_ends_level hrest' rfl).elim

theorem unraised {e : Derivation (.level .awaited)} (he : Unique e) : Unique (.unraised e) := by
  refine .of_eq (fun _ h => h) fun d' rest rest' hrest hrest' h => ?_
  cases d' with
  | power base' op' exponent' =>
    simp only [Derivation.tokens, List.append_assoc, List.cons_append] at h
    obtain ⟨rfl, rfl⟩ := he.eq (hrest.weaken rfl) (ends_level rfl) h
    exact (not_ends_level hrest rfl).elim
  | unraised e' =>
    obtain ⟨rfl, rfl⟩ := he.eq (hrest.weaken rfl) (hrest'.weaken rfl) h
    exact ⟨rfl, rfl⟩

theorem await {e : Derivation (.level .primary)} (he : Unique e) (await_ : Span) :
    Unique (.await await_ e) := by
  refine .of_eq (fun _ h => h) fun d' rest rest' hrest hrest' h => ?_
  cases d' with
  | await await_' e' =>
    obtain ⟨hawait, h₁⟩ := List.cons.inj h
    obtain ⟨rfl, rfl⟩ := he.eq (hrest.weaken rfl) (hrest'.weaken rfl) h₁
    cases hawait
    exact ⟨rfl, rfl⟩
  | unawaited e' => exact (not_begins (d := e') h rfl).elim

theorem unawaited {e : Derivation (.level .primary)} (he : Unique e) : Unique (.unawaited e) := by
  refine .of_eq (fun _ h => h) fun d' rest rest' hrest hrest' h => ?_
  cases d' with
  | await await_' e' => exact (not_begins (d := e) h.symm rfl).elim
  | unawaited e' =>
    obtain ⟨rfl, rfl⟩ := he.eq (hrest.weaken rfl) (hrest'.weaken rfl) h
    exact ⟨rfl, rfl⟩

theorem member {value : Derivation (.level .primary)} (hvalue : Unique value) (dot : Span)
    (attr : Name) : Unique (.member value dot attr) := by
  intro d' rest rest' hrest hrest' h
  simp only [Derivation.tokens, List.append_assoc, List.cons_append, List.nil_append] at h
  obtain ⟨ts, honward, hts⟩ := hvalue d' _ rest' (Nat.le_refl _) hrest' h
  cases honward with
  | refl =>
    subst hts
    exact (not_ends_level hrest' rfl).elim
  | member honward =>
    obtain ⟨hdot, hts⟩ := List.cons.inj hts
    obtain ⟨hattr, rfl⟩ := List.cons.inj hts
    obtain rfl := Name.ext_token hattr
    cases hdot
    exact ⟨_, honward, rfl⟩
  | call | subscript => cases (List.cons.inj hts).1

theorem call {func : Derivation (.level .primary)} {args : Derivation (.comma .argument)}
    (hfunc : Unique func) (hargs : Unique args) (opening closing : Span) :
    Unique (.call func opening args closing) := by
  intro d' rest rest' hrest hrest' h
  simp only [Derivation.tokens, List.append_assoc, List.cons_append, List.nil_append] at h
  obtain ⟨ts, honward, hts⟩ := hfunc d' _ rest' (Nat.le_refl _) hrest' h
  cases honward with
  | refl =>
    subst hts
    exact (not_ends_level hrest' rfl).elim
  | call honward =>
    simp only [List.cons_append, List.append_assoc] at hts
    obtain ⟨hopening, h₁⟩ := List.cons.inj hts
    obtain ⟨rfl, h₂⟩ := hargs.eq (ends_closing trivial rfl) (ends_closing trivial rfl) h₁
    obtain ⟨hclosing, rfl⟩ := List.cons.inj h₂
    cases hopening
    cases hclosing
    exact ⟨_, honward, rfl⟩
  | member | subscript => cases (List.cons.inj hts).1

theorem subscript {value : Derivation (.level .primary)} {index : Expression}
    (hvalue : Unique value) (hindex : Unique index) (opening closing : Span) :
    Unique (.subscript value opening index closing) := by
  intro d' rest rest' hrest hrest' h
  simp only [Derivation.tokens, List.append_assoc, List.cons_append, List.nil_append] at h
  obtain ⟨ts, honward, hts⟩ := hvalue d' _ rest' (Nat.le_refl _) hrest' h
  cases honward with
  | refl =>
    subst hts
    exact (not_ends_level hrest' rfl).elim
  | subscript honward =>
    simp only [List.cons_append, List.append_assoc] at hts
    obtain ⟨hopening, h₁⟩ := List.cons.inj hts
    obtain ⟨rfl, h₂⟩ := hindex.eq (ends_level rfl) (ends_level rfl) h₁
    obtain ⟨hclosing, rfl⟩ := List.cons.inj h₂
    cases hopening
    cases hclosing
    exact ⟨_, honward, rfl⟩
  | member | call => cases (List.cons.inj hts).1

theorem plain {e : Derivation (.level .atom)} (he : Unique e) : Unique (.plain e) := by
  intro d' rest rest' hrest hrest' h
  obtain ⟨e', ts, honward, htokens⟩ := begins d'
  rw [htokens, List.append_assoc] at h
  obtain ⟨rfl, rfl⟩ := he.eq (Nat.lt_succ_of_le hrest)
    (Nat.lt_succ_of_le (honward.pauses hrest')) h
  exact ⟨ts, honward, rfl⟩

theorem positional {e : Expression} (he : Unique e) : Unique (.positional e) := by
  refine .of_eq (fun _ h => h) fun d' rest rest' hrest hrest' h => ?_
  cases d' with
  | positional e' =>
    obtain ⟨rfl, rfl⟩ := he.eq (ends_expression hrest) (ends_expression hrest') h
    exact ⟨rfl, rfl⟩
  | keyword target' assign' value' =>
    simp only [Derivation.tokens, List.append_assoc, List.cons_append] at h
    obtain ⟨rfl, rfl⟩ := he.eq (ends_expression hrest) (ends_level rfl) h
    exact (hrest.noAssign rfl).elim

theorem keyword {target value : Expression} (htarget : Unique target) (hvalue : Unique value)
    (assign : Span) : Unique (.keyword target assign value) := by
  refine .of_eq (fun _ h => h) fun d' rest rest' hrest hrest' h => ?_
  cases d' with
  | positional e' =>
    simp only [Derivation.tokens, List.append_assoc, List.cons_append] at h
    obtain ⟨rfl, rfl⟩ := htarget.eq (ends_level rfl) (ends_expression hrest') h
    exact (hrest'.noAssign rfl).elim
  | keyword target' assign' value' =>
    simp only [Derivation.tokens, List.append_assoc, List.cons_append] at h
    obtain ⟨rfl, h₁⟩ := htarget.eq (ends_level rfl) (ends_level rfl) h
    obtain ⟨hassign, h₂⟩ := List.cons.inj h₁
    obtain ⟨rfl, rfl⟩ := hvalue.eq (ends_expression hrest) (ends_expression hrest') h₂
    cases hassign
    exact ⟨rfl, rfl⟩

theorem entry {key value : Expression} (hkey : Unique key) (hvalue : Unique value)
    (colon : Span) : Unique (.entry key colon value) := by
  refine .of_eq (fun _ h => h) fun d' rest rest' hrest hrest' h => ?_
  cases d' with
  | entry key' colon' value' =>
    simp only [Derivation.tokens, List.append_assoc, List.cons_append] at h
    obtain ⟨rfl, h₁⟩ := hkey.eq (ends_level rfl) (ends_level rfl) h
    obtain ⟨hcolon, h₂⟩ := List.cons.inj h₁
    obtain ⟨rfl, rfl⟩ := hvalue.eq (Nat.lt_one_iff.mpr hrest) (Nat.lt_one_iff.mpr hrest') h₂
    cases hcolon
    exact ⟨rfl, rfl⟩

theorem required (name : Name) : Unique (.required name) := by
  refine .of_eq (fun _ h => h) fun d' rest rest' hrest hrest' h => ?_
  cases d' with
  | required name' =>
    obtain ⟨hname, rfl⟩ := List.cons.inj h
    obtain rfl := Name.ext_token hname
    exact ⟨rfl, rfl⟩
  | optional name' assign' default' =>
    obtain ⟨_, rfl⟩ := List.cons.inj h
    exact (hrest.noAssign rfl).elim

theorem optional {default : Expression} (hdefault : Unique default) (name : Name)
    (assign : Span) : Unique (.optional name assign default) := by
  refine .of_eq (fun _ h => h) fun d' rest rest' hrest hrest' h => ?_
  cases d' with
  | required name' =>
    obtain ⟨_, rfl⟩ := List.cons.inj h
    exact (hrest'.noAssign rfl).elim
  | optional name' assign' default' =>
    obtain ⟨hname, h₁⟩ := List.cons.inj h
    obtain ⟨hassign, h₂⟩ := List.cons.inj h₁
    obtain ⟨rfl, rfl⟩ := hdefault.eq (ends_expression hrest) (ends_expression hrest') h₂
    obtain rfl := Name.ext_token hname
    cases hassign
    exact ⟨rfl, rfl⟩

theorem noItems {item : Symbol} (hitem : item.IsItem) : Unique (@Derivation.noItems item) := by
  refine .of_eq (fun _ h => h) fun d' rest rest' hrest hrest' h => ?_
  rw [Derivation.tokens, List.nil_append] at h
  subst h
  cases d' with
  | noItems => exact ⟨rfl, rfl⟩
  | lastItem e' => exact (hrest.2.2 (openedBy_append hitem rest')).elim
  | item e' comma' items' =>
    rw [Derivation.tokens, List.append_assoc] at hrest
    exact (hrest.2.2 (openedBy_append hitem _)).elim

theorem lastItem {item : Symbol} {e : Derivation item} (hitem : item.IsItem) (he : Unique e) :
    Unique (.lastItem e) := by
  refine .of_eq (fun _ h => h) fun d' rest rest' hrest hrest' h => ?_
  cases d' with
  | noItems =>
    rw [Derivation.tokens, Derivation.tokens, List.nil_append] at h
    subst h
    exact (hrest'.2.2 (openedBy_append hitem rest)).elim
  | lastItem e' =>
    obtain ⟨rfl, rfl⟩ := he.eq hrest.1 hrest'.1 h
    exact ⟨rfl, rfl⟩
  | item e' comma' items' =>
    simp only [Derivation.tokens, List.append_assoc, List.cons_append] at h
    obtain ⟨rfl, rfl⟩ := he.eq hrest.1 (ends_item hitem (.inr rfl)) h
    exact (hrest.2.1 rfl).elim

theorem item {item : Symbol} {e : Derivation item} {items : Derivation (.comma item)}
    (hitem : item.IsItem) (he : Unique e) (hitems : Unique items) (comma : Span) :
    Unique (.item e comma items) := by
  refine .of_eq (fun _ h => h) fun d' rest rest' hrest hrest' h => ?_
  cases d' with
  | noItems =>
    rw [Derivation.tokens, Derivation.tokens, List.nil_append] at h
    subst h
    rw [List.append_assoc] at hrest'
    exact (hrest'.2.2 (openedBy_append hitem _)).elim
  | lastItem e' =>
    simp only [Derivation.tokens, List.append_assoc, List.cons_append] at h
    obtain ⟨rfl, rfl⟩ := he.eq (ends_item hitem (.inr rfl)) hrest'.1 h
    exact (hrest'.2.1 rfl).elim
  | item e' comma' items' =>
    simp only [Derivation.tokens, List.append_assoc, List.cons_append] at h
    obtain ⟨rfl, h₁⟩ := he.eq (ends_item hitem (.inr rfl)) (ends_item hitem (.inr rfl)) h
    obtain ⟨hcomma, h₂⟩ := List.cons.inj h₁
    obtain ⟨rfl, rfl⟩ := hitems.eq hrest hrest' h₂
    cases hcomma
    exact ⟨rfl, rfl⟩

/-! ### Atoms -/

theorem leaf {t : Located} {d : Derivation (.level .atom)} (ht : leafOf? t = some d)
    (hd : d.tokens = [t]) : Unique d := by
  refine .of_eq (fun _ h => h) fun d' rest rest' _ _ h => ?_
  rw [hd, List.cons_append, List.nil_append] at h
  obtain ⟨rfl, hrest⟩ := eq_of_leafOf? ht h
  rw [hd] at h
  exact ⟨rfl, (List.cons.inj h).2⟩

theorem strings (first : String × Span) (parts : List (String × Span)) :
    Unique (.strings first parts) := by
  refine .of_eq (fun _ h => h) fun d' rest rest' hrest hrest' h => ?_
  cases d'
  case strings first' parts' =>
    obtain ⟨hfirst, h₁⟩ := List.cons.inj h
    obtain ⟨rfl, rfl⟩ := strings_eq hrest hrest' h₁
    obtain rfl := stringToken_inj hfirst
    exact ⟨rfl, rfl⟩
  all_goals cases (List.cons.inj h).1

-- In parentheses
theorem unit (opening closing : Span) : Unique (.unit opening closing) := by
  refine .of_eq (fun _ h => h) fun d' rest rest' hrest hrest' h => ?_
  cases d'
  case unit opening' closing' =>
    obtain ⟨hopening, h₁⟩ := List.cons.inj h
    obtain ⟨hclosing, rfl⟩ := List.cons.inj h₁
    cases hopening
    cases hclosing
    exact ⟨rfl, rfl⟩
  case enclosed opening' e' closing' =>
    simp only [Derivation.tokens, List.append_assoc, List.cons_append] at h
    exact (not_begins (d := e') (List.cons.inj h).2 rfl).elim
  case tuple opening' first' comma' items' closing' =>
    simp only [Derivation.tokens, List.append_assoc, List.cons_append] at h
    exact (not_begins (d := first') (List.cons.inj h).2 rfl).elim
  all_goals cases (List.cons.inj h).1

theorem enclosed {e : Expression} (he : Unique e) (opening closing : Span) :
    Unique (.enclosed opening e closing) := by
  refine .of_eq (fun _ h => h) fun d' rest rest' hrest hrest' h => ?_
  cases d'
  case unit opening' closing' =>
    simp only [Derivation.tokens, List.append_assoc, List.cons_append] at h
    exact (not_begins (d := e) (List.cons.inj h).2.symm rfl).elim
  case enclosed opening' e' closing' =>
    simp only [Derivation.tokens, List.append_assoc, List.cons_append] at h
    obtain ⟨hopening, h₁⟩ := List.cons.inj h
    obtain ⟨rfl, h₂⟩ := he.eq (ends_level rfl) (ends_level rfl) h₁
    obtain ⟨hclosing, rfl⟩ := List.cons.inj h₂
    cases hopening
    cases hclosing
    exact ⟨rfl, rfl⟩
  case tuple opening' first' comma' items' closing' =>
    simp only [Derivation.tokens, List.append_assoc, List.cons_append] at h
    obtain ⟨rfl, h₁⟩ := he.eq (ends_level rfl) (ends_level rfl) (List.cons.inj h).2
    cases (List.cons.inj h₁).1
  all_goals cases (List.cons.inj h).1

theorem tuple {first : Expression} {items : Derivation (.comma (.level .expression))}
    (hfirst : Unique first) (hitems : Unique items) (opening comma closing : Span) :
    Unique (.tuple opening first comma items closing) := by
  refine .of_eq (fun _ h => h) fun d' rest rest' hrest hrest' h => ?_
  cases d'
  case unit opening' closing' =>
    simp only [Derivation.tokens, List.append_assoc, List.cons_append] at h
    exact (not_begins (d := first) (List.cons.inj h).2.symm rfl).elim
  case enclosed opening' e' closing' =>
    simp only [Derivation.tokens, List.append_assoc, List.cons_append] at h
    obtain ⟨rfl, h₁⟩ := hfirst.eq (ends_level rfl) (ends_level rfl) (List.cons.inj h).2
    cases (List.cons.inj h₁).1
  case tuple opening' first' comma' items' closing' =>
    simp only [Derivation.tokens, List.append_assoc, List.cons_append] at h
    obtain ⟨hopening, h₁⟩ := List.cons.inj h
    obtain ⟨rfl, h₂⟩ := hfirst.eq (ends_level rfl) (ends_level rfl) h₁
    obtain ⟨hcomma, h₃⟩ := List.cons.inj h₂
    obtain ⟨rfl, h₄⟩ := hitems.eq (ends_closing trivial rfl) (ends_closing trivial rfl) h₃
    obtain ⟨hclosing, rfl⟩ := List.cons.inj h₄
    cases hopening
    cases hcomma
    cases hclosing
    exact ⟨rfl, rfl⟩
  all_goals cases (List.cons.inj h).1

theorem list {items : Derivation (.comma (.level .expression))} (hitems : Unique items)
    (opening closing : Span) : Unique (.list opening items closing) := by
  refine .of_eq (fun _ h => h) fun d' rest rest' hrest hrest' h => ?_
  cases d'
  case list opening' items' closing' =>
    simp only [Derivation.tokens, List.append_assoc, List.cons_append] at h
    obtain ⟨hopening, h₁⟩ := List.cons.inj h
    obtain ⟨rfl, h₂⟩ := hitems.eq (ends_closing trivial rfl) (ends_closing trivial rfl) h₁
    obtain ⟨hclosing, rfl⟩ := List.cons.inj h₂
    cases hopening
    cases hclosing
    exact ⟨rfl, rfl⟩
  all_goals cases (List.cons.inj h).1

theorem dict {entries : Derivation (.comma .entry)} (hentries : Unique entries)
    (opening closing : Span) : Unique (.dict opening entries closing) := by
  refine .of_eq (fun _ h => h) fun d' rest rest' hrest hrest' h => ?_
  cases d'
  case dict opening' entries' closing' =>
    simp only [Derivation.tokens, List.append_assoc, List.cons_append] at h
    obtain ⟨hopening, h₁⟩ := List.cons.inj h
    obtain ⟨rfl, h₂⟩ := hentries.eq (ends_closing trivial rfl) (ends_closing trivial rfl) h₁
    obtain ⟨hclosing, rfl⟩ := List.cons.inj h₂
    cases hopening
    cases hclosing
    exact ⟨rfl, rfl⟩
  all_goals cases (List.cons.inj h).1

end

end Unique

theorem unique {s : Symbol} (d : Derivation s) (hs : s.Proper) : Unique d := by
  induction d
  case conditional body if_ test else_ orelse hbody htest horelse =>
    exact .conditional (hbody trivial) (htest trivial) (horelse trivial) if_ else_
  case unconditional he => exact .unconditional (he trivial)
  case joined link _ hleft hright => exact .joined (hleft trivial) (hright trivial) link
  case single he => exact .single (he trivial)
  case not not_ _ he => exact .not (he trivial) not_
  case affirmed he => exact .affirmed (he trivial)
  case compared op _ _ hleft hright hrest =>
    exact .compared (hleft trivial) (hright trivial) (hrest trivial) op
  case uncompared he => exact .uncompared (he trivial)
  case noComparisons => exact .noComparisons
  case comparison op _ _ hright hrest => exact .comparison (hright trivial) (hrest trivial) op
  case minus span _ he => exact .minus (he trivial) span
  case plus span _ he => exact .plus (he trivial) span
  case unsigned he => exact .unsigned (he trivial)
  case power op _ hbase hexponent => exact .power (hbase trivial) (hexponent trivial) op
  case unraised he => exact .unraised (he trivial)
  case await await_ _ he => exact .await (he trivial) await_
  case unawaited he => exact .unawaited (he trivial)
  case member dot attr hvalue => exact .member (hvalue trivial) dot attr
  case call opening _ closing hfunc hargs =>
    exact .call (hfunc trivial) (hargs trivial) opening closing
  case subscript opening _ closing hvalue hindex =>
    exact .subscript (hvalue trivial) (hindex trivial) opening closing
  case plain he => exact .plain (he trivial)
  case positional he => exact .positional (he trivial)
  case keyword assign _ htarget hvalue => exact .keyword (htarget trivial) (hvalue trivial) assign
  case name | int | float | true_ | false_ | none_ => exact .leaf rfl rfl
  case strings first parts => exact .strings first parts
  case enclosed opening _ closing he => exact .enclosed (he trivial) opening closing
  case unit opening closing => exact .unit opening closing
  case tuple opening _ comma _ closing hfirst hitems =>
    exact .tuple (hfirst trivial) (hitems trivial) opening comma closing
  case list opening _ closing hitems => exact .list (hitems trivial) opening closing
  case dict opening _ closing hentries => exact .dict (hentries trivial) opening closing
  case entry colon _ hkey hvalue => exact .entry (hkey trivial) (hvalue trivial) colon
  case required n => exact .required n
  case optional n assign _ hdefault => exact .optional (hdefault trivial) n assign
  case noItems => exact .noItems hs
  case lastItem he => exact .lastItem hs (he hs.proper)
  case item comma _ he hitems => exact .item hs (he hs.proper) (hitems hs) comma

end NoteCell.Grammar
