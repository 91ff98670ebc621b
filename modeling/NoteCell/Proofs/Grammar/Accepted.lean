import NoteCell.Proofs.Grammar.Consumed
import NoteCell.Proofs.Grammar.Unambiguous

/-!
Whatever is derived from a nonterminal for expressions is read by its rule, as long as no action of
the derivation refuses, and what is read is what the actions build.
-/
namespace NoteCell

open NoteCell.Grammar NoteCell.Parser

namespace Cursor.Consumes

variable {c c' : Cursor} {t : Located} {ts us : List Located}

theorem eq_of_nil (h : c.Consumes [] c') : c' = c := by
  obtain ⟨rest, error, stop⟩ := c
  obtain ⟨rest', error', stop'⟩ := c'
  obtain ⟨hrest, hstop, herror⟩ := h
  cases hrest
  cases hstop
  cases herror
  rfl

theorem length_le (h : c.Consumes ts c') : c'.rest.length ≤ c.rest.length := by
  rw [h.rest, List.length_append]
  exact Nat.le_add_left _ _

theorem length_next (h : c.Consumes (t :: us) c') : c.next.rest.length + 1 = c.rest.length := by
  rw [h.next.rest, h.rest]
  rfl

end Cursor.Consumes

/-! ### What is read of a row of tokens -/

namespace Parser

variable {c c' : Cursor} {t : Token} {span : Span} {us : List Located}

theorem advance_head (h : c.head? = some t) : advance c = .ok ((), c.next) := by
  obtain ⟨rest, error, stop⟩ := c
  cases rest with
  | nil => cases h
  | cons => rfl

theorem accept_head (h : c.head? = some t) : accept t c = .ok (true, c.next) := by
  rw [accept, bind_ok (rfl : peek? c = .ok (c.head?, c)), if_pos h, bind_ok (advance_head h)]
  rfl

theorem accept_other (h : c.head? ≠ some t) : accept t c = .ok (false, c) := by
  rw [accept, bind_ok (rfl : peek? c = .ok (c.head?, c)), if_neg h]
  rfl

theorem expect_head (h : c.head? = some t) : expect t c = .ok ((), c.next) := by
  rw [expect, bind_ok (accept_head h)]
  rfl

theorem accept_word {k : Keyword} (h : c.Consumes (Grammar.word k span :: us) c') :
    accept (.word k) c = .ok (true, c.next) :=
  accept_head h.head?

theorem accept_sign {s : Sign} (h : c.Consumes (Grammar.sign s span :: us) c') :
    accept (.sign s) c = .ok (true, c.next) :=
  accept_head h.head?

theorem word_eq {k : Keyword} (h : c.Consumes (Grammar.word k span :: us) c') :
    word k c = .ok ((), c.next) :=
  expect_head h.head?

theorem sign_eq {s : Sign} (h : c.Consumes (Grammar.sign s span :: us) c') :
    sign s c = .ok ((), c.next) :=
  expect_head h.head?

theorem identifier_head {s : String} (h : c.head? = some (.name s)) :
    identifier c = .ok (s, c.next) := by
  rw [identifier, bind_ok (rfl : peek? c = .ok (c.head?, c)), h]
  exact bind_ok (advance_head h)

end Parser

namespace Grammar

theorem makeExprBefore_ok {follows : Option Token → Bool} {c c' : Cursor} {ts : List Located}
    {form : ExprForm Expr} {e : Expr} (hc : c.Consumes ts c') (hne : ts ≠ [])
    (h : Grammar.makeExpr (placeOf ts) form = .ok e) :
    makeExprBefore follows form c.start c' = .ok (e, c') := by
  rw [makeExprBefore, bind_ok (stop_eq c'), hc.place hne]
  rw [Grammar.makeExpr] at h
  split at h
  case isTrue hle =>
    cases h
    exact congrFun (if_pos hle) c'
  case isFalse => cases h

/-! ### Rules -/

def Symbol.starts : Symbol → Token → Bool
  | parameter => startsName
  | _ => Token.startsExpression

-- The rule that reads a nonterminal.
def rule : (s : Symbol) → Nat → Parser s.Value
  | .level .expression, n => expression n
  | .level (.family f), n => family n f
  | .level .negation, n => negation n
  | .level .comparison, n => comparison n
  | .level .factor, n => factor n
  | .level .power, n => power n
  | .level .awaited, n => awaited n
  | .level .primary, n => primary n
  | .level .atom, n => atom n
  | .comparisons, n => comparisons n
  | .argument, n => argument n
  | .entry, n => entry n
  | .parameter, n => param n
  | .comma item, n => row item.starts (rule item) n

-- Fuel for a rule on top of what the tokens before it ask for.
def Symbol.need : Symbol → Nat
  | level l => 25 - 2 * l.strength
  | comparisons => 1
  | argument | entry | parameter => 24
  | comma _ => 25

-- A rule has read a value, or it has come to the loop that goes on with it.
def Reached : (s : Symbol) → Nat → Cursor → s.Value → Cursor → Prop
  | .level (.family f), n, c, v, c' =>
    ∃ m, 32 * c'.rest.length < m ∧ family n f c = joined m f c.start v c'
  | .level .primary, n, c, v, c' =>
    ∃ m, 32 * c'.rest.length < m ∧ primary n c = extended m c.start v c'
  | s, n, c, v, c' => rule s n c = .ok (v, c')

def Accepted {s : Symbol} (d : Derivation s) : Prop :=
  ∀ n c c' v, d.act = .ok v → c.Consumes d.tokens c' → s.Pauses c'.rest →
    32 * c.rest.length + s.need ≤ n → Reached s n c v c'

section

variable {c c' : Cursor} {t : Located} {us : List Located}

theorem ends_consumed {l : Level} (h : c.Consumes (t :: us) c')
    (ht : Nat.blt t.token.hold l.strength = true) : (Symbol.level l).Ends c.rest := by
  rw [h.rest]
  exact ends_level ht

theorem head?_ne_of_ends {l : Level} {u : Token} (h : (Symbol.level l).Ends c.rest)
    (hu : Nat.ble l.strength u.hold = true) : c.head? ≠ some u := by
  obtain ⟨rest, error, stop⟩ := c
  cases rest with
  | nil => nofun
  | cons t rest =>
    intro ht
    have ht : t.token = u := Option.some.inj ht
    exact not_ends_level h (ht ▸ hu)

-- What a rule reads does not begin with a token of weaker rules.
theorem head?_ne_of_opens {l : Level} {d : Derivation (.level l)} {u : Token}
    (h : c.Consumes d.tokens c') (hu : u.opens l.strength = false) : c.head? ≠ some u := by
  obtain ⟨t, ts, hts⟩ := List.exists_cons_of_ne_nil (tokens_ne_nil d)
  rw [hts] at h
  rw [h.head?]
  intro ht
  have hbegin : t :: ts = d.tokens ++ [] := by rw [List.append_nil, hts]
  exact not_begins hbegin (Option.some.inj ht ▸ hu)

end

namespace Accepted

theorem ok {s : Symbol} {d : Derivation s} (h : Accepted d) {n : Nat} {c c' : Cursor} {v : s.Value}
    (hact : d.act = .ok v) (hc : c.Consumes d.tokens c') (hrest : s.Ends c'.rest)
    (hn : 32 * c.rest.length + s.need ≤ n) : rule s n c = .ok (v, c') := by
  have hreached := h n c c' v hact hc hrest.pauses hn
  cases s
  case level l =>
    cases l
    case family f =>
      obtain ⟨m, hm, hfamily⟩ := hreached
      obtain ⟨m, rfl⟩ : ∃ k, m = k + 1 := ⟨m - 1, by omega⟩
      have hjoint : c'.head? >>= f.joint? = none := by
        rw [Cursor.head?, ← List.head?_map]
        exact joint?_eq_none hrest
      rw [rule, hfamily, Parser.joined, bind_ok (rfl : peek? c' = .ok (c'.head?, c')), hjoint]
      rfl
    case primary =>
      obtain ⟨m, hm, hprimary⟩ := hreached
      obtain ⟨m, rfl⟩ : ∃ k, m = k + 1 := ⟨m - 1, by omega⟩
      rw [rule, hprimary, extended, bind_ok (accept_other (head?_ne_of_ends hrest rfl)),
        if_neg Bool.false_ne_true, bind_ok (accept_other (head?_ne_of_ends hrest rfl)),
        if_neg Bool.false_ne_true, bind_ok (accept_other (head?_ne_of_ends hrest rfl)),
        if_neg Bool.false_ne_true]
      rfl
    all_goals exact hreached
  all_goals exact hreached

theorem conditional {body test : Derivation (.level (.family .or))} {orelse : Expression}
    (hbody : Accepted body) (htest : Accepted test) (horelse : Accepted orelse)
    (if_ else_ : Span) : Accepted (.conditional body if_ test else_ orelse) := by
  intro n c c' v hact hc hrest hn
  obtain ⟨b, hb, hact⟩ := of_bind_eq_ok hact
  obtain ⟨t, ht, hact⟩ := of_bind_eq_ok hact
  obtain ⟨o, ho, hmake⟩ := of_bind_eq_ok hact
  obtain ⟨c₁, kbody, k₁⟩ := Cursor.Consumes.split hc
  obtain ⟨c₂, ktest, k₂⟩ := k₁.next.split
  have hlength₁ := kbody.length_le
  have hlength₂ := k₁.length_next
  have hlength₃ := ktest.length_le
  have hlength₄ := k₂.length_next
  have hn : 32 * c.rest.length + 23 ≤ n := hn
  obtain ⟨n, rfl⟩ : ∃ m, n = m + 1 := ⟨n - 1, by omega⟩
  have hreadBody : family n .or c = .ok (b, c₁) := hbody.ok hb kbody (ends_consumed k₁ rfl)
    (show 32 * c.rest.length + 21 ≤ n by omega)
  have hreadTest : family n .or c₁.next = .ok (t, c₂) := htest.ok ht ktest (ends_consumed k₂ rfl)
    (show 32 * c₁.next.rest.length + 21 ≤ n by omega)
  have hreadOrelse : expression n c₂.next = .ok (o, c') := horelse.ok ho k₂.next hrest
    (show 32 * c₂.next.rest.length + 23 ≤ n by omega)
  change expression (n + 1) c = _
  rw [expression, bind_ok (start_eq c), bind_ok hreadBody, bind_ok (accept_word k₁), if_pos rfl,
    bind_ok hreadTest, bind_ok (word_eq k₂), bind_ok hreadOrelse]
  exact makeExprBefore_ok hc (tokens_ne_nil _) hmake

theorem unconditional {e : Derivation (.level (.family .or))} (he : Accepted e) :
    Accepted (.unconditional e) := by
  intro n c c' v hact hc hrest hn
  have hn : 32 * c.rest.length + 23 ≤ n := hn
  obtain ⟨n, rfl⟩ : ∃ m, n = m + 1 := ⟨n - 1, by omega⟩
  have hread : family n .or c = .ok (v, c') := he.ok hact hc (hrest.weaken rfl)
    (show 32 * c.rest.length + 21 ≤ n by omega)
  change expression (n + 1) c = _
  rw [expression, bind_ok (start_eq c), bind_ok hread,
    bind_ok (accept_other (head?_ne_of_ends hrest rfl)), if_neg Bool.false_ne_true]
  rfl

theorem operand_succ (f : Family) (n : Nat) :
    Parser.operand (n + 1) f = rule (.level (operand f)) n := by
  cases f <;> rfl

theorem need_operand (f : Family) :
    (Symbol.level (.family f)).need = (Symbol.level (operand f)).need + 2 := by
  cases f <;> rfl

theorem need_operand_le (f : Family) : (Symbol.level (operand f)).need ≤ 19 := by
  cases f <;> decide

theorem joined {f : Family} {left : Derivation (.level (.family f))}
    {right : Derivation (.level (operand f))} (hleft : Accepted left) (hright : Accepted right)
    (link : Link f) : Accepted (.joined left link right) := by
  intro n c c' v hact hc hrest hn
  obtain ⟨l, hl, hact⟩ := of_bind_eq_ok hact
  obtain ⟨r, hr, hmake⟩ := of_bind_eq_ok hact
  obtain ⟨c₁, kleft, k₁⟩ := Cursor.Consumes.split hc
  have hpause : holdOf (kinds c₁.rest) ≤ f.strength := by
    rw [k₁.rest]
    exact Nat.le_of_eq link.hold
  obtain ⟨m, hm, hfamily⟩ := hleft n c c₁ l hl kleft hpause hn
  have hlength := k₁.length_next
  have hlength' := k₁.next.length_le
  obtain ⟨m, rfl⟩ : ∃ k, m = k + 1 + 1 := ⟨m - 2, by omega⟩
  have hneed := need_operand_le f
  have hread := hright.ok hr k₁.next (ends_operand hrest) (show _ ≤ m by omega)
  have hjoint : c₁.head? >>= f.joint? = some link.joint := by
    rw [k₁.head?]
    exact link.joint_eq
  refine ⟨m + 1, by omega, ?_⟩
  rw [hfamily, Parser.joined, bind_ok (rfl : peek? c₁ = .ok (c₁.head?, c₁)), hjoint]
  dsimp only
  rw [bind_ok (advance_head k₁.head?), operand_succ, bind_ok hread]
  exact bind_ok (makeExprBefore_ok hc (tokens_ne_nil (.joined left link right)) hmake)

theorem single {f : Family} {e : Derivation (.level (operand f))} (he : Accepted e) :
    Accepted (.single e) := by
  intro n c c' v hact hc hrest hn
  have hneed := need_operand f
  have hlength := hc.length_le
  obtain ⟨n, rfl⟩ : ∃ m, n = m + 1 + 1 := ⟨n - 2, by omega⟩
  have hread := he.ok hact hc (ends_operand hrest) (show _ ≤ n by omega)
  refine ⟨n + 1, by omega, ?_⟩
  rw [family, bind_ok (start_eq c), operand_succ, bind_ok hread]

theorem not {e : Derivation (.level .negation)} (he : Accepted e) (not_ : Span) :
    Accepted (.not not_ e) := by
  intro n c c' v hact hc hrest hn
  obtain ⟨o, ho, hmake⟩ := of_bind_eq_ok hact
  have hlength := Cursor.Consumes.length_next hc
  have hn : 32 * c.rest.length + 17 ≤ n := hn
  obtain ⟨n, rfl⟩ : ∃ m, n = m + 1 := ⟨n - 1, by omega⟩
  have hread : negation n c.next = .ok (o, c') := he.ok ho (Cursor.Consumes.next hc) hrest
    (show 32 * c.next.rest.length + 17 ≤ n by omega)
  change negation (n + 1) c = _
  rw [negation, bind_ok (start_eq c), bind_ok (accept_word hc), if_pos rfl, bind_ok hread]
  exact makeExprBefore_ok hc (tokens_ne_nil (.not not_ e)) hmake

theorem affirmed {e : Derivation (.level .comparison)} (he : Accepted e) :
    Accepted (.affirmed e) := by
  intro n c c' v hact hc hrest hn
  have hn : 32 * c.rest.length + 17 ≤ n := hn
  obtain ⟨n, rfl⟩ : ∃ m, n = m + 1 := ⟨n - 1, by omega⟩
  have hread : Parser.comparison n c = .ok (v, c') := he.ok hact hc (hrest.weaken rfl)
    (show 32 * c.rest.length + 15 ≤ n by omega)
  change negation (n + 1) c = _
  rw [negation, bind_ok (start_eq c), bind_ok (accept_other (head?_ne_of_opens (d := e) hc rfl)),
    if_neg Bool.false_ne_true, hread]

theorem minus {e : Derivation (.level .factor)} (he : Accepted e) (span : Span) :
    Accepted (.minus span e) := by
  intro n c c' v hact hc hrest hn
  obtain ⟨o, ho, hmake⟩ := of_bind_eq_ok hact
  have hlength := Cursor.Consumes.length_next hc
  have hn : 32 * c.rest.length + 9 ≤ n := hn
  obtain ⟨n, rfl⟩ : ∃ m, n = m + 1 := ⟨n - 1, by omega⟩
  have hread : factor n c.next = .ok (o, c') := he.ok ho (Cursor.Consumes.next hc) hrest
    (show 32 * c.next.rest.length + 9 ≤ n by omega)
  change factor (n + 1) c = _
  rw [factor, bind_ok (start_eq c), bind_ok (accept_sign hc), if_pos rfl, bind_ok hread]
  exact makeExprBefore_ok hc (tokens_ne_nil (.minus span e)) hmake

theorem plus {e : Derivation (.level .factor)} (he : Accepted e) (span : Span) :
    Accepted (.plus span e) := by
  intro n c c' v hact hc hrest hn
  obtain ⟨o, ho, hmake⟩ := of_bind_eq_ok hact
  have hlength := Cursor.Consumes.length_next hc
  have hn : 32 * c.rest.length + 9 ≤ n := hn
  obtain ⟨n, rfl⟩ : ∃ m, n = m + 1 := ⟨n - 1, by omega⟩
  have hread : factor n c.next = .ok (o, c') := he.ok ho (Cursor.Consumes.next hc) hrest
    (show 32 * c.next.rest.length + 9 ≤ n by omega)
  have hminus : c.head? ≠ some (.sign .minus) := by
    rw [Cursor.Consumes.head? hc]
    nofun
  change factor (n + 1) c = _
  rw [factor, bind_ok (start_eq c), bind_ok (accept_other hminus), if_neg Bool.false_ne_true,
    bind_ok (accept_sign hc), if_pos rfl, bind_ok hread]
  exact makeExprBefore_ok hc (tokens_ne_nil (.plus span e)) hmake

theorem unsigned {e : Derivation (.level .power)} (he : Accepted e) : Accepted (.unsigned e) := by
  intro n c c' v hact hc hrest hn
  have hn : 32 * c.rest.length + 9 ≤ n := hn
  obtain ⟨n, rfl⟩ : ∃ m, n = m + 1 := ⟨n - 1, by omega⟩
  have hread : Parser.power n c = .ok (v, c') := he.ok hact hc (hrest.weaken rfl)
    (show 32 * c.rest.length + 7 ≤ n by omega)
  change factor (n + 1) c = _
  rw [factor, bind_ok (start_eq c), bind_ok (accept_other (head?_ne_of_opens (d := e) hc rfl)),
    if_neg Bool.false_ne_true, bind_ok (accept_other (head?_ne_of_opens (d := e) hc rfl)),
    if_neg Bool.false_ne_true, hread]

theorem power {base : Derivation (.level .awaited)} {exponent : Derivation (.level .factor)}
    (hbase : Accepted base) (hexponent : Accepted exponent) (op : Span) :
    Accepted (.power base op exponent) := by
  intro n c c' v hact hc hrest hn
  obtain ⟨b, hb, hact⟩ := of_bind_eq_ok hact
  obtain ⟨e, he, hmake⟩ := of_bind_eq_ok hact
  obtain ⟨c₁, kbase, k₁⟩ := Cursor.Consumes.split hc
  have hlength₁ := kbase.length_le
  have hlength₂ := k₁.length_next
  have hn : 32 * c.rest.length + 7 ≤ n := hn
  obtain ⟨n, rfl⟩ : ∃ m, n = m + 1 := ⟨n - 1, by omega⟩
  have hreadBase : awaited n c = .ok (b, c₁) := hbase.ok hb kbase (ends_consumed k₁ rfl)
    (show 32 * c.rest.length + 5 ≤ n by omega)
  have hreadExponent : factor n c₁.next = .ok (e, c') := hexponent.ok he k₁.next
    (ends_factor hrest) (show 32 * c₁.next.rest.length + 9 ≤ n by omega)
  change Parser.power (n + 1) c = _
  rw [Parser.power, bind_ok (start_eq c), bind_ok hreadBase, bind_ok (accept_sign k₁), if_pos rfl,
    bind_ok hreadExponent]
  exact makeExprBefore_ok hc (tokens_ne_nil (.power base op exponent)) hmake

theorem unraised {e : Derivation (.level .awaited)} (he : Accepted e) : Accepted (.unraised e) := by
  intro n c c' v hact hc hrest hn
  have hn : 32 * c.rest.length + 7 ≤ n := hn
  obtain ⟨n, rfl⟩ : ∃ m, n = m + 1 := ⟨n - 1, by omega⟩
  have hread : awaited n c = .ok (v, c') := he.ok hact hc (hrest.weaken rfl)
    (show 32 * c.rest.length + 5 ≤ n by omega)
  change Parser.power (n + 1) c = _
  rw [Parser.power, bind_ok (start_eq c), bind_ok hread,
    bind_ok (accept_other (head?_ne_of_ends hrest rfl)), if_neg Bool.false_ne_true]
  rfl

theorem await {e : Derivation (.level .primary)} (he : Accepted e) (await_ : Span) :
    Accepted (.await await_ e) := by
  intro n c c' v hact hc hrest hn
  obtain ⟨o, ho, hmake⟩ := of_bind_eq_ok hact
  have hlength := Cursor.Consumes.length_next hc
  have hn : 32 * c.rest.length + 5 ≤ n := hn
  obtain ⟨n, rfl⟩ : ∃ m, n = m + 1 := ⟨n - 1, by omega⟩
  have hread : primary n c.next = .ok (o, c') := he.ok ho (Cursor.Consumes.next hc)
    (hrest.weaken rfl) (show 32 * c.next.rest.length + 3 ≤ n by omega)
  change awaited (n + 1) c = _
  rw [awaited, bind_ok (start_eq c), bind_ok (accept_word hc), if_pos rfl, bind_ok hread]
  exact makeExprBefore_ok hc (tokens_ne_nil (.await await_ e)) hmake

theorem unawaited {e : Derivation (.level .primary)} (he : Accepted e) :
    Accepted (.unawaited e) := by
  intro n c c' v hact hc hrest hn
  have hn : 32 * c.rest.length + 5 ≤ n := hn
  obtain ⟨n, rfl⟩ : ∃ m, n = m + 1 := ⟨n - 1, by omega⟩
  have hread : primary n c = .ok (v, c') := he.ok hact hc (hrest.weaken rfl)
    (show 32 * c.rest.length + 3 ≤ n by omega)
  change awaited (n + 1) c = _
  rw [awaited, bind_ok (start_eq c), bind_ok (accept_other (head?_ne_of_opens (d := e) hc rfl)),
    if_neg Bool.false_ne_true, hread]

/-! ### Comparisons -/

theorem word_of_map {ts : List Located} {t : Token} {rest : List Token}
    (h : ts.map (·.token) = t :: rest) :
    ∃ span us, ts = ⟨t, span⟩ :: us ∧ us.map (·.token) = rest := by
  obtain ⟨u, us, rfl, rfl, hrest⟩ := List.map_eq_cons_iff.mp h
  exact ⟨u.span, us, rfl, hrest⟩

theorem compareOp?_read {op : Comparator} {c c' : Cursor}
    {right : Derivation (.level (.family .sum))} {us : List Located}
    (hc : c.Consumes (op.words ++ (right.tokens ++ us)) c') :
    ∃ c₁, compareOp? c = .ok (some op.op, c₁) ∧ c₁.Consumes (right.tokens ++ us) c'
      ∧ c₁.rest.length < c.rest.length := by
  obtain ⟨op, words, hwords⟩ := op
  have hnot {c₁ : Cursor} (h : c₁.Consumes (right.tokens ++ us) c') :
      c₁.head? ≠ some (.word .not_) := by
    obtain ⟨c₂, kright, -⟩ := h.split
    exact head?_ne_of_opens kright rfl
  cases op
  all_goals
    obtain ⟨span, words, rfl, hrest⟩ := word_of_map hwords
    have hlength := Cursor.Consumes.length_next hc
    rw [compareOp?, bind_ok (rfl : peek? c = .ok (c.head?, c)), Cursor.Consumes.head? hc]
  case notIn =>
    obtain ⟨span', words, rfl, hnil⟩ := word_of_map hrest
    obtain rfl := List.map_eq_nil_iff.mp hnil
    have k₁ := Cursor.Consumes.next hc
    have hlength' := k₁.length_next
    refine ⟨c.next.next, ?_, k₁.next, by omega⟩
    exact (bind_ok (advance_head (Cursor.Consumes.head? hc))).trans
      (bind_ok (expect_head k₁.head?))
  case isNot =>
    obtain ⟨span', words, rfl, hnil⟩ := word_of_map hrest
    obtain rfl := List.map_eq_nil_iff.mp hnil
    have k₁ := Cursor.Consumes.next hc
    have hlength' := k₁.length_next
    refine ⟨c.next.next, ?_, k₁.next, by omega⟩
    exact (bind_ok (advance_head (Cursor.Consumes.head? hc))).trans
      (bind_ok (accept_head k₁.head?))
  case is =>
    obtain rfl := List.map_eq_nil_iff.mp hrest
    have k₁ := Cursor.Consumes.next hc
    refine ⟨c.next, ?_, k₁, by omega⟩
    exact (bind_ok (advance_head (Cursor.Consumes.head? hc))).trans
      (bind_ok (accept_other (hnot k₁)))
  all_goals
    obtain rfl := List.map_eq_nil_iff.mp hrest
    exact ⟨c.next, bind_ok (advance_head (Cursor.Consumes.head? hc)), Cursor.Consumes.next hc,
      by omega⟩

theorem comparisons_end {n : Nat} {c : Cursor} (hn : 0 < n)
    (hc : (Symbol.level .comparison).Ends c.rest) : comparisons n c = .ok ([], c) := by
  obtain ⟨n, rfl⟩ : ∃ m, n = m + 1 := ⟨n - 1, by omega⟩
  have hop : compareOp? c = .ok (none, c) := by
    have hhead : c.head? >>= comparison? = none := by
      rw [Cursor.head?, ← List.head?_map]
      exact comparison?_eq_none hc
    rw [compareOp?, bind_ok (rfl : peek? c = .ok (c.head?, c)), hhead]
    rfl
  rw [comparisons, bind_ok hop]
  rfl

theorem noComparisons : Accepted .noComparisons := by
  intro n c c' v hact hc hrest hn
  obtain rfl := Cursor.Consumes.eq_of_nil hc
  cases hact
  exact comparisons_end (Nat.lt_of_lt_of_le (Nat.succ_pos _) hn) hrest

theorem comparison {right : Derivation (.level (.family .sum))} {more : Derivation .comparisons}
    (hright : Accepted right) (hmore : Accepted more) (op : Comparator) :
    Accepted (.comparison op right more) := by
  intro n c c' v hact hc hrest hn
  obtain ⟨r, hr, hact⟩ := of_bind_eq_ok hact
  obtain ⟨rs, hrs, hact⟩ := of_bind_eq_ok hact
  cases hact
  obtain ⟨c₁, hop, k₁, hlength₁⟩ := compareOp?_read hc
  obtain ⟨c₂, kright, kmore⟩ := k₁.split
  have hlength₂ := kright.length_le
  have hends : (Symbol.level (.family .sum)).Ends c₂.rest := by
    rw [kmore.rest]
    exact ends_comparisons more hrest
  have hn : 32 * c.rest.length + 1 ≤ n := hn
  obtain ⟨n, rfl⟩ : ∃ m, n = m + 1 := ⟨n - 1, by omega⟩
  have hreadRight : family n .sum c₁ = .ok (r, c₂) := hright.ok hr kright hends
    (show 32 * c₁.rest.length + 13 ≤ n by omega)
  have hreadMore : comparisons n c₂ = .ok (rs, c') := hmore.ok hrs kmore hrest
    (show 32 * c₂.rest.length + 1 ≤ n by omega)
  change comparisons (n + 1) c = _
  rw [comparisons, bind_ok hop]
  dsimp only
  rw [bind_ok hreadRight, bind_ok hreadMore]
  rfl

theorem compared {left right : Derivation (.level (.family .sum))}
    {more : Derivation .comparisons} (hleft : Accepted left) (hright : Accepted right)
    (hmore : Accepted more) (op : Comparator) : Accepted (.compared left op right more) := by
  intro n c c' v hact hc hrest hn
  obtain ⟨l, hl, hact⟩ := of_bind_eq_ok hact
  obtain ⟨r, hr, hact⟩ := of_bind_eq_ok hact
  obtain ⟨rs, hrs, hmake⟩ := of_bind_eq_ok hact
  obtain ⟨c₁, kleft, k₁⟩ := Cursor.Consumes.split hc
  have hlength := kleft.length_le
  have hends : (Symbol.level (.family .sum)).Ends c₁.rest := by
    rw [k₁.rest, List.append_assoc]
    exact ends_words op _
  have hcompared : (Derivation.comparison op right more).act = .ok ((op.op, r) :: rs) := by
    rw [Derivation.act, hr, ok_bind, hrs]
    rfl
  have hn : 32 * c.rest.length + 15 ≤ n := hn
  obtain ⟨n, rfl⟩ : ∃ m, n = m + 1 := ⟨n - 1, by omega⟩
  have hreadLeft : family n .sum c = .ok (l, c₁) := hleft.ok hl kleft hends
    (show 32 * c.rest.length + 13 ≤ n by omega)
  have hreadMore : comparisons n c₁ = .ok ((op.op, r) :: rs, c') :=
    (comparison hright hmore op).ok hcompared k₁ hrest (show 32 * c₁.rest.length + 1 ≤ n by omega)
  change Parser.comparison (n + 1) c = _
  rw [Parser.comparison, bind_ok (start_eq c), bind_ok hreadLeft, bind_ok hreadMore]
  exact makeExprBefore_ok hc (tokens_ne_nil (.compared left op right more)) hmake

theorem uncompared {e : Derivation (.level (.family .sum))} (he : Accepted e) :
    Accepted (.uncompared e) := by
  intro n c c' v hact hc hrest hn
  have hn : 32 * c.rest.length + 15 ≤ n := hn
  have hlength := Cursor.Consumes.length_le hc
  obtain ⟨n, rfl⟩ : ∃ m, n = m + 1 := ⟨n - 1, by omega⟩
  have hread : family n .sum c = .ok (v, c') := he.ok hact hc (hrest.weaken rfl)
    (show 32 * c.rest.length + 13 ≤ n by omega)
  change Parser.comparison (n + 1) c = _
  rw [Parser.comparison, bind_ok (start_eq c), bind_ok hread,
    bind_ok (comparisons_end (by omega) hrest)]
  rfl

/-! ### Primaries -/

theorem member {value : Derivation (.level .primary)} (hvalue : Accepted value) (dot : Span)
    (attr : Name) : Accepted (.member value dot attr) := by
  intro n c c' v hact hc hrest hn
  obtain ⟨o, ho, hmake⟩ := of_bind_eq_ok hact
  obtain ⟨c₁, kvalue, k₁⟩ := Cursor.Consumes.split hc
  have hpause : holdOf (kinds c₁.rest) ≤ Strength.atom := by
    rw [k₁.rest]
    exact Nat.le_refl _
  obtain ⟨m, hm, hprimary⟩ := hvalue n c c₁ o ho kvalue hpause hn
  have k₂ := k₁.next
  obtain rfl := k₂.next.eq_of_nil
  have hlength₁ := k₁.length_next
  have hlength₂ := k₂.length_next
  obtain ⟨m, rfl⟩ : ∃ k, m = k + 1 := ⟨m - 1, by omega⟩
  refine ⟨m, by omega, ?_⟩
  rw [hprimary, extended, bind_ok (accept_sign k₁), if_pos rfl,
    bind_ok (identifier_head k₂.head?)]
  exact bind_ok (makeExprBefore_ok hc (tokens_ne_nil (.member value dot attr)) hmake)

theorem call {func : Derivation (.level .primary)} {args : Derivation (.comma .argument)}
    (hfunc : Accepted func) (hargs : Accepted args) (opening closing : Span) :
    Accepted (.call func opening args closing) := by
  intro n c c' v hact hc hrest hn
  obtain ⟨f, hf, hact⟩ := of_bind_eq_ok hact
  obtain ⟨given, hgiven, hact⟩ := of_bind_eq_ok hact
  obtain ⟨⟨positionals, keywords⟩, hsplit, hmake⟩ := of_bind_eq_ok hact
  obtain ⟨c₁, kfunc, k₁⟩ := Cursor.Consumes.split hc
  have hpause : holdOf (kinds c₁.rest) ≤ Strength.atom := by
    rw [k₁.rest]
    exact Nat.le_refl _
  obtain ⟨m, hm, hprimary⟩ := hfunc n c c₁ f hf kfunc hpause hn
  obtain ⟨c₂, kargs, k₂⟩ := k₁.next.split
  obtain rfl := k₂.next.eq_of_nil
  have hlength₁ := k₁.length_next
  have hlength₂ := kargs.length_le
  have hlength₃ := k₂.length_next
  have hends : (Symbol.comma .argument).Ends c₂.rest := by
    rw [k₂.rest]
    exact ends_closing trivial rfl
  obtain ⟨m, rfl⟩ : ∃ k, m = k + 1 := ⟨m - 1, by omega⟩
  have hread : arguments m c₁.next = .ok (given, c₂) := by
    rw [arguments_eq]
    exact hargs.ok hgiven kargs hends (show 32 * c₁.next.rest.length + 25 ≤ m by omega)
  have hdot : c₁.head? ≠ some (.sign .dot) := by
    rw [k₁.head?]
    nofun
  refine ⟨m, by omega, ?_⟩
  rw [hprimary, extended, bind_ok (accept_other hdot), if_neg Bool.false_ne_true,
    bind_ok (accept_sign k₁), if_pos rfl, bind_ok hread, bind_ok (sign_eq k₂), hsplit]
  exact bind_ok (makeExprBefore_ok hc (tokens_ne_nil (.call func opening args closing)) hmake)

theorem subscript {value : Derivation (.level .primary)} {index : Expression}
    (hvalue : Accepted value) (hindex : Accepted index) (opening closing : Span) :
    Accepted (.subscript value opening index closing) := by
  intro n c c' v hact hc hrest hn
  obtain ⟨o, ho, hact⟩ := of_bind_eq_ok hact
  obtain ⟨i, hi, hmake⟩ := of_bind_eq_ok hact
  obtain ⟨c₁, kvalue, k₁⟩ := Cursor.Consumes.split hc
  have hpause : holdOf (kinds c₁.rest) ≤ Strength.atom := by
    rw [k₁.rest]
    exact Nat.le_refl _
  obtain ⟨m, hm, hprimary⟩ := hvalue n c c₁ o ho kvalue hpause hn
  obtain ⟨c₂, kindex, k₂⟩ := k₁.next.split
  obtain rfl := k₂.next.eq_of_nil
  have hlength₁ := k₁.length_next
  have hlength₂ := kindex.length_le
  have hlength₃ := k₂.length_next
  obtain ⟨m, rfl⟩ : ∃ k, m = k + 1 := ⟨m - 1, by omega⟩
  have hread : expression m c₁.next = .ok (i, c₂) := hindex.ok hi kindex (ends_consumed k₂ rfl)
    (show 32 * c₁.next.rest.length + 23 ≤ m by omega)
  have hdot : c₁.head? ≠ some (.sign .dot) := by
    rw [k₁.head?]
    nofun
  have hlparen : c₁.head? ≠ some (.sign .lparen) := by
    rw [k₁.head?]
    nofun
  refine ⟨m, by omega, ?_⟩
  rw [hprimary, extended, bind_ok (accept_other hdot), if_neg Bool.false_ne_true,
    bind_ok (accept_other hlparen), if_neg Bool.false_ne_true, bind_ok (accept_sign k₁),
    if_pos rfl, bind_ok hread, bind_ok (sign_eq k₂)]
  exact bind_ok
    (makeExprBefore_ok hc (tokens_ne_nil (.subscript value opening index closing)) hmake)

theorem plain {e : Derivation (.level .atom)} (he : Accepted e) : Accepted (.plain e) := by
  intro n c c' v hact hc hrest hn
  have hlength := Cursor.Consumes.length_le hc
  have hn : 32 * c.rest.length + 3 ≤ n := hn
  obtain ⟨n, rfl⟩ : ∃ m, n = m + 1 := ⟨n - 1, by omega⟩
  have hread : atom n c = .ok (v, c') := he.ok hact hc (Nat.lt_succ_of_le hrest)
    (show 32 * c.rest.length + 1 ≤ n by omega)
  refine ⟨n, by omega, ?_⟩
  rw [primary, bind_ok (start_eq c), bind_ok hread]

/-! ### Items -/

theorem positional {e : Expression} (he : Accepted e) : Accepted (.positional e) := by
  intro n c c' v hact hc hrest hn
  obtain ⟨o, ho, hact⟩ := of_bind_eq_ok hact
  cases hact
  have hn : 32 * c.rest.length + 24 ≤ n := hn
  obtain ⟨n, rfl⟩ : ∃ m, n = m + 1 := ⟨n - 1, by omega⟩
  have hread : expression n c = .ok (o, c') := he.ok ho hc (ends_expression hrest)
    (show 32 * c.rest.length + 23 ≤ n by omega)
  have hassign : c'.head? ≠ some (.sign .assign) := by
    rw [Cursor.head?, ← List.head?_map]
    exact hrest.noAssign
  change argument (n + 1) c = _
  rw [argument, bind_ok (start_eq c), bind_ok hread, bind_ok (accept_other hassign),
    if_neg Bool.false_ne_true]
  rfl

theorem of_makeKeyword {target value : Expr} {a : Argument}
    (h : makeKeyword target value = .ok a) :
    ∃ s, target.form = .name s ∧ a = .keyword s value := by
  unfold makeKeyword at h
  split at h
  case h_1 s hs =>
    cases h
    exact ⟨s, hs, rfl⟩
  case h_2 => cases h

theorem keyword {target value : Expression} (htarget : Accepted target) (hvalue : Accepted value)
    (assign : Span) : Accepted (.keyword target assign value) := by
  intro n c c' v hact hc hrest hn
  obtain ⟨t, ht, hact⟩ := of_bind_eq_ok hact
  obtain ⟨o, ho, hmake⟩ := of_bind_eq_ok hact
  obtain ⟨s, hs, rfl⟩ := of_makeKeyword hmake
  obtain ⟨c₁, ktarget, k₁⟩ := Cursor.Consumes.split hc
  have hlength₁ := ktarget.length_le
  have hlength₂ := k₁.length_next
  have hn : 32 * c.rest.length + 24 ≤ n := hn
  obtain ⟨n, rfl⟩ : ∃ m, n = m + 1 := ⟨n - 1, by omega⟩
  have hreadTarget : expression n c = .ok (t, c₁) := htarget.ok ht ktarget (ends_consumed k₁ rfl)
    (show 32 * c.rest.length + 23 ≤ n by omega)
  have hreadValue : expression n c₁.next = .ok (o, c') := hvalue.ok ho k₁.next
    (ends_expression hrest) (show 32 * c₁.next.rest.length + 23 ≤ n by omega)
  change argument (n + 1) c = _
  rw [argument, bind_ok (start_eq c), bind_ok hreadTarget, bind_ok (accept_sign k₁), if_pos rfl,
    bind_ok hreadValue, hs]
  rfl

theorem entry {key value : Expression} (hkey : Accepted key) (hvalue : Accepted value)
    (colon : Span) : Accepted (.entry key colon value) := by
  intro n c c' v hact hc hrest hn
  obtain ⟨k, hk, hact⟩ := of_bind_eq_ok hact
  obtain ⟨o, ho, hact⟩ := of_bind_eq_ok hact
  cases hact
  obtain ⟨c₁, kkey, k₁⟩ := Cursor.Consumes.split hc
  have hlength₁ := kkey.length_le
  have hlength₂ := k₁.length_next
  have hn : 32 * c.rest.length + 24 ≤ n := hn
  have hreadKey : expression n c = .ok (k, c₁) := hkey.ok hk kkey (ends_consumed k₁ rfl)
    (show 32 * c.rest.length + 23 ≤ n by omega)
  have hreadValue : expression n c₁.next = .ok (o, c') := hvalue.ok ho k₁.next
    (Nat.lt_one_iff.mpr hrest) (show 32 * c₁.next.rest.length + 23 ≤ n by omega)
  change Parser.entry n c = _
  rw [Parser.entry, bind_ok hreadKey, bind_ok (sign_eq k₁), bind_ok hreadValue]
  rfl

theorem required (name : Name) : Accepted (.required name) := by
  intro n c c' v hact hc hrest hn
  cases hact
  obtain rfl := (Cursor.Consumes.next hc).eq_of_nil
  have hassign : c.next.head? ≠ some (.sign .assign) := by
    rw [Cursor.head?, ← List.head?_map]
    exact hrest.noAssign
  change param n c = _
  rw [param, bind_ok (identifier_head (Cursor.Consumes.head? hc)),
    bind_ok (accept_other hassign), if_neg Bool.false_ne_true]
  rfl

theorem optional {default : Expression} (hdefault : Accepted default) (name : Name)
    (assign : Span) : Accepted (.optional name assign default) := by
  intro n c c' v hact hc hrest hn
  obtain ⟨o, ho, hact⟩ := of_bind_eq_ok hact
  cases hact
  have k₁ := Cursor.Consumes.next hc
  have hlength₁ := Cursor.Consumes.length_next hc
  have hlength₂ := k₁.length_next
  have hn : 32 * c.rest.length + 24 ≤ n := hn
  have hread : expression n c.next.next = .ok (o, c') := hdefault.ok ho k₁.next
    (ends_expression hrest) (show 32 * c.next.next.rest.length + 23 ≤ n by omega)
  change param n c = _
  rw [param, bind_ok (identifier_head (Cursor.Consumes.head? hc)), bind_ok (accept_sign k₁),
    if_pos rfl, bind_ok hread]
  rfl

/-! ### Rows -/

theorem openedBy_iff {item : Symbol} (hitem : item.IsItem) (c : Cursor) :
    item.OpenedBy (kinds c.rest) ↔ (c.head?.map item.starts).getD false = true := by
  obtain ⟨rest, error, stop⟩ := c
  have hopens : Opens Strength.test (kinds rest)
      ↔ ((rest.head?.map (·.token)).map Token.startsExpression).getD false = true := by
    cases rest with
    | nil =>
      constructor
      · rintro ⟨t, us, h, -⟩
        cases h
      · intro h
        cases h
    | cons t rest =>
      refine ⟨fun h => h.startsWith [], fun h => opens_cons ?_ rest⟩
      have hstarts : t.token.startsExpression = true := h
      unfold Token.opens
      split <;> first | rfl | exact hstarts
  cases item
  case level l =>
    cases l
    case expression => exact hopens
    all_goals exact hitem.elim
  case argument | entry => exact hopens
  case parameter =>
    cases rest with
    | nil =>
      constructor
      · rintro ⟨name, us, h⟩
        cases h
      · intro h
        cases h
    | cons t rest =>
      obtain ⟨t, span⟩ := t
      constructor
      · rintro ⟨name, ts, h⟩
        obtain ⟨rfl, -⟩ := List.cons.inj h
        rfl
      · intro h
        cases t
        case name name => exact ⟨name, kinds rest, rfl⟩
        all_goals cases h
  all_goals exact hitem.elim

theorem row_end {item : Symbol} (hitem : item.IsItem) {n : Nat} {c : Cursor} (hn : 0 < n)
    (hc : ¬ item.OpenedBy (kinds c.rest)) : row item.starts (rule item) n c = .ok ([], c) := by
  obtain ⟨n, rfl⟩ : ∃ m, n = m + 1 := ⟨n - 1, by omega⟩
  rw [row, bind_ok (rfl : peek? c = .ok (c.head?, c)),
    if_neg fun h => hc ((openedBy_iff hitem c).mpr h)]
  rfl

theorem row_cons {item : Symbol} {e : Derivation item} (hitem : item.IsItem) {n : Nat}
    {c c' : Cursor} {us : List Located} (hc : c.Consumes (e.tokens ++ us) c') :
    row item.starts (rule item) (n + 1) c = (do
      let v ← rule item n
      if ← accept (.sign .comma) then return v :: (← row item.starts (rule item) n)
      else return [v]) c := by
  have hopens : item.OpenedBy (kinds c.rest) := by
    rw [hc.rest, List.append_assoc]
    exact openedBy_append hitem _
  rw [row, bind_ok (rfl : peek? c = .ok (c.head?, c)), if_pos ((openedBy_iff hitem c).mp hopens)]

theorem need_item_le {item : Symbol} (hitem : item.IsItem) : item.need ≤ 24 := by
  cases item
  case level l =>
    cases l
    case expression => decide
    all_goals exact hitem.elim
  case argument | entry | parameter => exact Nat.le_refl _
  all_goals exact hitem.elim

theorem noItems {item : Symbol} (hitem : item.IsItem) : Accepted (@Derivation.noItems item) := by
  intro n c c' v hact hc hrest hn
  obtain rfl := Cursor.Consumes.eq_of_nil hc
  cases hact
  have hn : 32 * c'.rest.length + 25 ≤ n := hn
  exact row_end hitem (by omega) hrest.2.2

theorem lastItem {item : Symbol} {e : Derivation item} (hitem : item.IsItem) (he : Accepted e) :
    Accepted (.lastItem e) := by
  intro n c c' v hact hc hrest hn
  obtain ⟨o, ho, hact⟩ := of_bind_eq_ok hact
  cases hact
  have hneed := need_item_le hitem
  have hn : 32 * c.rest.length + 25 ≤ n := hn
  obtain ⟨n, rfl⟩ : ∃ m, n = m + 1 := ⟨n - 1, by omega⟩
  have hread : rule item n c = .ok (o, c') := he.ok ho hc hrest.1 (by omega)
  have hcomma : c'.head? ≠ some (.sign .comma) := by
    rw [Cursor.head?, ← List.head?_map]
    exact hrest.2.1
  have htokens : c.Consumes (e.tokens ++ []) c' := (List.append_nil e.tokens).symm ▸ hc
  change row item.starts (rule item) (n + 1) c = _
  rw [row_cons hitem htokens, bind_ok hread, bind_ok (accept_other hcomma),
    if_neg Bool.false_ne_true]
  rfl

theorem item {item : Symbol} {e : Derivation item} {rest : Derivation (.comma item)}
    (hitem : item.IsItem) (he : Accepted e) (hitems : Accepted rest) (comma : Span) :
    Accepted (.item e comma rest) := by
  intro n c c' v hact hc hrest hn
  obtain ⟨o, ho, hact⟩ := of_bind_eq_ok hact
  obtain ⟨os, hos, hact⟩ := of_bind_eq_ok hact
  cases hact
  obtain ⟨c₁, ke, k₁⟩ := Cursor.Consumes.split hc
  have hlength₁ := ke.length_le
  have hlength₂ := k₁.length_next
  have hneed := need_item_le hitem
  have hends : item.Ends c₁.rest := by
    rw [k₁.rest]
    exact ends_item hitem (.inr rfl)
  have hn : 32 * c.rest.length + 25 ≤ n := hn
  obtain ⟨n, rfl⟩ : ∃ m, n = m + 1 := ⟨n - 1, by omega⟩
  have hread : rule item n c = .ok (o, c₁) := he.ok ho ke hends (by omega)
  have hreadRest : row item.starts (rule item) n c₁.next = .ok (os, c') := hitems.ok hos k₁.next
    hrest (show 32 * c₁.next.rest.length + 25 ≤ n by omega)
  change row item.starts (rule item) (n + 1) c = _
  rw [row_cons hitem hc, bind_ok hread, bind_ok (accept_sign k₁), if_pos rfl, bind_ok hreadRest]
  rfl

/-! ### Atoms -/

theorem leaf {t : Located} {d : Derivation (.level .atom)} (ht : leafOf? t = some d) :
    Accepted d := by
  intro n c c' v hact hc hrest hn
  have hn : 32 * c.rest.length + 1 ≤ n := hn
  obtain ⟨n, rfl⟩ : ∃ m, n = m + 1 := ⟨n - 1, by omega⟩
  change atom (n + 1) c = _
  rw [atom, bind_ok (start_eq c), bind_ok (rfl : peek? c = .ok (c.head?, c))]
  unfold leafOf? at ht
  split at ht <;> cases ht
  all_goals
    have k₁ := Cursor.Consumes.next hc
    obtain rfl := k₁.eq_of_nil
    rw [Cursor.Consumes.head? hc]
    exact (bind_ok (advance_head (Cursor.Consumes.head? hc))).trans
      (makeExprBefore_ok hc (List.cons_ne_nil _ _) hact)

theorem strings_read {n : Nat} {c c' : Cursor} {parts : List (String × Span)}
    (hc : c.Consumes (parts.map stringToken) c') (hrest : (Symbol.level .atom).Ends c'.rest)
    (hn : parts.length ≤ n) : Parser.strings n c = .ok (String.join (parts.map (·.1)), c') := by
  induction parts generalizing n c with
  | nil =>
    obtain rfl := Cursor.Consumes.eq_of_nil hc
    cases n with
    | zero => rfl
    | succ n =>
      rw [Parser.strings, bind_ok (rfl : peek? c' = .ok (c'.head?, c'))]
      generalize ht : c'.head? = t
      split
      case h_1 s => exact absurd ht (head?_ne_of_ends hrest rfl)
      case h_2 => rfl
  | cons p parts ih =>
    obtain ⟨n, rfl⟩ : ∃ m, n = m + 1 := ⟨n - 1, by simp at hn; omega⟩
    have hread := ih (Cursor.Consumes.next hc) (Nat.le_of_succ_le_succ hn)
    rw [Parser.strings, bind_ok (rfl : peek? c = .ok (c.head?, c)), Cursor.Consumes.head? hc]
    refine (bind_ok (advance_head (Cursor.Consumes.head? hc))).trans ((bind_ok hread).trans ?_)
    simp [String.join_cons]
    rfl

theorem strings (first : String × Span) (parts : List (String × Span)) :
    Accepted (.strings first parts) := by
  intro n c c' v hact hc hrest hn
  have hn : 32 * c.rest.length + 1 ≤ n := hn
  have hlength : c.rest.length = parts.length + 1 + c'.rest.length := by
    rw [Cursor.Consumes.rest hc]
    simp
    omega
  obtain ⟨n, rfl⟩ : ∃ m, n = m + 1 := ⟨n - 1, by omega⟩
  have hparts : c.Consumes ((first :: parts).map stringToken) c' := hc
  have hread := strings_read (n := n + 1) hparts hrest (by rw [List.length_cons]; omega)
  change atom (n + 1) c = _
  rw [atom, bind_ok (start_eq c), bind_ok (rfl : peek? c = .ok (c.head?, c)),
    Cursor.Consumes.head? hc]
  exact (bind_ok hread).trans (makeExprBefore_ok hc (List.cons_ne_nil _ _) hact)

theorem unit (opening closing : Span) : Accepted (.unit opening closing) := by
  intro n c c' v hact hc hrest hn
  have hn : 32 * c.rest.length + 1 ≤ n := hn
  obtain ⟨n, rfl⟩ : ∃ m, n = m + 1 := ⟨n - 1, by omega⟩
  have k₁ := Cursor.Consumes.next hc
  obtain rfl := k₁.next.eq_of_nil
  change atom (n + 1) c = _
  rw [atom, bind_ok (start_eq c), bind_ok (rfl : peek? c = .ok (c.head?, c)),
    Cursor.Consumes.head? hc]
  exact (bind_ok (advance_head (Cursor.Consumes.head? hc))).trans
    ((bind_ok (accept_sign k₁)).trans (makeExprBefore_ok hc (List.cons_ne_nil _ _) hact))

theorem enclosed {e : Expression} (he : Accepted e) (opening closing : Span) :
    Accepted (.enclosed opening e closing) := by
  intro n c c' v hact hc hrest hn
  have hn : 32 * c.rest.length + 1 ≤ n := hn
  obtain ⟨n, rfl⟩ : ∃ m, n = m + 1 := ⟨n - 1, by omega⟩
  have hlength₁ := Cursor.Consumes.length_next hc
  obtain ⟨c₂, ke, k₂⟩ := (Cursor.Consumes.next hc).split
  obtain rfl := k₂.next.eq_of_nil
  have hread : expression n c.next = .ok (v, c₂) := he.ok hact ke (ends_consumed k₂ rfl)
    (show 32 * c.next.rest.length + 23 ≤ n by omega)
  have hcomma : c₂.head? ≠ some (.sign .comma) := by
    rw [k₂.head?]
    nofun
  change atom (n + 1) c = _
  rw [atom, bind_ok (start_eq c), bind_ok (rfl : peek? c = .ok (c.head?, c)),
    Cursor.Consumes.head? hc]
  refine (bind_ok (advance_head (Cursor.Consumes.head? hc))).trans ?_
  rw [bind_ok (accept_other (head?_ne_of_opens ke rfl)), if_neg Bool.false_ne_true, bind_ok hread,
    bind_ok (accept_other hcomma), if_neg Bool.false_ne_true, bind_ok (sign_eq k₂)]
  rfl

theorem tuple {first : Expression} {rest : Derivation (.comma (.level .expression))}
    (hfirst : Accepted first) (hitems : Accepted rest) (opening comma closing : Span) :
    Accepted (.tuple opening first comma rest closing) := by
  intro n c c' v hact hc hrest hn
  obtain ⟨o, ho, hact⟩ := of_bind_eq_ok hact
  obtain ⟨os, hos, hmake⟩ := of_bind_eq_ok hact
  have hn : 32 * c.rest.length + 1 ≤ n := hn
  obtain ⟨n, rfl⟩ : ∃ m, n = m + 1 := ⟨n - 1, by omega⟩
  have hlength₁ := Cursor.Consumes.length_next hc
  obtain ⟨c₂, kfirst, k₂⟩ := (Cursor.Consumes.next hc).split
  obtain ⟨c₃, kitems, k₃⟩ := k₂.next.split
  obtain rfl := k₃.next.eq_of_nil
  have hlength₂ := kfirst.length_le
  have hlength₃ := k₂.length_next
  have hends : (Symbol.comma (.level .expression)).Ends c₃.rest := by
    rw [k₃.rest]
    exact ends_closing trivial rfl
  have hreadFirst : expression n c.next = .ok (o, c₂) := hfirst.ok ho kfirst
    (ends_consumed k₂ rfl) (show 32 * c.next.rest.length + 23 ≤ n by omega)
  have hreadItems : elements n c₂.next = .ok (os, c₃) := by
    rw [elements_eq]
    exact hitems.ok hos kitems hends (show 32 * c₂.next.rest.length + 25 ≤ n by omega)
  change atom (n + 1) c = _
  rw [atom, bind_ok (start_eq c), bind_ok (rfl : peek? c = .ok (c.head?, c)),
    Cursor.Consumes.head? hc]
  refine (bind_ok (advance_head (Cursor.Consumes.head? hc))).trans ?_
  rw [bind_ok (accept_other (head?_ne_of_opens kfirst rfl)), if_neg Bool.false_ne_true,
    bind_ok hreadFirst, bind_ok (accept_sign k₂), if_pos rfl, bind_ok hreadItems,
    bind_ok (sign_eq k₃)]
  exact makeExprBefore_ok hc (List.cons_ne_nil _ _) hmake

theorem list {items : Derivation (.comma (.level .expression))} (hitems : Accepted items)
    (opening closing : Span) : Accepted (.list opening items closing) := by
  intro n c c' v hact hc hrest hn
  obtain ⟨os, hos, hmake⟩ := of_bind_eq_ok hact
  have hn : 32 * c.rest.length + 1 ≤ n := hn
  obtain ⟨n, rfl⟩ : ∃ m, n = m + 1 := ⟨n - 1, by omega⟩
  have hlength := Cursor.Consumes.length_next hc
  obtain ⟨c₂, kitems, k₂⟩ := (Cursor.Consumes.next hc).split
  obtain rfl := k₂.next.eq_of_nil
  have hends : (Symbol.comma (.level .expression)).Ends c₂.rest := by
    rw [k₂.rest]
    exact ends_closing trivial rfl
  have hreadItems : elements n c.next = .ok (os, c₂) := by
    rw [elements_eq]
    exact hitems.ok hos kitems hends (show 32 * c.next.rest.length + 25 ≤ n by omega)
  change atom (n + 1) c = _
  rw [atom, bind_ok (start_eq c), bind_ok (rfl : peek? c = .ok (c.head?, c)),
    Cursor.Consumes.head? hc]
  refine (bind_ok (advance_head (Cursor.Consumes.head? hc))).trans ?_
  rw [bind_ok hreadItems, bind_ok (sign_eq k₂)]
  exact makeExprBefore_ok hc (List.cons_ne_nil _ _) hmake

theorem dict {items : Derivation (.comma .entry)} (hitems : Accepted items)
    (opening closing : Span) : Accepted (.dict opening items closing) := by
  intro n c c' v hact hc hrest hn
  obtain ⟨os, hos, hmake⟩ := of_bind_eq_ok hact
  have hn : 32 * c.rest.length + 1 ≤ n := hn
  obtain ⟨n, rfl⟩ : ∃ m, n = m + 1 := ⟨n - 1, by omega⟩
  have hlength := Cursor.Consumes.length_next hc
  obtain ⟨c₂, kitems, k₂⟩ := (Cursor.Consumes.next hc).split
  obtain rfl := k₂.next.eq_of_nil
  have hends : (Symbol.comma .entry).Ends c₂.rest := by
    rw [k₂.rest]
    exact ends_closing trivial rfl
  have hreadItems : entries n c.next = .ok (os, c₂) := by
    rw [entries_eq]
    exact hitems.ok hos kitems hends (show 32 * c.next.rest.length + 25 ≤ n by omega)
  change atom (n + 1) c = _
  rw [atom, bind_ok (start_eq c), bind_ok (rfl : peek? c = .ok (c.head?, c)),
    Cursor.Consumes.head? hc]
  refine (bind_ok (advance_head (Cursor.Consumes.head? hc))).trans ?_
  rw [bind_ok hreadItems, bind_ok (sign_eq k₂)]
  exact makeExprBefore_ok hc (List.cons_ne_nil _ _) hmake

end Accepted

theorem accepted {s : Symbol} (d : Derivation s) (hs : s.Proper) : Accepted d := by
  induction d
  case conditional body if_ test else_ orelse hbody htest horelse =>
    exact .conditional (hbody trivial) (htest trivial) (horelse trivial) if_ else_
  case unconditional he => exact .unconditional (he trivial)
  case joined link _ hleft hright => exact .joined (hleft trivial) (hright trivial) link
  case single he => exact .single (he trivial)
  case not not_ _ he => exact .not (he trivial) not_
  case affirmed he => exact .affirmed (he trivial)
  case compared op _ _ hleft hright hrest =>
    exact .compared (hleft trivial) (hright trivial) (hrest trivial) op
  case uncompared he => exact .uncompared (he trivial)
  case noComparisons => exact .noComparisons
  case comparison op _ _ hright hrest => exact .comparison (hright trivial) (hrest trivial) op
  case minus span _ he => exact .minus (he trivial) span
  case plus span _ he => exact .plus (he trivial) span
  case unsigned he => exact .unsigned (he trivial)
  case power op _ hbase hexponent => exact .power (hbase trivial) (hexponent trivial) op
  case unraised he => exact .unraised (he trivial)
  case await await_ _ he => exact .await (he trivial) await_
  case unawaited he => exact .unawaited (he trivial)
  case member dot attr hvalue => exact .member (hvalue trivial) dot attr
  case call opening _ closing hfunc hargs =>
    exact .call (hfunc trivial) (hargs trivial) opening closing
  case subscript opening _ closing hvalue hindex =>
    exact .subscript (hvalue trivial) (hindex trivial) opening closing
  case plain he => exact .plain (he trivial)
  case positional he => exact .positional (he trivial)
  case keyword assign _ htarget hvalue => exact .keyword (htarget trivial) (hvalue trivial) assign
  case name n => exact .leaf (t := n.token) rfl
  case int value span => exact .leaf (t := ⟨.int value, span⟩) rfl
  case float value span => exact .leaf (t := ⟨.float value, span⟩) rfl
  case true_ span => exact .leaf (t := word .true_ span) rfl
  case false_ span => exact .leaf (t := word .false_ span) rfl
  case none_ span => exact .leaf (t := word .none_ span) rfl
  case strings first parts => exact .strings first parts
  case enclosed opening _ closing he => exact .enclosed (he trivial) opening closing
  case unit opening closing => exact .unit opening closing
  case tuple opening _ comma _ closing hfirst hitems =>
    exact .tuple (hfirst trivial) (hitems trivial) opening comma closing
  case list opening _ closing hitems => exact .list (hitems trivial) opening closing
  case dict opening _ closing hentries => exact .dict (hentries trivial) opening closing
  case entry colon _ hkey hvalue => exact .entry (hkey trivial) (hvalue trivial) colon
  case required n => exact .required n
  case optional n assign _ hdefault => exact .optional (hdefault trivial) n assign
  case noItems => exact .noItems hs
  case lastItem he => exact .lastItem hs (he hs.proper)
  case item comma _ he hitems => exact .item hs (he hs.proper) (hitems hs) comma

end Grammar
end NoteCell
