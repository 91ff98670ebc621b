import NoteCell.Proofs.Lexing.Lines
import NoteCell.Proofs.Printing.Tokens
import NoteCell.Proofs.Tree.Shape

/-!
Words of printed text. Blanks stand wherever two tokens would run together, so the words of a printed
tree can be told apart again.
-/
namespace NoteCell

open Word

/-! ### Tokens side by side -/

-- Tokens that do not begin with an equals sign.
def Token.begins : Token → Bool
  | .sign .assign | .sign .eqEq => false
  | _ => true

-- Tokens with which a phrase may end.
def Token.ends : Token → Bool
  | .sign s => s.closes || s = .comma || s = .colon
  | _ => true

-- Signs that may stand right behind a phrase.
def Sign.hugs : Sign → Bool
  | comma | colon | lparen | lbracket => true
  | s => s.closes

-- Signs behind which anything begins but an equals sign.
def Sign.binds : Sign → Bool
  | plus | minus | assign => true
  | s => s.opens

namespace Token

variable {t u : Token}

-- The first character of a spelling, by kind of token.
theorem Lexable.head_ne (h : u.Lexable) (hu : u.begins) : ∀ c ∈ u.spelling.toList.head?, c ≠ '=' := by
  intro c hc
  have ne_of {p : Char → Bool} (hp : p '=' = false) (h : p c) : c ≠ '=' := by
    rintro rfl
    rw [hp] at h
    cases h
  cases u
  case name s =>
    obtain ⟨⟨d, ds, htext, hd, _⟩, _⟩ := h
    rw [spelling, htext] at hc
    cases hc
    exact ne_of (p := isNameStart) (by decide) hd
  case word k =>
    obtain ⟨d, ds, htext, hd, _⟩ := k.exists_text
    rw [spelling, htext] at hc
    cases hc
    exact ne_of (p := isNameStart) (by decide) hd
  case int n =>
    rw [toList_spelling_int h] at hc
    exact ne_of (p := Char.isDigit) (by decide)
      (Decimal.isDigit_of_mem_toDigits (List.mem_of_mem_head? hc))
  case float x =>
    obtain ⟨d, ds, htext, hd, _⟩ := @first_float x h [] (fun _ hc => by cases hc)
    rw [htext] at hc
    cases hc
    exact ne_of (p := Char.isDigit) (by decide) hd
  case str s =>
    rw [spelling, Quoted.text, String.toList_ofList] at hc
    cases hc
    obtain h | h := Quoted.isQuote_quoteFor s.toList <;> rw [h] <;> decide
  case sign s => cases s <;> first | exact absurd hu (by decide) | (cases hc; decide)
  all_goals exact h.elim

theorem head_hugging {s : Sign} (hs : s.hugs) : ∀ c ∈ s.text.toList.head?,
    c = ',' ∨ c = ':' ∨ c = '(' ∨ c = '[' ∨ c = ')' ∨ c = ']' ∨ c = '\x7d' := by
  intro c hc
  cases s <;> first | exact absurd hs (by decide) | (cases hc; decide)

theorem parts_hugging (ht : t.ends) {s : Sign} (hs : s.hugs) : t.Parts (.sign s) := by
  intro c hc
  have hplain : isNameContinue c = false ∧ c ≠ '.' ∧ c ≠ '\'' ∧ c ≠ '"' := by
    obtain rfl | rfl | rfl | rfl | rfl | rfl | rfl := head_hugging hs c hc <;> decide
  cases t
  case sign s => cases s <;> first | rfl | exact absurd ht (by decide)
  all_goals simp [runsOn, hplain]

theorem parts_dot (hint : ∀ n, t ≠ .int n) : t.Parts (.sign .dot) := by
  intro c hc
  obtain rfl : '.' = c := Option.some.inj hc
  cases t
  case int n => exact absurd rfl (hint n)
  case sign s => cases s <;> rfl
  all_goals
    have hplain : isNameContinue '.' = false := by decide
    simp [runsOn, hplain]

theorem parts_of_binds {s : Sign} (hs : s.binds) (h : u.Lexable) (hu : u.begins) :
    (Token.sign s).Parts u := by
  intro c hc
  have hc := h.head_ne hu c hc
  cases s <;> first | exact absurd hs (by decide) | rfl | exact beq_eq_false_iff_ne.mpr hc.symm

theorem name_parts_assign (s : String) : (Token.name s).Parts (.sign .assign) := by
  intro c hc
  cases hc
  change isNameContinue '=' = false
  decide

theorem dot_parts_name {s : String} (h : (Token.name s).Lexable) :
    (Token.sign .dot).Parts (.name s) := by
  intro c hc
  obtain ⟨⟨d, ds, htext, hd, _⟩, _⟩ := h
  rw [spelling, htext] at hc
  cases hc
  change Char.isDigit c = false
  rw [Bool.eq_false_iff]
  exact fun h => by simp [isNameStart_of_isDigit h] at hd

end Token

/-! ### Phrases -/

theorem Readable.nil : Readable [] := ⟨nofun, .nil⟩

theorem Readable.single {w : Word} (h : w.token.Lexable) : Readable [w] :=
  ⟨by simpa using h, .singleton w⟩

theorem Readable.append {ws vs : List Word} (hw : Readable ws) (hv : Readable vs)
    (h : ∀ t ∈ (tokensOf ws).getLast?, ∀ v ∈ vs.head?, v.spaced = true ∨ t.Parts v.token) :
    Readable (ws ++ vs) := by
  refine ⟨fun w hmem => ?_, ?_⟩
  · obtain hmem | hmem := List.mem_append.mp hmem
    · exact hw.lexable w hmem
    · exact hv.lexable w hmem
  · refine List.isChain_append.mpr ⟨hw.apart, hv.apart, fun w hlast v hhead => ?_⟩
    exact h w.token (by rw [tokensOf, List.getLast?_map, hlast]; rfl) v hhead

theorem Readable.shift {ws : List Word} (h : Readable ws) : Readable (shift ws) := by
  cases ws with
  | nil => exact h
  | cons w ws =>
    refine ⟨?_, ?_⟩
    · exact List.forall_mem_cons.mpr
        ⟨h.lexable w List.mem_cons_self, fun v hv => h.lexable v (List.mem_cons_of_mem w hv)⟩
    · have := h.apart
      rw [Word.shift, List.isChain_cons] at *
      exact this

-- Words that can be told apart, the first of them close to what comes before.
structure Phrase (ws : List Word) : Prop where
  readable : Readable ws
  starts : ∃ w vs, ws = w :: vs ∧ w.spaced = false ∧ w.token.begins
  ends : ∀ t ∈ (tokensOf ws).getLast?, t.ends

namespace Phrase

variable {ws vs : List Word} {t : Token} {s : Sign}

theorem single (h : t.Lexable) (hbegins : t.begins) (hends : t.ends) : Phrase [tight t] :=
  ⟨.single h, ⟨_, _, rfl, rfl, hbegins⟩, by simpa using hends⟩

theorem ne_nil (h : Phrase ws) : ws ≠ [] := by
  obtain ⟨w, vs, rfl, _⟩ := h.starts
  exact List.cons_ne_nil w vs

theorem ends_append (ws : List Word) {vs : List Word} (hne : vs ≠ [])
    (h : ∀ t ∈ (tokensOf vs).getLast?, t.ends) : ∀ t ∈ (tokensOf (ws ++ vs)).getLast?, t.ends := by
  have hne' : tokensOf vs ≠ [] := by simpa [tokensOf] using hne
  rwa [tokensOf_append, List.getLast?_append_of_ne_nil _ hne']

-- What comes behind a phrase, set apart or hugging it.
theorem append (h : Phrase ws) (hv : Readable vs) (hne : vs ≠ [])
    (hends : ∀ t ∈ (tokensOf vs).getLast?, t.ends)
    (hlink : ∀ v ∈ vs.head?, v.spaced = true ∨ ∃ s : Sign, s.hugs ∧ v.token = .sign s) :
    Phrase (ws ++ vs) := by
  refine ⟨h.readable.append hv fun t ht v hv => ?_, ?_, ends_append ws hne hends⟩
  · obtain hspaced | ⟨s, hs, heq⟩ := hlink v hv
    · exact .inl hspaced
    · exact .inr (heq ▸ Token.parts_hugging (h.ends t ht) hs)
  · obtain ⟨w, us, rfl, hw⟩ := h.starts
    exact ⟨w, us ++ vs, List.cons_append, hw⟩

theorem shift_ne_nil (h : Phrase ws) : shift ws ≠ [] := by
  obtain ⟨w, vs, rfl, _⟩ := h.starts
  exact List.cons_ne_nil _ vs

theorem head_shift {v : Word} (hv : v ∈ (shift ws).head?) : v.spaced = true := by
  cases ws with
  | nil => cases hv
  | cons w ws => cases hv; rfl

theorem ends_shift (h : Phrase ws) : ∀ t ∈ (tokensOf (shift ws)).getLast?, t.ends := by
  rw [tokensOf_shift]
  exact h.ends

theorem hugged (h : Phrase ws) (hs : s.hugs) (hends : (Token.sign s).ends) :
    Phrase (ws ++ [tight (.sign s)]) :=
  h.append (.single trivial) (by simp) (by simpa using hends)
    fun v hv => .inr ⟨s, hs, by cases hv; rfl⟩

-- A token before a phrase that is set apart from it.
theorem behind (h : Phrase ws) (ht : t.Lexable) (hbegins : t.begins) :
    Phrase (tight t :: shift ws) := by
  refine ⟨(Readable.single ht).append h.readable.shift fun _ _ v hv => .inl (head_shift hv),
    ⟨_, _, rfl, rfl, hbegins⟩, ?_⟩
  exact ends_append [tight t] h.shift_ne_nil h.ends_shift

theorem readable_bound (h : Phrase ws) (hs : s.binds) : Readable (tight (.sign s) :: ws) := by
  refine (Readable.single (w := tight (.sign s)) trivial).append h.readable fun t ht v hv => ?_
  cases ht
  obtain ⟨w, vs, rfl, _, hw⟩ := h.starts
  obtain rfl : w = v := Option.some.inj hv
  exact .inr (Token.parts_of_binds hs (h.readable.lexable w List.mem_cons_self) hw)

-- A sign right before a phrase.
theorem bound (h : Phrase ws) (hs : s.binds) (hbegins : (Token.sign s).begins) :
    Phrase (tight (.sign s) :: ws) :=
  ⟨h.readable_bound hs, ⟨_, _, rfl, rfl, hbegins⟩, ends_append [tight (.sign s)] h.ne_nil h.ends⟩

-- A name and its value.
theorem keyword {name : String} (hname : (Token.name name).Lexable) (h : Phrase ws) :
    Phrase (tight (.name name) :: tight (.sign .assign) :: ws) := by
  refine ⟨(Readable.single (w := tight (.name name)) hname).append (h.readable_bound rfl)
    fun t ht v hv => .inr ?_, ⟨_, _, rfl, rfl, rfl⟩,
    ends_append [tight (.name name), tight (.sign .assign)] h.ne_nil h.ends⟩
  cases ht
  cases hv
  exact Token.name_parts_assign name

-- What begins with a name, behind a point.
theorem readable_point (h : Phrase ws) (hhead : ∀ v ∈ ws.head?, ∃ name, v.token = .name name) :
    Readable (tight (.sign .dot) :: ws) := by
  refine (Readable.single (w := tight (.sign .dot)) trivial).append h.readable fun t ht v hv => ?_
  cases ht
  have ⟨name, hname⟩ := hhead v hv
  have hlexable := h.readable.lexable v (List.mem_of_mem_head? hv)
  rw [hname] at hlexable ⊢
  exact .inr (Token.dot_parts_name hlexable)

theorem member {attr : String} (h : Phrase ws)
    (hlast : ∀ t ∈ (tokensOf ws).getLast?, ∀ n, t ≠ .int n) (hattr : (Token.name attr).Lexable) :
    Phrase (ws ++ [tight (.sign .dot), tight (.name attr)]) := by
  have hdot := readable_point (.single hattr rfl rfl) fun v hv => ⟨attr, by cases hv; rfl⟩
  refine ⟨h.readable.append hdot fun t ht v hv => .inr ?_, ?_, ends_append ws (by simp) ?_⟩
  · cases hv
    exact Token.parts_dot (hlast t ht)
  · obtain ⟨w, us, rfl, hw⟩ := h.starts
    exact ⟨w, _, List.cons_append, hw⟩
  · intro t ht
    cases ht
    rfl

theorem readable_apart {ts : List Token} (hts : ∀ t ∈ ts, t.Lexable) : Readable (ts.map apart) := by
  induction ts with
  | nil => exact .nil
  | cons t ts ih =>
    have h := ih fun u hu => hts u (List.mem_cons_of_mem t hu)
    refine (Readable.single (w := apart t) (hts t List.mem_cons_self)).append h fun _ _ v hv => .inl ?_
    cases ts with
    | nil => cases hv
    | cons u ts => cases hv; rfl

-- Two phrases with an operator between them.
theorem infix_ (h : Phrase ws) (hv : Phrase vs) {ts : List Token} (hts : ∀ t ∈ ts, t.Lexable) :
    Phrase (ws ++ (ts.map apart ++ shift vs)) := by
  refine h.append ((readable_apart hts).append hv.readable.shift fun _ _ v hv => .inl (head_shift hv))
    (by simp [hv.shift_ne_nil]) (ends_append _ hv.shift_ne_nil hv.ends_shift) fun v hv' => .inl ?_
  cases ts with
  | nil => exact head_shift hv'
  | cons t ts => cases hv'; rfl

theorem joined (h : Phrase ws) (hv : Phrase vs) (ht : t.Lexable) :
    Phrase (ws ++ apart t :: shift vs) :=
  h.infix_ hv (show ∀ u ∈ [t], u.Lexable by simpa using ht)

-- A sign close to what comes before it and apart from what comes behind.
theorem thenApart (h : Phrase ws) (hv : Phrase vs) (hs : s.hugs) :
    Phrase (ws ++ tight (.sign s) :: shift vs) := by
  refine h.append ?_ (List.cons_ne_nil _ _) ?_ fun v hv => .inr ⟨s, hs, by cases hv; rfl⟩
  · exact (Readable.single (w := tight (.sign s)) trivial).append hv.readable.shift
      fun _ _ v hv => .inl (head_shift hv)
  · exact ends_append [tight (.sign s)] hv.shift_ne_nil hv.ends_shift

-- Brackets right behind a phrase.
theorem thenEnclosed {opening closing : Sign} (h : Phrase ws)
    (hv : Phrase (enclosed opening closing vs)) (hs : opening.hugs) :
    Phrase (ws ++ enclosed opening closing vs) :=
  h.append hv.readable (List.cons_ne_nil _ _) hv.ends fun v hv => .inr ⟨opening, hs, by cases hv; rfl⟩

theorem separated {rows : List (List Word)} (h : ∀ row ∈ rows, Phrase row) (hne : rows ≠ []) :
    Phrase (separated rows) := by
  induction rows using Word.separated.induct
  case case1 => exact absurd rfl hne
  case case2 row => exact h row List.mem_cons_self
  case case3 row rows hrows ih =>
    rw [Word.separated.eq_3 _ _ hrows]
    exact (h row List.mem_cons_self).thenApart
      (ih (fun r hr => h r (List.mem_cons_of_mem row hr)) hrows) rfl

end Phrase

theorem Token.parts_of_opens {s : Sign} (hs : s.opens) (u : Token) : (Token.sign s).Parts u := by
  intro c _
  cases s <;> first | rfl | exact absurd hs (by decide)

-- Anything in brackets.
theorem Phrase.enclosed {opening closing : Sign} {ws : List Word} (ho : opening.opens)
    (hc : closing.closes) (h : Readable ws) (hends : ∀ t ∈ (tokensOf ws).getLast?, t.ends) :
    Phrase (enclosed opening closing ws) := by
  have hhugs : closing.hugs := by cases closing <;> first | rfl | exact absurd hc (by decide)
  have hends' : (Token.sign closing).ends := by simp [Token.ends, hc]
  have hbegins : (Token.sign opening).begins := by
    cases opening <;> first | rfl | exact absurd ho (by decide)
  have hopen : Readable (tight (.sign opening) :: ws) :=
    (Readable.single (w := tight (.sign opening)) trivial).append h fun t ht v _ => by
      cases ht
      exact .inr (Token.parts_of_opens ho v.token)
  rw [Word.enclosed]
  refine ⟨hopen.append (.single trivial) fun t ht v hv => .inr ?_, ⟨_, _, rfl, rfl, hbegins⟩,
    ends_append _ (by simp) (by simpa using hends')⟩
  cases hv
  cases ws with
  | nil =>
    cases ht
    exact Token.parts_of_opens ho _
  | cons w ws => exact Token.parts_hugging (hends t (by simpa [List.getLast?_cons] using ht)) hhugs

theorem Phrase.brackets {opening closing : Sign} {rows : List (List Word)} (ho : opening.opens)
    (hc : closing.closes) (h : ∀ row ∈ rows, Phrase row) :
    Phrase (Word.enclosed opening closing (Word.separated rows)) := by
  rcases eq_or_ne rows [] with rfl | hne
  · exact .enclosed ho hc .nil nofun
  · exact .enclosed ho hc (Phrase.separated h hne).readable (Phrase.separated h hne).ends

/-! ### Expressions -/

-- The names and literals of a node.
def ExprForm.Lexable {α : Type} : ExprForm α → Prop
  | .name s => (Token.name s).Lexable
  | .int n => (Token.int n).Lexable
  | .float x => (Token.float x).Lexable
  | .call _ _ keywords => ∀ k ∈ keywords, (Token.name k.1).Lexable
  | .member _ attr => (Token.name attr).Lexable
  | _ => True

def Expr.Lexable : Expr → Prop := All fun _ form => form.Lexable

theorem ExprForm.lexable_map {α β : Type} {form : ExprForm α} (f : α → β) :
    (form.map f).Lexable ↔ form.Lexable := by
  cases form
  case call => exact List.forall_mem_map
  all_goals exact Iff.rfl

theorem Expr.Lexable.of_bare {e e' : Expr} (h : e.Lexable) (hb : e'.bare = e.bare) : e'.Lexable :=
  All.of_bare h hb fun _ => ExprForm.lexable_map _

-- The last token before a point is no whole number: those are set in brackets there.
theorem Expr.last_owner (e : Expr) :
    ∀ t ∈ (e.tokens e.ownerStrength).getLast?, ∀ n, t ≠ .int n := by
  obtain ⟨info, form⟩ := e
  have hlast {ts : List Token} {s : Sign} : ∀ t ∈ (ts ++ [Token.sign s]).getLast?, ∀ n, t ≠ .int n := by
    intro t ht n
    rw [List.getLast?_concat] at ht
    cases ht
    exact nofun
  have lt {k l : Nat} : Nat.ble (k + 1) l = true → k < l := Nat.le_of_ble_eq_true
  rw [Expr.tokens_node]
  split
  case isTrue => exact hlast
  case isFalse hs =>
    cases form
    case int => exact absurd (Nat.lt_succ_self Strength.atom) hs
    case name | float | str | none =>
      intro t ht
      cases ht
      exact nofun
    case bool b =>
      intro t ht
      cases b <;> (cases ht; exact nofun)
    case list => rw [ExprForm.tokens_list]; exact hlast
    case dict => rw [ExprForm.tokens_dict]; exact hlast
    case tuple items =>
      cases items
      case nil => exact @hlast [.sign .lparen] .rparen
      case cons => exact absurd (lt rfl) hs
    case call =>
      rw [ExprForm.tokens_call, ← List.cons_append, ← List.append_assoc]
      exact hlast
    case subscript =>
      rw [ExprForm.tokens_subscript, ← List.cons_append, ← List.append_assoc]
      exact hlast
    case member value attr =>
      rw [ExprForm.tokens_member]
      intro t ht
      rw [List.getLast?_append_of_ne_nil _ (by simp)] at ht
      cases ht
      exact nofun
    case binary op _ _ => exact absurd (by cases op <;> exact lt rfl) hs
    case unary op _ => exact absurd (by cases op <;> exact lt rfl) hs
    case logical op _ _ => exact absurd (by cases op <;> exact lt rfl) hs
    all_goals exact absurd (lt rfl) hs

section

variable {α : Type} {f : α → List Word} {items : List α}

theorem Phrase.rows (h : ∀ a ∈ items, Phrase (f a)) : ∀ row ∈ items.map f, Phrase row := by
  intro row hrow
  obtain ⟨a, ha, rfl⟩ := List.mem_map.mp hrow
  exact h a ha

end

theorem Phrase.comparison {ws : List Word} {rest : List (CompareOp × Expr)} (hw : Phrase ws)
    (h : ∀ p ∈ rest, Phrase (p.2.words (Strength.comparison + 1))) :
    Phrase (ws ++ Expr.comparisonWords rest) := by
  induction rest generalizing ws
  case nil => rwa [Expr.comparisonWords, List.append_nil]
  case cons p rest ih =>
    rw [Expr.comparisonWords, ← List.append_assoc]
    refine ih ?_ fun q hq => h q (List.mem_cons_of_mem p hq)
    exact hw.infix_ (h p List.mem_cons_self) (by cases p.1 <;> simp [CompareOp.tokens, Token.Lexable])

theorem ExprForm.phrase {form : ExprForm Expr} (h : form.Lexable)
    (hbelow : ∀ c ∈ form.children, ∀ k, Phrase (c.words k)) : Phrase form.words := by
  cases form
  case name | int | float => exact .single h rfl rfl
  case str | none => exact .single trivial rfl rfl
  case bool b => cases b <;> exact .single trivial rfl rfl
  case list items =>
    rw [ExprForm.words, Expr.rows_eq]
    exact .brackets rfl rfl (.rows fun e he => hbelow e he _)
  case tuple items =>
    obtain _ | ⟨e, _ | ⟨d, es⟩⟩ := items
    · exact .enclosed rfl rfl .nil (by simp)
    · exact (hbelow e List.mem_cons_self _).hugged rfl rfl
    · rw [ExprForm.words, Expr.rows_eq]
      exact .separated (.rows fun e he => hbelow e he _) (by simp)
      all_goals simp
  case dict entries =>
    rw [ExprForm.words, Expr.entryRows_eq]
    refine .brackets rfl rfl (.rows fun p he => ?_)
    obtain ⟨k, v⟩ := p
    have hk : k ∈ (ExprForm.dict entries).children := List.mem_flatMap.mpr ⟨(k, v), he, by simp⟩
    have hv : v ∈ (ExprForm.dict entries).children := List.mem_flatMap.mpr ⟨(k, v), he, by simp⟩
    exact (hbelow k hk _).thenApart (hbelow v hv _) rfl
  case binary op left right =>
    exact (hbelow left (by simp [children]) _).joined (hbelow right (by simp [children]) _) trivial
  case unary op operand =>
    have hoperand := hbelow operand (by simp [children]) op.strength
    rw [ExprForm.words]
    cases op
    case not => exact hoperand.behind trivial rfl
    case neg | pos => exact hoperand.bound rfl rfl
  case logical op left right =>
    exact (hbelow left (by simp [children]) _).joined (hbelow right (by simp [children]) _) trivial
  case compare left rest =>
    exact .comparison (hbelow left (by simp [children]) _)
      fun p hp => hbelow p.2 (List.mem_cons_of_mem _ (List.mem_map_of_mem hp)) _
  case conditional test body orelse =>
    have htest : Phrase (body.words Strength.or
        ++ apart (.word .if_) :: shift (test.words Strength.or)) :=
      (hbelow body (by simp [children]) _).joined (hbelow test (by simp [children]) _) trivial
    exact htest.joined (hbelow orelse (by simp [children]) _) trivial
  case call func args keywords =>
    rw [ExprForm.words, Expr.rows_eq, Expr.keywordRows_eq]
    refine (hbelow func (by simp [children]) _).thenEnclosed (.brackets rfl rfl fun row hrow => ?_) rfl
    obtain hrow | hrow := List.mem_append.mp hrow
    · exact Phrase.rows (fun a ha => hbelow a (by simp [children, ha]) _) row hrow
    · refine Phrase.rows (fun k hk => ?_) row hrow
      have hvalue := hbelow k.2 (by simp [children]; exact .inr (.inr ⟨k.1, hk⟩)) Strength.test
      exact .keyword (h k hk) hvalue
  case member value attr =>
    exact (hbelow value (by simp [children]) _).member value.last_owner h
  case subscript value index =>
    have hindex := hbelow index (by simp [children]) Strength.test
    exact (hbelow value (by simp [children]) _).thenEnclosed
      (.enclosed rfl rfl hindex.readable hindex.ends) rfl
  case await value => exact (hbelow value (by simp [children]) _).behind trivial rfl

theorem Expr.Lexable.phrase {e : Expr} (h : e.Lexable) (context : Nat) :
    Phrase (e.words context) := by
  induction h generalizing context
  case node info form here _ ih =>
    have hform := ExprForm.phrase here fun c hc k => ih c hc k
    rw [Expr.words]
    split
    · exact .enclosed rfl rfl hform.readable hform.ends
    · exact hform

/-! ### Statements -/

def Alias.Lexable (a : Alias) : Prop :=
  (∀ s ∈ a.path, (Token.name s).Lexable) ∧ ∀ s ∈ a.asname, (Token.name s).Lexable

-- The names of a statement.
def StmtForm.Lexable {σ : Type} : StmtForm σ → Prop
  | .define name params _ _ =>
    (Token.name name).Lexable ∧ ∀ p ∈ params, (Token.name p.name).Lexable
  | .imports names => ∀ a ∈ names, a.Lexable
  | .importFrom path names => (∀ s ∈ path, (Token.name s).Lexable) ∧ ∀ a ∈ names, a.Lexable
  | _ => True

def Stmt.Lexable : Stmt → Prop := All fun _ form => form.Lexable ∧ ∀ e ∈ form.exprs, e.Lexable

theorem StmtForm.lexable_map {σ τ : Type} {form : StmtForm σ} (f : Expr → Expr) (g : σ → τ) :
    (form.map f g).Lexable ↔ form.Lexable := by
  cases form
  case define => exact and_congr Iff.rfl List.forall_mem_map
  all_goals exact Iff.rfl

theorem Stmt.Lexable.of_bare {s s' : Stmt} (h : s.Lexable) (hb : s'.bare = s.bare) : s'.Lexable :=
  All.of_bare h hb fun _ _ _ _ hform ⟨hlexable, hexprs⟩ =>
    ⟨(StmtForm.lexable_map _ _).mp (hform ▸ (StmtForm.lexable_map _ _).mpr hlexable),
      StmtForm.forall_exprs_of_bare hexprs hform Expr.Lexable.of_bare⟩

theorem Param.phrase {p : Param} (h : (Token.name p.name).Lexable)
    (hdefault : ∀ e ∈ p.default?, e.Lexable) : Phrase p.words := by
  rw [Param.words]
  cases hp : p.default? with
  | none => exact .single h rfl rfl
  | some e => exact .keyword h ((hdefault e hp).phrase _)

theorem Phrase.dotted {name : String} {ws : List Word} (hname : (Token.name name).Lexable)
    (h : Phrase ws) (hhead : ∀ v ∈ ws.head?, ∃ r, v.token = .name r) :
    Phrase (tight (.name name) :: tight (.sign .dot) :: ws) := by
  refine ⟨(Readable.single (w := tight (.name name)) hname).append (h.readable_point hhead)
    fun t ht v hv => .inr ?_, ⟨_, _, rfl, rfl, rfl⟩,
    Phrase.ends_append [tight (.name name), tight (.sign .dot)] h.ne_nil h.ends⟩
  cases ht
  cases hv
  exact Token.parts_dot nofun

theorem phrase_dottedWords {path : List String} (h : ∀ s ∈ path, (Token.name s).Lexable)
    (hne : path ≠ []) : Phrase (dottedWords path) := by
  induction path using dottedWords.induct
  case case1 => exact absurd rfl hne
  case case2 s => exact .single (h s List.mem_cons_self) rfl rfl
  case case3 s rest hrest ih =>
    have hphrase := ih (fun r hr => h r (List.mem_cons_of_mem s hr)) hrest
    obtain ⟨r, us, hr⟩ : ∃ r us, dottedWords rest = tight (.name r) :: us := by
      obtain _ | ⟨r, _ | ⟨r', rest⟩⟩ := rest
      · exact absurd rfl hrest
      · exact ⟨r, _, rfl⟩
      · exact ⟨r, _, rfl⟩
    rw [dottedWords.eq_3 _ _ hrest]
    refine Phrase.dotted (h s List.mem_cons_self) hphrase fun v hv => ?_
    rw [hr] at hv
    exact ⟨r, by cases hv; rfl⟩

theorem Alias.phrase {a : Alias} (h : a.Lexable) (hne : a.path ≠ []) : Phrase a.words := by
  have hpath := phrase_dottedWords h.1 hne
  rw [Alias.words]
  cases has : a.asname with
  | none => rwa [List.append_nil]
  | some s =>
    have hname : Phrase [tight (.name s)] := .single (h.2 s has) rfl rfl
    exact hpath.joined (t := .word .as_) hname trivial

theorem phrase_aliases {names : List Alias} (h : ∀ a ∈ names, a.Lexable) (hne : names ≠ [])
    (hpath : ∀ a ∈ names, a.Regular) : Phrase (separated (names.map Alias.words)) :=
  .separated (.rows fun a ha => Alias.phrase (h a ha) (hpath a ha)) (by simpa using hne)

theorem phrase_keywordWords (k : Keyword) {value : Option Expr} (h : ∀ e ∈ value, e.Lexable) :
    Phrase (keywordWords k value) := by
  unfold keywordWords
  cases value with
  | none => exact .single trivial rfl rfl
  | some e => exact ((h e rfl).phrase _).behind trivial rfl

theorem phrase_headWords (k : Keyword) {test : Expr} (h : test.Lexable) :
    Phrase (headWords k test) :=
  (phrase_keywordWords k (by simpa using h)).hugged rfl rfl

theorem phrase_chainWords {targets : List Expr} {value : Expr} (h : ∀ t ∈ targets, t.Lexable)
    (hvalue : value.Lexable) :
    Phrase (chainWords (targets.map targetWords ++ [value.words Strength.test])) := by
  induction targets
  case nil => simpa [chainWords, Word.shift] using hvalue.phrase Strength.test
  case cons target targets ih =>
    rw [List.map_cons, List.cons_append, chainWords, targetWords, List.append_assoc]
    exact ((h target List.mem_cons_self).phrase _).joined
      (ih fun t ht => h t (List.mem_cons_of_mem target ht)) trivial

-- A line of a statement.
theorem StmtForm.phrase {form : StmtForm Stmt} (h : form.Lexable) (hform : form.Regular)
    (hexprs : ∀ e ∈ form.exprs, e.Lexable) : Phrase form.words := by
  cases form
  case expr e => exact (hexprs e List.mem_cons_self).phrase _
  case assign targets value =>
    exact phrase_chainWords (fun t ht => hexprs t (by simp [exprs, ht])) (hexprs value (by simp [exprs]))
  case augAssign target op value =>
    exact ((hexprs target (by simp [exprs])).phrase _).joined
      ((hexprs value (by simp [exprs])).phrase _) trivial
  case ifElse test _ _ | whileLoop test _ => exact phrase_headWords _ (hexprs test (by simp [exprs]))
  case forEach target iter _ =>
    have htarget := (hexprs target (by simp [exprs])).phrase Strength.tuple
    have hiter := (hexprs iter (by simp [exprs])).phrase Strength.test
    exact ((htarget.behind (t := .word .for_) trivial rfl).joined (t := .word .in_) hiter
      trivial).hugged rfl rfl
  case define name params _ isAsync =>
    have hparams : Phrase (enclosed .lparen .rparen (separated (params.map Param.words))) :=
      .brackets rfl rfl (.rows fun p hp => Param.phrase (h.2 p hp)
        fun e he => hexprs e (List.mem_filterMap.mpr ⟨p, hp, he⟩))
    have hname : Phrase [tight (.name name)] := .single h.1 rfl rfl
    have hdef := ((hname.thenEnclosed hparams rfl).behind (t := .word .def_) trivial rfl).hugged
      (s := .colon) rfl rfl
    cases isAsync
    case false => exact hdef
    case true => exact hdef.behind (t := .word .async_) trivial rfl
  case ret value | raise value => exact phrase_keywordWords _ (by simpa [exprs] using hexprs)
  case imports names => exact (phrase_aliases h hform.1 hform.2).behind trivial rfl
  case importFrom path names =>
    exact (((phrase_dottedWords h.1 hform.1).behind (t := .word .from_) trivial rfl).joined
      (t := .word .import_) (phrase_aliases h.2 hform.2.1 hform.2.2) trivial)
  all_goals exact .single trivial rfl rfl

end NoteCell
