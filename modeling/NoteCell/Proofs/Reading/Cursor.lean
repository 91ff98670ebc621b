import NoteCell.Parsing.Cursor
import NoteCell.Proofs.Printing.Brackets

/-!
What reading preserves. A rule of the grammar leaves the end of the tokens as it is, and it closes
the brackets that it opens, so that what it reads lies within as many brackets as it started in.
-/
namespace NoteCell

-- How many brackets are open behind a token.
def Token.after (brackets : Nat) : Token → Nat
  | .sign s => if s.opens then brackets + 1 else if s.closes then brackets - 1 else brackets
  | _ => brackets

theorem Token.after_plain {t : Token} (h : t.isPlain) (b : Nat) : t.after b = b := by
  cases t
  case sign s =>
    simp only [isPlain, Bool.and_eq_true, Bool.not_eq_true'] at h
    simp [after, h]
  all_goals rfl

-- Tokens that open no more brackets than they may behind so many open ones.
def OpensWithin : Nat → List Token → Prop
  | b, [] => b ≤ Layout.maxBrackets
  | b, t :: ts => b ≤ Layout.maxBrackets ∧ OpensWithin (t.after b) ts

theorem OpensWithin.le {b : Nat} {ts : List Token} (h : OpensWithin b ts) : b ≤ Layout.maxBrackets := by
  cases ts with
  | nil => exact h
  | cons => exact h.1

-- The tokens that a source can have.
def Token.Known (t : Token) : Prop := t.isLayout ∨ t.Lexable

theorem Token.Known.lexable {t : Token} (h : t.Known) (ht : t.isLayout = false) : t.Lexable :=
  h.resolve_left (by simp [ht])

namespace Cursor

-- A cursor with so many brackets open, before tokens that end in the given way.
structure Sound (error : Option LexError) (b : Nat) (c : Cursor) : Prop where
  error_eq : c.error = error
  known : ∀ t ∈ c.rest, t.token.Known
  within : OpensWithin b (c.rest.map (·.token))

variable {error : Option LexError} {b : Nat} {c : Cursor} {t : Token}

theorem Sound.le (h : c.Sound error b) : b ≤ Layout.maxBrackets := h.within.le

theorem Sound.head (h : c.Sound error b) (ht : c.head? = some t) : t.Known := by
  obtain ⟨rest, _, _⟩ := c
  cases rest with
  | nil => cases ht
  | cons u rest =>
    cases ht
    exact h.known u List.mem_cons_self

theorem Sound.step {u : Located} {rest : List Located} {e : Option LexError} {stop stop' : Nat}
    (h : Sound error b ⟨u :: rest, e, stop⟩) : Sound error (u.token.after b) ⟨rest, e, stop'⟩ where
  error_eq := h.error_eq
  known t ht := h.known t (List.mem_cons_of_mem u ht)
  within := h.within.2

end Cursor

/-! ### Rules -/

-- What holds after every success of a rule.
def Ensures {α : Type} (P : Cursor → Prop) (p : Parser α) (Q : α → Cursor → Prop) : Prop :=
  ∀ c a c', P c → p c = .ok (a, c') → Q a c'

-- A rule from so many open brackets to so many, with results as `A` has them.
def Keeps {α : Type} (error : Option LexError) (b : Nat) (p : Parser α) (b' : Nat) (A : α → Prop) :
    Prop :=
  Ensures (·.Sound error b) p fun a c => A a ∧ c.Sound error b'

-- The same, before the given next token.
def Facing {α : Type} (error : Option LexError) (b : Nat) (t : Option Token) (p : Parser α) (b' : Nat)
    (A : α → Prop) : Prop :=
  Ensures (fun c => c.Sound error b ∧ c.head? = t) p fun a c => A a ∧ c.Sound error b'

section

open NoteCell.Parser

variable {α β : Type} {P P' : Cursor → Prop} {p : Parser α} {f : α → Parser β}
  {Q : α → Cursor → Prop} {R : β → Cursor → Prop} {error : Option LexError} {b b' b'' : Nat}
  {A A' : α → Prop} {B : β → Prop} {t : Token} {follows : Option Token → Bool}

namespace Ensures

theorem imp (h : Ensures P p Q) (hP : ∀ c, P' c → P c) : Ensures P' p Q :=
  fun c a c' hc hp => h c a c' (hP c hc) hp

theorem bind (hp : Ensures P p Q) (hf : ∀ a, Ensures (Q a) (f a) R) : Ensures P (p >>= f) R := by
  intro c r c' hc h
  match hfirst : p c with
  | .ok (a, c₁) =>
    simp only [Bind.bind, StateT.bind, Except.bind, hfirst] at h
    exact hf a c₁ r c' (hp c a c₁ hc hfirst) h
  | .error e => simp [Bind.bind, StateT.bind, Except.bind, hfirst] at h

theorem pure {a : α} (h : ∀ c, P c → Q a c) : Ensures P (Pure.pure a) Q := by
  intro c a' c' hc hp
  obtain ⟨rfl, rfl⟩ := Prod.mk.inj (Except.ok.inj hp)
  exact h c hc

end Ensures

namespace Keeps

theorem bind (hp : Keeps error b p b' A) (hf : ∀ a, A a → Keeps error b' (f a) b'' B) :
    Keeps error b (p >>= f) b'' B :=
  Ensures.bind hp fun a c r c' hc h => hf a hc.1 c r c' hc.2 h

theorem pure {a : α} (h : A a) : Keeps error b (Pure.pure a) b A :=
  Ensures.pure fun _ hc => ⟨h, hc⟩

theorem imp (h : Keeps error b p b' A) (hA : ∀ a, A a → A' a) : Keeps error b p b' A' :=
  fun c a c' hc hp => (h c a c' hc hp).imp_left (hA a)

-- What a rule is given to start from may be used of it.
theorem using_le (h : b ≤ Layout.maxBrackets → Keeps error b p b' A) : Keeps error b p b' A :=
  fun c a c' hc hp => h hc.le c a c' hc hp

theorem misplaced : Keeps error b (misplaced : Parser α) b' A := fun _ _ _ _ h => nomatch h

theorem refuse {fault : SyntaxFault} {offset : Nat} :
    Keeps error b (refuse follows fault offset : Parser α) b' A := fun _ _ _ _ h => nomatch h

theorem start : Keeps error b start b fun _ => True := by
  intro c a c' hc h
  cases h
  exact ⟨trivial, hc⟩

theorem stop : Keeps error b stop b fun _ => True := by
  intro c a c' hc h
  cases h
  exact ⟨trivial, hc⟩

theorem reachNext : Keeps error b reachNext b fun _ => True := by
  intro c a c' hc h
  cases h
  exact ⟨trivial, ⟨hc.error_eq, hc.known, hc.within⟩⟩

end Keeps

/-! ### Tokens -/

-- Taking the token that has been seen.
theorem Facing.advance {p : Parser β} (hp : t.Known → Keeps error (t.after b) p b' B) :
    Facing error b (some t) (Parser.advance >>= fun _ => p) b' B := by
  intro c a c' ⟨hc, ht⟩ h
  have hknown := hc.head ht
  obtain ⟨rest, e, stop⟩ := c
  cases rest with
  | nil => cases ht
  | cons u rest =>
    cases ht
    exact hp hknown _ a c' hc.step h

theorem Facing.plain {p : Parser β} (ht : t.isPlain) (hp : Keeps error b p b' B) :
    Facing error b (some t) (Parser.advance >>= fun _ => p) b' B :=
  .advance fun _ => by rwa [t.after_plain ht]

-- Going on without it.
theorem Facing.stay {t : Option Token} (hp : Keeps error b p b' A) : Facing error b t p b' A :=
  Ensures.imp hp fun _ hc => hc.1

namespace Keeps

-- A rule that looks at the next token before it goes on.
theorem peek {f : Option Token → Parser β} (hf : ∀ t, Facing error b t (f t) b' B) :
    Keeps error b (peek? >>= f) b' B := by
  refine Ensures.bind (Q := fun t c => c.Sound error b ∧ c.head? = t) ?_ hf
  intro c t c' hc h
  cases h
  exact ⟨hc, rfl⟩

theorem accept_ensures (t : Token) : Ensures (·.Sound error b) (Parser.accept t)
    fun r c => c.Sound error (if r then t.after b else b) := by
  refine Ensures.bind (Q := fun u c => c.Sound error b ∧ c.head? = u) ?_ fun u => ?_
  · intro c u c' hc h
    cases h
    exact ⟨hc, rfl⟩
  · split
    case isTrue hu =>
      subst hu
      intro c r c' hc h
      obtain ⟨rfl, hc'⟩ := Facing.advance (B := fun r => r = true) (fun _ => .pure rfl) c r c' hc h
      exact hc'
    case isFalse => exact .pure fun c hc => hc.1

theorem accept (ht : t.isPlain) : Keeps error b (Parser.accept t) b fun _ => True := by
  intro c r c' hc h
  have := accept_ensures t c r c' hc h
  rw [t.after_plain ht, ite_self] at this
  exact ⟨trivial, this⟩

theorem ifAccept {p q : Parser α} (hp : Keeps error (t.after b) p b' A)
    (hq : Keeps error b q b' A) :
    Keeps error b (Parser.accept t >>= fun r => if r = true then p else q) b' A := by
  refine Ensures.bind (accept_ensures t) fun r => ?_
  cases r with
  | true => exact hp
  | false => exact hq

theorem expect : Keeps error b (expect t) (t.after b) fun _ => True :=
  ifAccept (.pure trivial) .misplaced

theorem identifier : Keeps error b identifier b fun s => (Token.name s).Lexable := by
  refine peek fun t => ?_
  split
  case h_1 s => exact .advance fun h => .pure (h.lexable rfl)
  case h_2 => exact .stay .misplaced

end Keeps

end

end NoteCell
