import NoteCell.Proofs.Grammar.Derivations
import NoteCell.Proofs.Parsing.Levels

/-!
What reading takes from a cursor: a row of tokens, up to the end of the last of them.
-/
namespace NoteCell

open NoteCell.Grammar

namespace Cursor

structure Consumes (c : Cursor) (ts : List Located) (c' : Cursor) : Prop where
  rest : c.rest = ts ++ c'.rest
  stop : c'.stop = (ts.getLast?.map (·.span.stop)).getD c.stop
  error : c'.error = c.error

namespace Consumes

variable {c c' c'' : Cursor} {t : Located} {ts us : List Located}

theorem refl (c : Cursor) : c.Consumes [] c := ⟨rfl, rfl, rfl⟩

theorem trans (h : c.Consumes ts c') (h' : c'.Consumes us c'') : c.Consumes (ts ++ us) c'' where
  rest := by rw [h.rest, h'.rest, List.append_assoc]
  stop := by
    rw [h'.stop, h.stop, List.getLast?_append]
    cases us.getLast? <;> rfl
  error := h'.error.trans h.error

theorem cons (h : c.Consumes [t] c') (h' : c'.Consumes us c'') : c.Consumes (t :: us) c'' :=
  h.trans h'

theorem split (h : c.Consumes (ts ++ us) c'') : ∃ c', c.Consumes ts c' ∧ c'.Consumes us c'' := by
  refine ⟨⟨us ++ c''.rest, c.error, (ts.getLast?.map (·.span.stop)).getD c.stop⟩,
    ⟨by rw [h.rest, List.append_assoc], rfl, rfl⟩, ⟨rfl, ?_, h.error⟩⟩
  rw [h.stop, List.getLast?_append]
  cases us.getLast? <;> rfl

theorem next (h : c.Consumes (t :: us) c'') : c.next.Consumes us c'' := by
  obtain ⟨rest, error, stop⟩ := c
  obtain ⟨hrest, hstop, herror⟩ := h
  subst hrest
  refine ⟨rfl, hstop.trans ?_, herror⟩
  cases us with
  | nil => rfl
  | cons u us => simp [Cursor.next, List.getLast?_cons]

theorem head? (h : c.Consumes (t :: us) c') : c.head? = some t.token := by
  rw [Cursor.head?, h.rest]
  rfl

theorem start (h : c.Consumes ts c') (hne : ts ≠ []) : c.start = startOf ts := by
  obtain ⟨t, ts, rfl⟩ := List.exists_cons_of_ne_nil hne
  rw [Cursor.start, h.rest]
  rfl

theorem stop_eq (h : c.Consumes ts c') (hne : ts ≠ []) : c'.stop = stopOf ts := by
  rw [h.stop, stopOf]
  cases hlast : ts.getLast? with
  | none => exact absurd (List.getLast?_eq_none_iff.mp hlast) hne
  | some t => rfl

theorem place (h : c.Consumes ts c') (hne : ts ≠ []) :
    Location.between c.start c'.stop = placeOf ts := by
  rw [placeOf, h.start hne, h.stop_eq hne]

end Consumes
end Cursor

/-! ### What a success tells of the rules for tokens -/

theorem Grammar.ok_bind {ε α β : Type} (a : α) (f : α → Except ε β) :
    (.ok a : Except ε α) >>= f = f a := rfl

theorem Grammar.of_bind_eq_ok {ε α β : Type} {x : Except ε α} {f : α → Except ε β} {b : β}
    (h : x >>= f = .ok b) : ∃ a, x = .ok a ∧ f a = .ok b := by
  cases x with
  | error e => cases h
  | ok a => exact ⟨a, rfl, h⟩

namespace Parser

variable {α β : Type} {c c' : Cursor}

theorem of_bind {p : Parser α} {q : α → Parser β} {b : β} (h : (p >>= q) c = .ok (b, c')) :
    ∃ a c₁, p c = .ok (a, c₁) ∧ q a c₁ = .ok (b, c') := by
  cases hp : p c with
  | error e =>
    rw [bind_error hp] at h
    cases h
  | ok r =>
    obtain ⟨a, c₁⟩ := r
    rw [bind_ok hp] at h
    exact ⟨a, c₁, rfl, h⟩

theorem of_pure {a b : α} (h : (pure a : Parser α) c = .ok (b, c')) : b = a ∧ c' = c := by
  cases h
  exact ⟨rfl, rfl⟩

theorem of_peek? {t : Option Token} (h : peek? c = .ok (t, c')) : t = c.head? ∧ c' = c := by
  cases h
  exact ⟨rfl, rfl⟩

theorem of_stop {n : Nat} (h : stop c = .ok (n, c')) : n = c.stop ∧ c' = c := by
  cases h
  exact ⟨rfl, rfl⟩

theorem of_advance {t : Token} {u : Unit} (h : advance c = .ok (u, c')) (ht : c.head? = some t) :
    ∃ span, c.Consumes [⟨t, span⟩] c' := by
  obtain ⟨rest, error, stop⟩ := c
  cases rest with
  | nil => cases ht
  | cons u rest =>
    cases ht
    cases h
    exact ⟨u.span, rfl, rfl, rfl⟩

theorem of_accept_true {t : Token} (h : accept t c = .ok (true, c')) :
    ∃ span, c.Consumes [⟨t, span⟩] c' := by
  obtain ⟨u, c₁, hpeek, h⟩ := of_bind h
  obtain ⟨rfl, rfl⟩ := of_peek? hpeek
  split at h
  case isTrue ht =>
    obtain ⟨_, c₂, hadvance, h⟩ := of_bind h
    obtain ⟨_, rfl⟩ := of_pure h
    exact of_advance hadvance ht
  case isFalse => cases h

theorem of_accept_false {t : Token} (h : accept t c = .ok (false, c')) :
    c' = c ∧ c.head? ≠ some t := by
  obtain ⟨u, c₁, hpeek, h⟩ := of_bind h
  obtain ⟨rfl, rfl⟩ := of_peek? hpeek
  split at h
  case isTrue ht =>
    obtain ⟨_, c₂, hadvance, h⟩ := of_bind h
    cases h
  case isFalse ht =>
    obtain ⟨_, rfl⟩ := of_pure h
    exact ⟨rfl, ht⟩

theorem of_ifAccept {t : Token} {p q : Parser α} {a : α}
    (h : (accept t >>= fun r => if r = true then p else q) c = .ok (a, c')) :
    (∃ span c₁, c.Consumes [⟨t, span⟩] c₁ ∧ p c₁ = .ok (a, c'))
      ∨ (c.head? ≠ some t ∧ q c = .ok (a, c')) := by
  obtain ⟨r, c₁, haccept, hr⟩ := of_bind h
  cases r with
  | true =>
    obtain ⟨span, hc⟩ := of_accept_true haccept
    exact .inl ⟨span, c₁, hc, hr⟩
  | false =>
    obtain ⟨rfl, ht⟩ := of_accept_false haccept
    exact .inr ⟨ht, hr⟩

theorem of_misplaced {a : α} (h : misplaced c = .ok (a, c')) : False := by
  cases h

theorem of_refuse {follows : Option Token → Bool} {fault : SyntaxFault} {offset : Nat} {a : α}
    (h : refuse follows fault offset c = .ok (a, c')) : False := by
  cases h

theorem of_expect {t : Token} {u : Unit} (h : expect t c = .ok (u, c')) :
    ∃ span, c.Consumes [⟨t, span⟩] c' := by
  obtain ⟨r, c₁, haccept, h⟩ := of_bind h
  cases r with
  | true =>
    obtain ⟨_, rfl⟩ := of_pure h
    exact of_accept_true haccept
  | false => cases h

theorem of_identifier {s : String} (h : identifier c = .ok (s, c')) :
    ∃ n : Name, n.text = s ∧ c.Consumes [n.token] c' := by
  obtain ⟨u, c₁, hpeek, h⟩ := of_bind h
  obtain ⟨rfl, rfl⟩ := of_peek? hpeek
  cases ht : c₁.head? with
  | none =>
    rw [ht] at h
    cases h
  | some t =>
    rw [ht] at h
    cases t
    case name s' =>
      obtain ⟨_, c₂, hadvance, h⟩ := of_bind h
      obtain ⟨rfl, rfl⟩ := of_pure h
      obtain ⟨span, hc⟩ := of_advance hadvance ht
      exact ⟨⟨s, span⟩, rfl, hc⟩
    all_goals cases h

theorem of_bind_expect {t : Token} {q : Unit → Parser β} {b : β}
    (h : (expect t >>= q) c = .ok (b, c')) :
    ∃ span c₁, c.Consumes [⟨t, span⟩] c₁ ∧ q () c₁ = .ok (b, c') := by
  obtain ⟨_, c₁, hexpect, hq⟩ := of_bind h
  obtain ⟨span, hc⟩ := of_expect hexpect
  exact ⟨span, c₁, hc, hq⟩

theorem of_bind_identifier {q : String → Parser β} {b : β}
    (h : (identifier >>= q) c = .ok (b, c')) :
    ∃ (n : Name) (c₁ : Cursor), c.Consumes [n.token] c₁ ∧ q n.text c₁ = .ok (b, c') := by
  obtain ⟨_, c₁, hidentifier, hq⟩ := of_bind h
  obtain ⟨n, rfl, hc⟩ := of_identifier hidentifier
  exact ⟨n, c₁, hc, hq⟩

theorem of_bind_advance {t : Token} {q : Unit → Parser β} {b : β} (ht : c.head? = some t)
    (h : (advance >>= q) c = .ok (b, c')) :
    ∃ span c₁, c.Consumes [⟨t, span⟩] c₁ ∧ q () c₁ = .ok (b, c') := by
  obtain ⟨_, c₁, hadvance, hq⟩ := of_bind h
  obtain ⟨span, hc⟩ := of_advance hadvance ht
  exact ⟨span, c₁, hc, hq⟩

theorem of_makeExprBefore {follows : Option Token → Bool} {form : ExprForm Expr} {at_ : Nat}
    {e : Expr} (h : makeExprBefore follows form at_ c = .ok (e, c')) :
    c' = c ∧ Grammar.makeExpr (.between at_ c.stop) form = .ok e := by
  obtain ⟨n, c₁, hstop, h⟩ := of_bind h
  obtain ⟨rfl, rfl⟩ := of_stop hstop
  rw [Grammar.makeExpr]
  dsimp only at h ⊢
  split at h
  case isTrue hle =>
    obtain ⟨rfl, rfl⟩ := of_pure h
    exact ⟨rfl, if_pos hle⟩
  case isFalse => cases h

end Parser
end NoteCell
