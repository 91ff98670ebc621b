import NoteCell.Proofs.Parsing.Operators
import NoteCell.Proofs.Parsing.Primaries
import NoteCell.Proofs.Tree.Shape

/-!
Printed expressions are read back. Each form is read when its children are, and the reading of a
whole expression follows by induction.
-/
namespace NoteCell

open NoteCell.Parser

-- What is printed in a place for strength `k` is read there.
def Expr.Printed (e : Expr) : Prop :=
  ∀ k, 0 < k → k ≤ Strength.atom + 1 → Ready (min k Strength.atom) (e.tokens k) e

theorem Ready.mono {j k : Nat} {ts : List Token} {e : Expr} (h : Ready k ts e) (hj : j ≤ k) :
    Ready j ts e where
  reads i hi hij := h.reads i hi (Nat.le_trans hij hj)
  left f hf := h.left f (Nat.le_trans hf hj)
  owner ha := h.owner (Nat.le_trans ha hj)

theorem Expr.Printed.reads {e : Expr} (h : e.Printed) {k : Nat} (hk : 0 < k)
    (hk' : k ≤ Strength.atom) : Reads k (e.tokens k) e :=
  (h k hk (Nat.le_succ_of_le hk')).reads k hk (Nat.le_min.mpr ⟨Nat.le_refl k, hk'⟩)

theorem Expr.Printed.left {e : Expr} (h : e.Printed) (f : Family) :
    ReadsLeft f (e.tokens f.strength) e :=
  (h f.strength (by cases f <;> decide) (by cases f <;> decide)).left f
    (by cases f <;> decide)

theorem Expr.Printed.owner {e : Expr} (h : e.Printed) {k : Nat} (hk : Strength.atom ≤ k)
    (hk' : k ≤ Strength.atom + 1) : ReadsOwner (e.tokens k) e :=
  (h k (Nat.lt_of_lt_of_le (by decide) hk) hk').owner (Nat.le_min.mpr ⟨hk, Nat.le_refl _⟩)

theorem BinaryOp.family_eq (op : BinaryOp) (h : op ≠ .pow) :
    ∃ f : Family, f.joint? (.sign op.sign) = some (.binary op)
      ∧ (Token.sign op.sign).hold = f.strength ∧ op.strength = f.strength
      ∧ op.operandStrengths = (f.strength, f.strength + 1) := by
  cases op
  case add | sub => exact ⟨.sum, rfl, rfl, rfl, rfl⟩
  case pow => exact absurd rfl h
  all_goals exact ⟨.product, rfl, rfl, rfl, rfl⟩

theorem Ready.family {f : Family} {ts : List Token} {e : Expr} (h : ReadsLeft f ts e)
    (ho : Opens f.strength ts) : Ready f.strength ts e := by
  cases f
  case or => exact .or h
  case and => exact .and h
  case sum => exact .sum h ho
  case product => exact .product h ho

section

variable {info : NodeInfo} {form : ExprForm Expr}

-- A node whose children are read is read in its own strength.
theorem ready_form (hform : form.Regular) (hbelow : ∀ c ∈ form.children, c.Printed)
    (hs : 0 < form.strength) : Ready form.strength form.tokens (.node info form) := by
  have hopen := form.opens_tokens
  have test {e : Expr} (he : e ∈ form.children) := (hbelow e he).reads (k := Strength.test)
    (by decide) (by decide)
  cases form
  case name | int | float | str | none => exact .atom (ReadsAtom.single rfl rfl).owner hopen
  case bool b => cases b <;> exact .atom (ReadsAtom.single rfl rfl).owner hopen
  case list items => exact .atom (ReadsAtom.list fun _ he => test he).owner hopen
  case tuple items =>
    cases items
    case nil => exact .atom ReadsAtom.unit.owner hopen
    case cons => exact absurd hs (Nat.lt_irrefl 0)
  case dict entries => exact .atom (ReadsAtom.dict fun _ he => test he).owner hopen
  case binary op left right =>
    have hl := hbelow left (by simp [ExprForm.children])
    have hr := hbelow right (by simp [ExprForm.children])
    rw [ExprForm.tokens_binary] at hopen ⊢
    by_cases hop : op = .pow
    case pos =>
      subst hop
      exact .power (.pow (hl.reads (by decide) (by decide)) (hr.reads (by decide) (by decide))) hopen
    case neg =>
      have ⟨f, hj, ht, hk, hks⟩ := op.family_eq hop
      change Ready op.strength _ _
      change Opens op.strength _ at hopen
      rw [hks] at hopen ⊢
      rw [hk] at hopen ⊢
      have hright := hr.reads (k := f.strength + 1) (Nat.succ_pos _) (by cases f <;> decide)
      exact .family ((hl.left f).joint (.binary op) hright hj ht) hopen
  case unary op operand =>
    have h := hbelow operand (by simp [ExprForm.children])
    rw [ExprForm.tokens_unary] at hopen ⊢
    have hu : Reads op.strength _ (.node info (.unary op operand)) :=
      .unary (h.reads (by cases op <;> decide) (by cases op <;> decide))
    cases op
    case not => exact .not hu
    case neg | pos => exact .sign hu hopen
  case logical op left right =>
    have hl := hbelow left (by simp [ExprForm.children])
    have hr := hbelow right (by simp [ExprForm.children])
    rw [ExprForm.tokens_logical] at hopen ⊢
    cases op
    case or =>
      exact .or ((hl.left .or).joint (.logical .or)
        (hr.reads (by decide) (by decide)) rfl rfl)
    case and =>
      exact .and ((hl.left .and).joint (.logical .and)
        (hr.reads (by decide) (by decide)) rfl rfl)
  case compare left parts =>
    have hl := hbelow left (by simp [ExprForm.children])
    rw [ExprForm.tokens_compare] at hopen ⊢
    refine .comparison (.comparing (hl.reads (by decide) (by decide)) (fun p hp => ?_) hform) hopen
    have hp := hbelow p.2 (List.mem_cons_of_mem _ (List.mem_map_of_mem hp))
    exact hp.reads (by decide) (by decide)
  case conditional condition body orelse =>
    have hc := hbelow condition (by simp [ExprForm.children])
    have hb := hbelow body (by simp [ExprForm.children])
    have ho := hbelow orelse (by simp [ExprForm.children])
    rw [ExprForm.tokens_conditional]
    exact .test (.conditional (hb.reads (by decide) (by decide))
      (hc.reads (by decide) (by decide)) (ho.reads (by decide) (by decide)))
  case call func args keywords =>
    have hf := hbelow func (by simp [ExprForm.children])
    rw [ExprForm.tokens_call] at hopen ⊢
    refine .atom (.call (hf.owner (by decide) (by decide)) (fun a ha => test ?_) hform) hopen
    exact Argument.value_mem_children func ha
  case member value attr =>
    have hv := hbelow value (by simp [ExprForm.children])
    rw [ExprForm.tokens_member] at hopen ⊢
    refine .atom (.member (hv.owner ?_ ?_)) hopen <;>
      (unfold Expr.ownerStrength; split) <;> decide
  case subscript value index =>
    have hv := hbelow value (by simp [ExprForm.children])
    rw [ExprForm.tokens_subscript] at hopen ⊢
    exact .atom (.subscript (hv.owner (by decide) (by decide)) (test (by simp [ExprForm.children]))) hopen
  case await value =>
    have hv := hbelow value (by simp [ExprForm.children])
    rw [ExprForm.tokens_await] at hopen ⊢
    exact .await (.awaiting (hv.reads (by decide) (by decide))) hopen

end

theorem Expr.Regular.printed {e : Expr} (h : e.Regular) : e.Printed := by
  induction h
  case node info form here below ih =>
    intro k hk hk'
    have hnode (hs : 0 < form.strength) : Ready form.strength form.tokens (.node info form) :=
      ready_form here ih hs
    rw [tokens_node]
    split
    case isTrue hlt =>
      have henclosed : ReadsAtom (.sign .lparen :: form.tokens ++ [.sign .rparen])
          (.node info form) := by
        by_cases hs : 0 < form.strength
        case pos =>
          exact .enclosed ((hnode hs).reads _ (by decide) hs) (form.opens_tokens.mono hs)
        case neg =>
          obtain ⟨e, es, rfl⟩ := ExprForm.eq_tuple_of_strength (Nat.eq_zero_of_not_pos hs)
          exact .tuple (fun e he => (ih e he).reads (by decide) (by decide)) (by simp)
      exact (Ready.atom henclosed.owner ⟨_, _, rfl, rfl⟩).mono (Nat.min_le_right ..)
    case isFalse hle =>
      have hle := Nat.not_lt.mp hle
      exact (hnode (Nat.lt_of_lt_of_le hk hle)).mono (Nat.le_trans (Nat.min_le_left ..) hle)


end NoteCell
