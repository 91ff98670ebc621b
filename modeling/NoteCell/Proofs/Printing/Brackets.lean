import NoteCell.Proofs.Printing.Lines

/-!
Brackets of printed text. Every line closes the brackets that it opens, and how deep they go is all
that matters of them.
-/
namespace NoteCell

open Word Strength

-- How deep the brackets of a row of tokens go at most.
def bracketDepth : List Token → Nat
  | [] => 0
  | .sign s :: ts =>
    if s.opens then bracketDepth ts + 1
    else if s.closes then bracketDepth ts - 1
    else bracketDepth ts
  | _ :: ts => bracketDepth ts

-- A token that is no bracket.
def Token.isPlain : Token → Bool
  | .sign s => !s.opens && !s.closes
  | _ => true

-- Rows of tokens in which every bracket has its partner.
inductive Balanced : List Token → Prop
  | nil : Balanced []
  | plain {t : Token} {ts : List Token} (ht : t.isPlain) (h : Balanced ts) : Balanced (t :: ts)
  | enclosed {opening closing : Sign} {ts us : List Token} (ho : opening.opens) (hc : closing.closes)
    (h : Balanced ts) (h' : Balanced us) :
    Balanced (.sign opening :: (ts ++ .sign closing :: us))

namespace Balanced

variable {ts us : List Token} {t : Token}

theorem append (h : Balanced ts) (h' : Balanced us) : Balanced (ts ++ us) := by
  induction h
  case nil => exact h'
  case plain ht _ ih => exact .plain ht ih
  case enclosed ho hc h _ _ ih =>
    rw [List.cons_append, List.append_assoc, List.cons_append]
    exact .enclosed ho hc h ih

theorem single (ht : t.isPlain) : Balanced [t] := .plain ht .nil

theorem brackets {opening closing : Sign} (ho : opening.opens) (hc : closing.closes)
    (h : Balanced ts) : Balanced (.sign opening :: ts ++ [.sign closing]) :=
  .enclosed ho hc h .nil

theorem bracketDepth_plain (ht : t.isPlain) (ts : List Token) :
    bracketDepth (t :: ts) = bracketDepth ts := by
  cases t
  case sign s =>
    simp only [Token.isPlain, Bool.and_eq_true, Bool.not_eq_true'] at ht
    simp [bracketDepth, ht]
  all_goals rfl

theorem bracketDepth_append (h : Balanced ts) (us : List Token) :
    bracketDepth (ts ++ us) = max (bracketDepth ts) (bracketDepth us) := by
  induction h generalizing us
  case nil => simp [bracketDepth]
  case plain t ts ht _ ih => rw [List.cons_append, bracketDepth_plain ht, bracketDepth_plain ht, ih]
  case enclosed o c ts vs ho hc _ _ ih ih' =>
    have hc' : c.opens = false := by cases c <;> first | rfl | exact absurd hc (by decide)
    have hinner (ws : List Token) : bracketDepth (.sign o :: (ts ++ .sign c :: ws))
        = max (bracketDepth ts + 1) (bracketDepth ws) := by
      rw [bracketDepth, if_pos ho, ih, bracketDepth, hc', if_neg (by simp), if_pos hc]
      omega
    rw [List.cons_append, List.append_assoc, List.cons_append, hinner, hinner, ih', Nat.max_assoc]

theorem bracketDepth_enclosed {opening closing : Sign} (ho : opening.opens) (hc : closing.closes)
    (h : Balanced ts) (us : List Token) :
    bracketDepth (.sign opening :: (ts ++ .sign closing :: us))
      = max (bracketDepth ts + 1) (bracketDepth us) := by
  have hc' : closing.opens = false := by cases closing <;> first | rfl | exact absurd hc (by decide)
  rw [bracketDepth, if_pos ho, h.bracketDepth_append, bracketDepth, hc', if_neg (by simp), if_pos hc]
  omega

end Balanced

/-! ### Brackets taken away -/

-- How many brackets are open behind some tokens, unless one is closed that was never opened.
def openBehind : Nat → List Token → Option Nat
  | n, [] => some n
  | n, .sign s :: ts =>
    if s.opens then openBehind (n + 1) ts
    else if s.closes then if n = 0 then none else openBehind (n - 1) ts
    else openBehind n ts
  | n, _ :: ts => openBehind n ts

-- Tokens that close so many brackets besides those that they open.
def Closing : Nat → List Token → Prop
  | 0, ts => Balanced ts
  | n + 1, ts => ∃ us c vs, ts = us ++ .sign c :: vs ∧ Balanced us ∧ c.closes ∧ Closing n vs

section

variable {n : Nat} {ts us xs ys : List Token} {t : Token} {s o c : Sign}

theorem openBehind_plain (ht : t.isPlain) : openBehind n (t :: ts) = openBehind n ts := by
  cases t
  case sign s =>
    simp only [Token.isPlain, Bool.and_eq_true, Bool.not_eq_true'] at ht
    simp [openBehind, ht]
  all_goals rfl

theorem openBehind_opening (hs : s.opens) :
    openBehind n (.sign s :: ts) = openBehind (n + 1) ts := if_pos hs

theorem openBehind_closing (hs : s.closes) :
    openBehind (n + 1) (.sign s :: ts) = openBehind n ts := by
  have hopens : s.opens = false := by cases s <;> first | rfl | exact absurd hs (by decide)
  simp [openBehind, hopens, hs]

theorem Balanced.openBehind_append (h : Balanced ts) (us : List Token) :
    openBehind n (ts ++ us) = openBehind n us := by
  induction h generalizing n us
  case nil => rfl
  case plain ht _ ih => exact (openBehind_plain ht).trans (ih us)
  case enclosed o c ts vs ho hc _ _ ih ih' =>
    rw [List.cons_append, List.append_assoc, List.cons_append, openBehind_opening ho, ih,
      openBehind_closing hc, ih']

theorem Closing.behind (h : Closing n us) (hts : Balanced ts) : Closing n (ts ++ us) := by
  cases n with
  | zero => exact hts.append h
  | succ n =>
    obtain ⟨vs, c, ws, rfl, hvs, hc, hws⟩ := h
    exact ⟨ts ++ vs, c, ws, (List.append_assoc ..).symm, hts.append hvs, hc, hws⟩

theorem Closing.opening (hs : s.opens) (h : Closing (n + 1) ts) : Closing n (.sign s :: ts) := by
  obtain ⟨us, c, vs, rfl, hus, hc, hvs⟩ := h
  have hpair : Balanced (.sign s :: us ++ [.sign c]) := .brackets hs hc hus
  have hall := hvs.behind hpair
  rwa [List.append_assoc] at hall

theorem closing_of_openBehind (h : openBehind n ts = some 0) : Closing n ts := by
  induction ts generalizing n with
  | nil =>
    cases h
    exact .nil
  | cons t ts ih =>
    cases t
    case sign s =>
      by_cases hopens : s.opens
      · exact .opening hopens (ih (openBehind_opening hopens ▸ h))
      by_cases hcloses : s.closes
      · cases n with
        | zero => simp [openBehind, hopens, hcloses] at h
        | succ n => exact ⟨[], s, ts, rfl, .nil, hcloses, ih (openBehind_closing hcloses ▸ h)⟩
      · have hplain : (Token.sign s).isPlain := by simp [Token.isPlain, hopens, hcloses]
        exact (ih (openBehind_plain hplain ▸ h)).behind (.single hplain)
    all_goals exact (ih h).behind (.single rfl)

theorem openBehind_cut (ho : o.opens) (hc : c.closes) (hts : Balanced ts) :
    openBehind n (xs ++ .sign o :: (ts ++ .sign c :: ys))
      = openBehind n (xs ++ (ts ++ ys)) := by
  induction xs generalizing n with
  | nil =>
    rw [List.nil_append, List.nil_append, openBehind_opening ho, hts.openBehind_append,
      openBehind_closing hc, hts.openBehind_append]
  | cons x xs ih =>
    cases x <;> simp only [List.cons_append, openBehind, ih]

-- Without a pair of brackets that belong together.
theorem Balanced.cut (h : Balanced (xs ++ .sign o :: (ts ++ .sign c :: ys)))
    (ho : o.opens) (hc : c.closes) (hts : Balanced ts) : Balanced (xs ++ (ts ++ ys)) := by
  have hnone := @Balanced.openBehind_append 0 _ h []
  rw [List.append_nil, openBehind_cut ho hc hts] at hnone
  exact @closing_of_openBehind 0 _ hnone

end

-- A property of rows that holds of what is made of them side by side and of plain tokens.
structure Rowwise (P : List Token → Prop) : Prop where
  nil : P []
  plain {t : Token} {ts : List Token} : t.isPlain → P ts → P (t :: ts)
  append {ts us : List Token} : P ts → P us → P (ts ++ us)

-- A property that rows have when they are put in brackets.
def Nests (Inner Outer : List Token → Prop) : Prop :=
  ∀ {opening closing : Sign} {ts : List Token}, opening.opens → closing.closes → Inner ts →
    Outer (.sign opening :: ts ++ [.sign closing])

theorem Balanced.rowwise : Rowwise Balanced := ⟨.nil, .plain, .append⟩

-- Brackets that go to a given depth at most.
structure Shallow (depth : Nat) (ts : List Token) : Prop where
  balanced : Balanced ts
  le : bracketDepth ts ≤ depth

namespace Shallow

variable {n m : Nat} {ts us : List Token}

theorem mono (h : Shallow n ts) (hm : n ≤ m) : Shallow m ts :=
  ⟨h.balanced, Nat.le_trans h.le hm⟩

theorem nil : Shallow n [] := ⟨.nil, Nat.zero_le n⟩

theorem plain {t : Token} (ht : t.isPlain) (h : Shallow n ts) : Shallow n (t :: ts) :=
  ⟨.plain ht h.balanced, Nat.le_trans (Nat.le_of_eq (Balanced.bracketDepth_plain ht ts)) h.le⟩

theorem append (h : Shallow n ts) (h' : Shallow n us) : Shallow n (ts ++ us) :=
  ⟨h.balanced.append h'.balanced,
    Nat.le_trans (Nat.le_of_eq (h.balanced.bracketDepth_append us)) (Nat.max_le.mpr ⟨h.le, h'.le⟩)⟩

theorem brackets {opening closing : Sign} (ho : opening.opens) (hc : closing.closes)
    (h : Shallow n ts) : Shallow (n + 1) (.sign opening :: ts ++ [.sign closing]) where
  balanced := .brackets ho hc h.balanced
  le := by
    have hdepth := Balanced.bracketDepth_enclosed ho hc h.balanced []
    rw [List.cons_append, hdepth]
    exact Nat.max_le.mpr ⟨Nat.succ_le_succ h.le, Nat.zero_le _⟩

theorem rowwise (n : Nat) : Rowwise (Shallow n) := ⟨nil, plain, append⟩

theorem nests (n : Nat) : Nests (Shallow n) (Shallow (n + 1)) := brackets

end Shallow

namespace Rowwise

variable {P : List Token → Prop} (h : Rowwise P)

include h

theorem single {t : Token} (ht : t.isPlain) : P [t] := h.plain ht h.nil

theorem commaed {rows : List (List Token)} (hrows : ∀ row ∈ rows, P row) : P (commaed rows) := by
  induction rows using NoteCell.commaed.induct
  case case1 => exact h.nil
  case case2 row => exact hrows row List.mem_cons_self
  case case3 row rows hne ih =>
    rw [NoteCell.commaed.eq_3 _ _ hne]
    exact h.append (hrows row List.mem_cons_self)
      (h.plain rfl (ih fun r hr => hrows r (List.mem_cons_of_mem row hr)))

variable {α : Type} {f : α → List Token} {items : List α}

theorem commaed_map (hf : ∀ a ∈ items, P (f a)) : P (NoteCell.commaed (items.map f)) := by
  refine h.commaed fun row hrow => ?_
  obtain ⟨a, ha, rfl⟩ := List.mem_map.mp hrow
  exact hf a ha

theorem flatMap (hf : ∀ a ∈ items, P (f a)) : P (items.flatMap f) := by
  induction items
  case nil => exact h.nil
  case cons a as ih =>
    rw [List.flatMap_cons]
    exact h.append (hf a List.mem_cons_self) (ih fun b hb => hf b (List.mem_cons_of_mem a hb))

end Rowwise

/-! ### Expressions -/

namespace ExprForm

variable {α : Type}

-- The parts of a form that stand in brackets of its own.
def enclosed : ExprForm α → List α
  | list items | tuple items => items
  | dict entries => entries.flatMap fun (k, v) => [k, v]
  | call _ args keywords => args ++ keywords.map (·.2)
  | subscript _ index => [index]
  | _ => []

-- The parts that do not.
def exposed : ExprForm α → List α
  | list _ | tuple _ | dict _ => []
  | call func _ _ => [func]
  | subscript value _ => [value]
  | form => form.children

def encloses : ExprForm α → Bool
  | list _ | tuple _ | dict _ | call .. | subscript .. => true
  | _ => false

-- Forms whose brackets are there in every place. Those of a tuple that has items depend on it.
def isBracketed : ExprForm α → Bool
  | tuple (_ :: _) => false
  | form => form.encloses

theorem isBracketed_cases (form : ExprForm α) :
    (form.isBracketed ∧ form.encloses ∧ form.strength = atom)
      ∨ (∃ item items, form = tuple (item :: items))
      ∨ (form.isBracketed = false ∧ form.enclosed = [] ∧ test ≤ form.strength) := by
  cases form
  case list | dict | call | subscript => exact .inl ⟨rfl, rfl, rfl⟩
  case tuple items =>
    cases items with
    | nil => exact .inl ⟨rfl, rfl, rfl⟩
    | cons item items => exact .inr (.inl ⟨item, items, rfl⟩)
  case binary op _ _ | unary op _ | logical op _ _ =>
    exact .inr (.inr ⟨rfl, rfl, by cases op <;> exact Nat.le_of_ble_eq_true rfl⟩)
  all_goals exact .inr (.inr ⟨rfl, rfl, Nat.le_of_ble_eq_true rfl⟩)

theorem mem_children_of_enclosed {form : ExprForm α} {c : α} (h : c ∈ form.enclosed) :
    c ∈ form.children := by
  cases form
  case list | tuple | dict => exact h
  case call => exact List.mem_cons_of_mem _ h
  case subscript value index =>
    rw [List.mem_singleton.mp h]
    exact List.mem_cons_of_mem value List.mem_cons_self
  all_goals cases h

theorem mem_children_of_exposed {form : ExprForm α} {c : α} (h : c ∈ form.exposed) :
    c ∈ form.children := by
  cases form
  case list | tuple | dict => cases h
  case call | subscript =>
    rw [List.mem_singleton.mp h]
    exact List.mem_cons_self
  all_goals exact h

end ExprForm

theorem Expr.ownerStrength_of_isBracketed {e : Expr} (h : e.form.isBracketed) :
    e.ownerStrength = atom := by
  rw [ownerStrength]
  split
  case h_1 heq =>
    rw [heq] at h
    cases h
  case h_2 => rfl

theorem Expr.atom_le_ownerStrength (e : Expr) : atom ≤ e.ownerStrength := by
  rw [ownerStrength]
  split <;> decide

theorem ExprForm.tokens_closed {P Q : List Token → Prop} {form : ExprForm Expr} (hQ : Rowwise Q)
    (hP : Rowwise P) (hweak : ∀ ts, Q ts → P ts) (hnest : form.isBracketed → Nests Q P)
    (hin : ∀ c ∈ form.enclosed, Q (c.tokens test))
    (hout : ∀ c ∈ form.exposed, ∀ k ≤ c.ownerStrength, P (c.tokens k)) : P form.tokens := by
  have part {c : Expr} (hc : c ∈ form.exposed) {k : Nat} (hk : k ≤ atom) : P (c.tokens k) :=
    hout c hc k (Nat.le_trans hk c.atom_le_ownerStrength)
  have plain {t : Token} (ht : t.isPlain) {ts : List Token} (hts : P ts) : P (t :: ts) :=
    hP.plain ht hts
  cases form
  case name | int | float | str | none => exact hP.single rfl
  case bool b => cases b <;> exact hP.single rfl
  case list items =>
    rw [tokens_list]
    exact hnest rfl rfl rfl (hQ.commaed_map hin)
  case tuple items =>
    cases items
    case nil => exact hnest rfl rfl rfl hQ.nil
    case cons e es =>
      rw [tokens_tuple (List.cons_ne_nil e es)]
      cases es
      case nil => exact hweak _ (hQ.append (hin e List.mem_cons_self) (hQ.single rfl))
      case cons => exact hweak _ (hQ.commaed_map hin)
  case dict entries =>
    rw [tokens_dict]
    refine hnest rfl rfl rfl (hQ.commaed_map fun (k, v) he => ?_)
    have hk : k ∈ (dict entries).enclosed := List.mem_flatMap.mpr ⟨(k, v), he, by simp⟩
    have hv : v ∈ (dict entries).enclosed := List.mem_flatMap.mpr ⟨(k, v), he, by simp⟩
    exact hQ.append (hin k hk) (hQ.plain rfl (hin v hv))
  case binary op left right =>
    rw [tokens_binary]
    exact hP.append (part (by simp [exposed, children]) (by cases op <;> decide))
      (plain (by cases op <;> rfl)
        (part (by simp [exposed, children]) (by cases op <;> decide)))
  case unary op operand =>
    rw [tokens_unary]
    exact plain (by cases op <;> rfl)
      (part (by simp [exposed, children]) (by cases op <;> decide))
  case logical op left right =>
    rw [tokens_logical]
    exact hP.append (part (by simp [exposed, children]) (by cases op <;> decide))
      (plain rfl (part (by simp [exposed, children]) (by cases op <;> decide)))
  case compare left rest =>
    rw [tokens_compare]
    refine hP.append (part List.mem_cons_self (by decide)) (hP.flatMap fun p hp => ?_)
    have hpart := part (List.mem_cons_of_mem left (List.mem_map_of_mem hp)) (show sum ≤ atom by decide)
    refine hP.append ?_ hpart
    cases p.1 <;> first | exact hP.single rfl | exact plain rfl (hP.single rfl)
  case conditional condition body orelse =>
    rw [tokens_conditional]
    exact hP.append
      (hP.append (part (by simp [exposed, children]) (by decide))
        (plain rfl (part (by simp [exposed, children]) (by decide))))
      (plain rfl (part (by simp [exposed, children]) (by decide)))
  case call func args keywords =>
    rw [tokens_call, ← List.cons_append]
    refine hP.append (part List.mem_cons_self (by decide))
      (hnest rfl rfl rfl (hQ.commaed fun row hrow => ?_))
    obtain hrow | hrow := List.mem_append.mp hrow
    · obtain ⟨a, ha, rfl⟩ := List.mem_map.mp hrow
      exact hin a (List.mem_append_left _ ha)
    · obtain ⟨k, hk, rfl⟩ := List.mem_map.mp hrow
      exact hQ.plain rfl
        (hQ.plain rfl (hin k.2 (List.mem_append_right _ (List.mem_map_of_mem hk))))
  case member value attr =>
    rw [tokens_member]
    exact hP.append (hout value List.mem_cons_self _ (Nat.le_refl _))
      (plain rfl (hP.single rfl))
  case subscript value index =>
    rw [tokens_subscript, ← List.cons_append]
    exact hP.append (part List.mem_cons_self (by decide))
      (hnest rfl rfl rfl (hin index List.mem_cons_self))
  case await value =>
    rw [tokens_await]
    exact plain rfl (part List.mem_cons_self (by decide))

theorem Expr.balanced (e : Expr) (k : Nat) : Balanced (e.tokens k) := by
  induction e using childrenInduction generalizing k
  case h info form ih =>
    have hform : Balanced form.tokens :=
      ExprForm.tokens_closed Balanced.rowwise Balanced.rowwise (fun _ h => h) (fun _ => .brackets)
        (fun c hc => ih c (ExprForm.mem_children_of_enclosed hc) _)
        fun c hc k _ => ih c (ExprForm.mem_children_of_exposed hc) k
    rw [tokens_node]
    split
    · exact .brackets rfl rfl hform
    · exact hform

-- How deep the brackets go that a tree has of its own.
def Expr.brackets : Expr → Nat
  | node _ form =>
    if form.encloses then nestingOver (form.enclosed.attach.map fun ⟨c, _h⟩ => brackets c) else 0
termination_by e => sizeOf e
decreasing_by exact sizeOf_lt_of_mem (ExprForm.mem_children_of_enclosed _h)

theorem Expr.brackets_node (info : NodeInfo) (form : ExprForm Expr) :
    (node info form).brackets
      = if form.encloses then nestingOver (form.enclosed.map brackets) else 0 := by
  rw [brackets]
  congr 2
  exact List.attach_map_val

theorem Expr.brackets_lt {info : NodeInfo} {form : ExprForm Expr} (hform : form.encloses) {c : Expr}
    (hc : c ∈ form.enclosed) : c.brackets < (node info form).brackets := by
  rw [brackets_node, if_pos hform]
  exact lt_nestingOver (List.mem_map_of_mem hc)

theorem Expr.brackets_pos {info : NodeInfo} {form : ExprForm Expr} (hform : form.encloses) :
    0 < (node info form).brackets := by
  rw [brackets_node, if_pos hform, nestingOver]
  omega

-- Printing adds no brackets but those around parts that hold less strongly than their place: every
-- node has one pair at most, and a node without its own has none where it may be any test.
theorem Expr.shallow (e : Expr) :
    (∀ k ≤ e.ownerStrength, Shallow e.depth (e.tokens k))
      ∧ Shallow (max e.brackets (e.depth - 1)) (e.tokens test) := by
  induction e using childrenInduction
  case h info form ih =>
    have hdepth {c : Expr} (hc : c ∈ form.children) := @depth_lt info form c hc
    have hin {c : Expr} (hc : c ∈ form.enclosed) := ih c (ExprForm.mem_children_of_enclosed hc)
    have hout {c : Expr} (hc : c ∈ form.exposed) := ih c (ExprForm.mem_children_of_exposed hc)
    have hbelow {c : Expr} (hc : c ∈ form.enclosed) := hdepth (ExprForm.mem_children_of_enclosed hc)
    have hbeside {c : Expr} (hc : c ∈ form.exposed) := hdepth (ExprForm.mem_children_of_exposed hc)
    obtain ⟨d, hd⟩ : ∃ d, (node info form).depth = d + 1 := ⟨_, by rw [depth_node]; exact Nat.add_comm 1 _⟩
    rw [hd] at hbelow hbeside
    constructor
    · intro k hk
      rw [tokens_node, hd]
      split
      case isTrue hlt =>
        refine .brackets rfl rfl (ExprForm.tokens_closed (Shallow.rowwise d) (Shallow.rowwise d)
          (fun _ h => h) (fun hform => ?_) (fun c hc => ?_) fun c hc k hk => ?_)
        · have howner := @ownerStrength_of_isBracketed (.node info form) hform
          obtain ⟨_, _, hatom⟩ | ⟨item, items, rfl⟩ | ⟨hbare, _⟩ := form.isBracketed_cases
          · omega
          · cases hform
          · rw [hbare] at hform
            cases hform
        · exact ((hin hc).1 _ (Nat.le_trans (by decide) c.atom_le_ownerStrength)).mono
            (Nat.le_of_lt_succ (hbelow hc))
        · exact ((hout hc).1 k hk).mono (Nat.le_of_lt_succ (hbeside hc))
      case isFalse hle =>
        refine ExprForm.tokens_closed (Shallow.rowwise d) (Shallow.rowwise (d + 1))
          (fun _ h => h.mono (Nat.le_succ d)) (fun _ => .brackets) (fun c hc => ?_) fun c hc k hk => ?_
        · exact ((hin hc).1 _ (Nat.le_trans (by decide) c.atom_le_ownerStrength)).mono
            (Nat.le_of_lt_succ (hbelow hc))
        · exact ((hout hc).1 k hk).mono (Nat.le_of_lt (hbeside hc))
    · rw [hd, tokens_node, Nat.add_sub_cancel]
      have hinner (hform : form.encloses) {c : Expr} (hc : c ∈ form.enclosed) :
          Shallow (max (node info form).brackets d - 1) (c.tokens test) := by
        have hbrackets := @brackets_lt info form hform c hc
        have := hbelow hc
        exact (hin hc).2.mono (by omega)
      obtain ⟨hbr, hform, hatom⟩ | ⟨item, items, rfl⟩ | ⟨hbare, hnone, htest⟩ := form.isBracketed_cases
      · obtain ⟨m, hm⟩ : ∃ m, max (node info form).brackets d = m + 1 := by
          have := @brackets_pos info form hform
          exact ⟨max (node info form).brackets d - 1, by omega⟩
        rw [hm] at hinner
        rw [if_neg (by rw [hatom]; decide), hm]
        refine ExprForm.tokens_closed (Shallow.rowwise m) (Shallow.rowwise (m + 1))
          (fun _ h => h.mono (Nat.le_succ m)) (fun _ => .brackets) (fun c hc => hinner hform hc)
          fun c hc k hk => ?_
        have := hbeside hc
        exact ((hout hc).1 k hk).mono (by omega)
      · have hpos := @brackets_pos info (.tuple (item :: items)) rfl
        rw [if_pos (show (ExprForm.tuple (item :: items)).strength < test from Nat.zero_lt_one)]
        have hrow : Shallow (max (node info (.tuple (item :: items))).brackets d - 1)
            (ExprForm.tuple (item :: items)).tokens :=
          ExprForm.tokens_closed (Shallow.rowwise _) (Shallow.rowwise _) (fun _ h => h) nofun
            (fun c hc => hinner rfl hc) nofun
        exact (hrow.brackets rfl rfl).mono (by omega)
      · rw [if_neg (by omega)]
        refine ExprForm.tokens_closed (Shallow.rowwise _) (Shallow.rowwise _) (fun _ h => h)
          (by simp [hbare]) (by simp [hnone]) fun c hc k hk => ?_
        have := hbeside hc
        exact ((hout hc).1 k hk).mono (by omega)

/-! ### Statements -/

-- The expressions of a statement that stand in brackets of its own.
def StmtForm.enclosed {σ : Type} : StmtForm σ → List Expr
  | define _ params _ _ => params.filterMap (·.default?)
  | _ => []

section

variable {P Q : List Token → Prop} (hP : Rowwise P)

include hP

theorem Rowwise.dotted (path : List String) : P (dottedTokens path) := by
  induction path using dottedTokens.induct
  case case1 => exact hP.nil
  case case2 => exact hP.single rfl
  case case3 s rest hne ih =>
    rw [dottedTokens.eq_3 _ _ hne]
    exact hP.plain rfl (hP.plain rfl ih)

theorem Rowwise.alias_ (a : Alias) : P a.tokens := by
  rw [Alias.tokens_eq]
  refine hP.append (hP.dotted a.path) ?_
  cases a.asname
  · exact hP.nil
  · exact hP.plain rfl (hP.single rfl)

theorem Rowwise.aliases (names : List Alias) : P (NoteCell.commaed (names.map Alias.tokens)) :=
  hP.commaed_map fun a _ => hP.alias_ a

theorem Rowwise.param {p : Param} (h : ∀ e ∈ p.default?, P (e.tokens test)) : P p.tokens := by
  rw [Param.tokens_eq]
  refine hP.plain rfl ?_
  cases hd : p.default? with
  | none => exact hP.nil
  | some e => exact hP.plain rfl (h e hd)

theorem Rowwise.keyword (k : Keyword) {value : Option Expr} (h : ∀ e ∈ value, P (e.tokens test)) :
    P (.word k :: (value.map (Expr.tokens test)).getD []) := by
  refine hP.plain rfl ?_
  cases value with
  | none => exact hP.nil
  | some e => exact h e rfl

theorem Rowwise.headWords (k : Keyword) {e : Expr} (h : P (e.tokens test)) :
    P (tokensOf (headWords k e)) := by
  rw [tokensOf_headWords]
  exact hP.plain rfl (hP.append h (hP.single rfl))

theorem Rowwise.chain {targets : List Expr} {value : Expr}
    (h : ∀ e ∈ targets, P (e.tokens tuple)) (hvalue : P (value.tokens test)) :
    P (chainTokens value targets) := by
  induction targets
  case nil => exact hvalue
  case cons target targets ih =>
    exact hP.append (h target List.mem_cons_self)
      (hP.plain rfl (ih fun e he => h e (List.mem_cons_of_mem target he)))

theorem StmtForm.tokens_closed {form : StmtForm Stmt} (hQ : Rowwise Q) (hnest : Nests Q P)
    (hin : ∀ e ∈ form.enclosed, Q (e.tokens test))
    (hout : ∀ e ∈ form.exprs, ∀ k ≤ test, P (e.tokens k)) : P form.tokens := by
  have part {e : Expr} (he : e ∈ form.exprs) : P (e.tokens test) := hout e he _ (Nat.le_refl _)
  have target {e : Expr} (he : e ∈ form.exprs) : P (e.tokens tuple) := hout e he _ (Nat.zero_le _)
  cases form
  case expr e => exact part List.mem_cons_self
  case assign targets value =>
    rw [tokens_assign]
    exact hP.chain (fun e he => target (List.mem_cons_of_mem value he)) (part List.mem_cons_self)
  case augAssign place op value =>
    rw [tokens_augAssign]
    exact hP.append (target List.mem_cons_self)
      (hP.plain (by cases op <;> rfl) (part (by simp [exprs])))
  case ifElse condition _ _ | whileLoop condition _ =>
    exact hP.headWords _ (part List.mem_cons_self)
  case forEach place iter _ =>
    rw [tokens_forEach]
    exact hP.append (hP.append (hP.plain rfl (target (by simp [exprs])))
      (hP.plain rfl (part List.mem_cons_self))) (hP.single rfl)
  case define name params _ isAsync =>
    rw [tokens_define]
    have hparams : Q (commaed (params.map Param.tokens)) :=
      hQ.commaed_map fun p hp => hQ.param fun e he => hin e (List.mem_filterMap.mpr ⟨p, hp, he⟩)
    have hdef : P (.word .def_ :: .name name :: (.sign .lparen
        :: commaed (params.map Param.tokens) ++ [.sign .rparen]) ++ [.sign .colon]) :=
      hP.plain rfl (hP.plain rfl (hP.append (hnest rfl rfl hparams) (hP.single rfl)))
    cases isAsync
    case false => simpa using hdef
    case true => simpa using hP.plain (t := .word .async_) rfl hdef
  case ret value =>
    rw [tokens_ret]
    exact hP.keyword _ fun e he => part (Option.mem_toList.mpr he)
  case raise value =>
    rw [tokens_raise]
    exact hP.keyword _ fun e he => part (Option.mem_toList.mpr he)
  case imports names =>
    rw [tokens_imports]
    exact hP.plain rfl (hP.aliases names)
  case importFrom path names =>
    rw [tokens_importFrom]
    exact hP.append (hP.plain rfl (hP.dotted path)) (hP.plain rfl (hP.aliases names))
  all_goals exact hP.single rfl

end

theorem balanced_lines (body : List Stmt) :
    ∀ l ∈ Stmt.blockLines 0 body, Balanced (tokensOf l.words) := by
  refine forall_lines (P := fun ws => Balanced (tokensOf ws)) (.plain rfl (.single rfl))
    fun s _ => .of_forall fun _ form => ⟨?_, fun test _ _ _ => ?_⟩
  · exact StmtForm.tokens_closed Balanced.rowwise Balanced.rowwise .brackets
      (fun e _ => e.balanced _) fun e _ k _ => e.balanced k
  · exact Balanced.rowwise.headWords _ (test.balanced _)

-- A statement with room for its brackets: what it puts in brackets itself has one level less.
def StmtForm.Roomy {σ : Type} (n : Nat) (form : StmtForm σ) : Prop :=
  (∀ e ∈ form.exprs, e.depth ≤ n + 1) ∧ ∀ e ∈ form.enclosed, e.brackets ≤ n

theorem StmtForm.enclosed_subset {σ : Type} (form : StmtForm σ) : form.enclosed ⊆ form.exprs := by
  cases form
  case define => exact fun _ h => h
  all_goals exact List.nil_subset _

theorem shallow_lines {body : List Stmt} {n : Nat}
    (h : ∀ s ∈ body, s.All fun _ form => form.Roomy n) :
    ∀ l ∈ Stmt.blockLines 0 body, Shallow (n + 1) (tokensOf l.words) := by
  refine forall_lines (P := fun ws => Shallow (n + 1) (tokensOf ws)) ?_
    fun s hs => (h s hs).imp fun _ form ⟨hdepth, hroom⟩ => ⟨?_, fun condition _ _ hform => ?_⟩
  · exact .plain rfl (.plain rfl .nil)
  · refine StmtForm.tokens_closed (Shallow.rowwise (n + 1)) (Shallow.rowwise n) (Shallow.nests n)
      (fun e he => ?_) fun e he k hk => ?_
    · have := hdepth e (form.enclosed_subset he)
      have := hroom e he
      exact e.shallow.2.mono (by omega)
    · exact (e.shallow.1 k (Nat.le_trans (Nat.le_trans hk (by decide)) e.atom_le_ownerStrength)).mono
        (hdepth e he)
  · have hc := hdepth condition (by simp [hform, StmtForm.exprs])
    exact (Shallow.rowwise _).headWords _ ((condition.shallow.1 _
      (Nat.le_trans (by decide) condition.atom_le_ownerStrength)).mono hc)

end NoteCell
