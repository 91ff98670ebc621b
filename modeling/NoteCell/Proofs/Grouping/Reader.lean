import NoteCell.Proofs.Printing.Tokens

/-!
Brackets that group. Read from left to right, tokens show which brackets stand around an operand, and
which of those are needed neither by a tuple nor by an integer alone.
-/
namespace NoteCell

-- What a token stands behind: something that an operand may follow, the bracket of a group in
-- particular, an integer right behind such a bracket, or any other end of an operand.
inductive Behind where
  | operator
  | bracket
  | number
  | operand
deriving DecidableEq

def Behind.awaits : Behind → Bool
  | operator | bracket => true
  | number | operand => false

-- Of each open bracket, the innermost first, whether it groups what has had no comma so far.
structure Stand where
  frames : List Bool
  behind : Behind

-- A token that an operand may follow and that leaves the brackets as they are.
def Token.joins : Token → Bool
  | .sign s => !s.opens && !s.closes && s != .comma
  | .word k => k != .true_ && k != .false_ && k != .none_
  | .newline | .indent | .dedent => true
  | _ => false

-- Operands that are a token, other than integers.
def Token.isLiteral : Token → Bool
  | .name _ | .float _ | .str _ | .word .true_ | .word .false_ | .word .none_ => true
  | _ => false

-- The innermost bracket holds a comma.
def settle : List Bool → List Bool
  | [] => []
  | _ :: fs => false :: fs

namespace Stand

def start : Stand := ⟨[], .operator⟩

def next (s : Stand) (t : Token) : Stand :=
  if t.joins then ⟨s.frames, .operator⟩ else
    match t with
    | .sign .lparen =>
      if s.behind.awaits then ⟨true :: s.frames, .bracket⟩ else ⟨false :: s.frames, .operator⟩
    | .sign .comma => ⟨settle s.frames, .operator⟩
    | .sign x => if x.opens then ⟨false :: s.frames, .operator⟩ else ⟨s.frames.tail, .operand⟩
    | .int _ => ⟨s.frames, if s.behind = .bracket then .number else .operand⟩
    | _ => ⟨s.frames, .operand⟩

-- Whether a token closes a group that is neither a tuple nor an integer alone.
def closesGroup (s : Stand) (t : Token) : Bool :=
  t = .sign .rparen && s.frames.head? = some true && s.behind = .operand

def after (s : Stand) (ts : List Token) : Stand := ts.foldl next s

-- How many such groups some tokens close.
def groups : Stand → List Token → Nat
  | _, [] => 0
  | s, t :: ts => (s.closesGroup t).toNat + (s.next t).groups ts

theorem after_append (s : Stand) (ts us : List Token) :
    s.after (ts ++ us) = (s.after ts).after us :=
  List.foldl_append

theorem groups_append (s : Stand) (ts us : List Token) :
    s.groups (ts ++ us) = s.groups ts + (s.after ts).groups us := by
  induction ts generalizing s with
  | nil => exact (Nat.zero_add _).symm
  | cons t ts ih => exact (congrArg _ (ih (s.next t))).trans (Nat.add_assoc ..).symm

-- Tokens that lead from one stand to another and close so many groups.
structure Leads (s : Stand) (ts : List Token) (n : Nat) (s' : Stand) : Prop where
  after : s.after ts = s'
  groups : s.groups ts = n

namespace Leads

variable {s s' s'' : Stand} {t : Token} {ts us : List Token} {n m : Nat}

theorem nil (s : Stand) : Leads s [] 0 s := ⟨rfl, rfl⟩

theorem append (h : Leads s ts n s') (h' : Leads s' us m s'') : Leads s (ts ++ us) (n + m) s'' :=
  ⟨by rw [after_append, h.after, h'.after], by rw [groups_append, h.groups, h.after, h'.groups]⟩

theorem cons (ht : s.closesGroup t = false) (h : Leads (s.next t) ts n s') : Leads s (t :: ts) n s' :=
  ⟨h.after, by rw [Stand.groups, ht, h.groups]; exact Nat.zero_add n⟩

theorem single (ht : s.closesGroup t = false) : Leads s [t] 0 (s.next t) := .cons ht (.nil _)

end Leads

/-! ### Single tokens -/

section

variable {s : Stand} {t : Token} {fs : List Bool} {b : Behind}

theorem next_joins (ht : t.joins) (s : Stand) : s.next t = ⟨s.frames, .operator⟩ := if_pos ht

theorem closesGroup_of_ne (ht : t ≠ .sign .rparen) (s : Stand) : s.closesGroup t = false := by
  simp [closesGroup, ht]

theorem closesGroup_joins (ht : t.joins) (s : Stand) : s.closesGroup t = false :=
  closesGroup_of_ne (by rintro rfl; cases ht) s

theorem leads_joins (ht : t.joins) {ts : List Token} {n : Nat} {s' : Stand}
    (h : Leads ⟨s.frames, .operator⟩ ts n s') : Leads s (t :: ts) n s' :=
  .cons (closesGroup_joins ht s) (next_joins ht s ▸ h)

theorem leads_allJoin {ts : List Token} (hts : ∀ t ∈ ts, t.joins) (hne : ts ≠ []) :
    Leads s ts 0 ⟨s.frames, .operator⟩ := by
  induction ts generalizing s
  case nil => exact absurd rfl hne
  case cons t ts ih =>
    obtain ⟨ht, hts⟩ := List.forall_mem_cons.mp hts
    refine leads_joins ht ?_
    cases ts with
    | nil => exact .nil _
    | cons u us => exact ih hts (List.cons_ne_nil u us)

theorem next_lparen {s : Stand} (hs : s.behind.awaits = false) :
    s.next (.sign .lparen) = ⟨false :: s.frames, .operator⟩ := by
  obtain ⟨fs, b⟩ := s
  cases b <;> first | rfl | cases hs

end
end Stand

/-! ### Operands -/

-- What stands in front of the token behind an operand.
def Behind.past (b : Behind) (lone : Bool) : Behind :=
  if lone && b = .bracket then .number else .operand

theorem Behind.awaits_past (b : Behind) (lone : Bool) : (b.past lone).awaits = false := by
  rw [past]
  split <;> rfl

open Stand

-- Tokens that are an operand wherever one is awaited, an integer alone perhaps.
def Operand (lone : Bool) (ts : List Token) (n : Nat) : Prop :=
  ∀ fs b, b.awaits → Leads ⟨fs, b⟩ ts n ⟨fs, b.past lone⟩

-- Tokens that stand between commas.
def Item (ts : List Token) (n : Nat) : Prop :=
  ∀ fs, Leads ⟨fs, .operator⟩ ts n ⟨fs, .operand⟩

-- Items with commas between them, in brackets that are no group.
def ItemRow (ts : List Token) (n : Nat) : Prop :=
  ∀ fs, settle fs = fs → ∃ b, Leads ⟨fs, .operator⟩ ts n ⟨fs, b⟩

section

variable {lone lone' : Bool} {ts us : List Token} {n m : Nat} {t : Token} {name : String}

theorem Item.row (h : Item ts n) : ItemRow ts n := fun _ _ => ⟨_, h _⟩

theorem ItemRow.nil : ItemRow [] 0 := fun _ _ => ⟨_, .nil _⟩

theorem Item.more (h : Item ts n) (hrest : ItemRow us m) :
    ItemRow (ts ++ .sign .comma :: us) (n + m) := by
  intro fs hfs
  obtain ⟨b, hrest⟩ := hrest fs hfs
  have hcomma : Stand.next ⟨fs, .operand⟩ (.sign .comma) = ⟨fs, .operator⟩ :=
    congrArg (Stand.mk · .operator) hfs
  exact ⟨b, (h fs).append (.cons rfl (hcomma ▸ hrest))⟩

-- A row in brackets that are no group.
theorem ItemRow.leads (h : ItemRow ts n) {s : Stand} {opening closing : Sign}
    (hs : s.next (.sign opening) = ⟨false :: s.frames, .operator⟩) (hopens : opening.opens)
    (hcloses : closing.closes) :
    Leads s (.sign opening :: (ts ++ [.sign closing])) n ⟨s.frames, .operand⟩ := by
  obtain ⟨b, hrow⟩ := h (false :: s.frames) rfl
  have hlast : Leads ⟨false :: s.frames, b⟩ [.sign closing] 0 ⟨s.frames, .operand⟩ := by
    cases closing <;> first | exact .single rfl | cases hcloses
  refine .cons (closesGroup_of_ne (by rintro ⟨⟩; cases hopens) s) ?_
  rw [hs]
  exact hrow.append hlast

theorem ItemRow.brackets (h : ItemRow ts n) {o c : Sign} (hopens : o.opens)
    (hne : o ≠ .lparen) (hcloses : c.closes) :
    Operand false (.sign o :: (ts ++ [.sign c])) n := fun fs b _ =>
  h.leads (by cases o <;> first | rfl | exact absurd rfl hne | cases hopens) hopens hcloses

namespace Operand

theorem literal (ht : t.isLiteral) : Operand false [t] 0 := fun _ b _ => by
  cases t
  case word k => cases k <;> first | exact .single rfl | cases ht
  all_goals first | exact .single rfl | cases ht

-- Strings side by side are one operand.
theorem strings (h : Operand false ts n) (rest : List String) :
    Operand false (ts ++ rest.map .str) n := by
  induction rest generalizing ts with
  | nil => rwa [List.map_nil, List.append_nil]
  | cons s rest ih =>
    rw [List.map_cons, List.append_cons]
    exact ih fun fs b hb => (h fs b hb).append (.single rfl)

theorem item (h : Operand lone ts n) : Item ts n := fun fs => by
  have h := h fs .operator rfl
  cases lone <;> exact h

theorem number (i : Int64) : Operand true [.int i] 0 := fun _ b _ => by
  cases b <;> exact .single rfl

-- Two operands with operators between them.
theorem joinedBy (h : Operand lone ts n) {ops : List Token} (hops : ∀ t ∈ ops, t.joins) (hne : ops ≠ [])
    (h' : Operand lone' us m) : Operand false (ts ++ (ops ++ us)) (n + m) := by
  intro fs b hb
  have hright := (leads_allJoin hops hne (s := ⟨fs, b.past lone⟩)).append (h'.item fs)
  rw [Nat.zero_add] at hright
  exact (h fs b hb).append hright

theorem joined (h : Operand lone ts n) (ht : t.joins) (h' : Operand lone' us m) :
    Operand false (ts ++ t :: us) (n + m) :=
  h.joinedBy (List.forall_mem_singleton.mpr ht) (List.cons_ne_nil t []) h'

theorem behind (ht : t.joins) (h : Operand lone ts n) : Operand false (t :: ts) n :=
  fun fs _ _ => leads_joins ht (h.item fs)

theorem member (h : Operand lone ts n) (name : String) :
    Operand false (ts ++ [.sign .dot, .name name]) n :=
  fun _ b hb => (h _ b hb).append (leads_joins rfl (.single rfl))

theorem call (h : Operand lone ts n) (hrow : ItemRow us m) :
    Operand false (ts ++ .sign .lparen :: (us ++ [.sign .rparen])) (n + m) := fun fs b hb =>
  (h fs b hb).append (hrow.leads (next_lparen (b.awaits_past lone)) rfl rfl)

theorem subscript (h : Operand lone ts n) (hindex : Item us m) :
    Operand false (ts ++ .sign .lbracket :: (us ++ [.sign .rbracket])) (n + m) := fun fs b hb =>
  (h fs b hb).append (hindex.row.leads rfl rfl rfl)

-- Brackets around an operand, an integer alone excepted.
theorem group (h : Operand lone ts n) :
    Operand false (.sign .lparen :: (ts ++ [.sign .rparen])) (n + if lone then 0 else 1) := by
  intro fs b hb
  have hopen : Stand.next ⟨fs, b⟩ (.sign .lparen) = ⟨true :: fs, .bracket⟩ := if_pos hb
  have hinner := h (true :: fs) .bracket rfl
  refine .cons rfl ?_
  rw [hopen]
  cases lone with
  | true => exact hinner.append (.single rfl)
  | false => exact hinner.append ⟨rfl, rfl⟩

theorem unit : Operand false [.sign .lparen, .sign .rparen] 0 := fun fs b hb => by
  have hopen : Stand.next ⟨fs, b⟩ (.sign .lparen) = ⟨true :: fs, .bracket⟩ := if_pos hb
  refine .cons rfl ?_
  rw [hopen]
  exact .single rfl

theorem tuple (h : Operand lone ts n) (hrest : ItemRow us m) :
    Operand false (.sign .lparen :: (ts ++ .sign .comma :: (us ++ [.sign .rparen]))) (n + m) := by
  intro fs b hb
  have hopen : Stand.next ⟨fs, b⟩ (.sign .lparen) = ⟨true :: fs, .bracket⟩ := if_pos hb
  obtain ⟨b', hrow⟩ := hrest (false :: fs) rfl
  have hclosing : Leads ⟨false :: fs, b'⟩ [.sign .rparen] 0 ⟨fs, .operand⟩ := .single rfl
  refine .cons rfl ?_
  rw [hopen]
  exact (h (true :: fs) .bracket rfl).append (.cons rfl (hrow.append hclosing))

end Operand

end
end NoteCell
