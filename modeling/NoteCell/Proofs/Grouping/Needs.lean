import NoteCell.Proofs.Grouping.Reader
import NoteCell.Proofs.Printing.Brackets
import NoteCell.Proofs.Printing.Segments
import NoteCell.Proofs.Tree.Shape

/-!
The groups that a tree needs. An expression that holds less strongly than its place asks for has to be
put in brackets, and the canonical tokens of a tree have no further ones.
-/
namespace NoteCell

open Strength Stand

/-! ### Expressions -/

def ExprForm.isNumber {α : Type} : ExprForm α → Bool
  | .int _ => true
  | _ => false

-- Forms that have to be grouped where the given strength is asked for. Tuples are put in brackets for
-- their commas, and integers for the point behind them.
def ExprForm.needsGroup {α : Type} (context : Nat) (form : ExprForm α) : Bool :=
  form.strength < context && form.strength != Strength.tuple && !form.isNumber

def Expr.needs (context : Nat) : Expr → Nat
  | node _ form =>
    (form.parts.attach.map fun ⟨p, _h⟩ => p.2.needs p.1).sum + (form.needsGroup context).toNat
termination_by e => sizeOf e
decreasing_by exact sizeOf_lt_of_mem (form.snd_parts (List.mem_map_of_mem _h))

def ExprForm.needs (form : ExprForm Expr) : Nat := (form.parts.map fun p => p.2.needs p.1).sum

theorem Expr.needs_node (context : Nat) (info : NodeInfo) (form : ExprForm Expr) :
    (node info form).needs context = form.needs + (form.needsGroup context).toNat := by
  rw [needs, ExprForm.needs]
  congr 2
  exact List.attach_map_val (f := fun p : Nat × Expr => p.2.needs p.1)

namespace ExprForm

theorem needs_list (items : List Expr) : (list items).needs = (items.map (Expr.needs test)).sum := by
  rw [needs, parts_list, List.map_map]
  rfl

theorem needs_tuple (items : List Expr) : (tuple items).needs = (items.map (Expr.needs test)).sum := by
  rw [needs, parts_tuple, List.map_map]
  rfl

theorem needs_dict (entries : List (Expr × Expr)) : (dict entries).needs
    = (entries.map fun entry => entry.1.needs test + entry.2.needs test).sum := by
  rw [needs, parts_dict]
  induction entries with
  | nil => rfl
  | cons entry entries ih => simp [← ih, Nat.add_assoc]

theorem needs_compare (left : Expr) (rest : List (CompareOp × Expr)) :
    (compare left rest).needs = left.needs sum + (rest.map fun p => p.2.needs sum).sum := by
  rw [needs, parts_compare, List.map_cons, List.sum_cons, List.map_map]
  rfl

theorem needs_conditional (condition body orelse : Expr) : (conditional condition body orelse).needs
    = body.needs Strength.or + condition.needs Strength.or + orelse.needs test :=
  (Nat.add_assoc ..).symm

theorem needs_call (func : Expr) (args : List Expr) (keywords : List (String × Expr)) :
    (call func args keywords).needs = func.needs atom
      + ((args.map (Expr.needs test)).sum + (keywords.map fun k => k.2.needs test).sum) := by
  rw [needs, parts_call, List.map_cons, List.sum_cons, List.map_append, List.sum_append, List.map_map,
    List.map_map]
  rfl

end ExprForm

theorem ExprForm.needsGroup_mono {k l : Nat} (h : k ≤ l) (form : ExprForm Expr) :
    (form.needsGroup k).toNat ≤ (form.needsGroup l).toNat := by
  unfold needsGroup
  by_cases hk : form.strength < k
  · have hl : form.strength < l := Nat.lt_of_lt_of_le hk h
    simp [hk, hl]
  · simp [hk]

theorem Expr.needs_mono {k l : Nat} (h : k ≤ l) (e : Expr) : e.needs k ≤ e.needs l := by
  obtain ⟨info, form⟩ := e
  rw [needs_node, needs_node]
  exact Nat.add_le_add_left (form.needsGroup_mono h) _

-- Brackets meet the needs of any place, and an integer alone has none.
theorem Expr.needs_le_group {e : Expr} {lone : Bool} (h : lone → e.form.isNumber) (k l : Nat) :
    e.needs k ≤ e.needs l + if lone then 0 else 1 := by
  obtain ⟨info, form⟩ := e
  rw [needs_node, needs_node]
  cases lone with
  | false =>
    have hk := Bool.toNat_le (form.needsGroup k)
    simp only [Bool.false_eq_true, if_false]
    omega
  | true =>
    have hnumber : form.isNumber = true := h rfl
    have hk : form.needsGroup k = false := by simp [ExprForm.needsGroup, hnumber]
    rw [hk]
    exact Nat.le_trans (Nat.le_add_right _ _) (Nat.le_add_right _ _)

/-! ### Canonical tokens -/

-- A form over parts that are operands wherever they stand between others.
structure ExprForm.Operands (form : ExprForm Expr) : Prop where
  regular : form.Regular
  parts : ∀ c ∈ form.children, ∀ k, test ≤ k → ∃ lone, Operand lone (c.tokens k) (c.needs k)

theorem itemRow_commaed {rows : List (List Token × Nat)} (h : ∀ r ∈ rows, Item r.1 r.2) :
    ItemRow (commaed (rows.map (·.1))) (rows.map (·.2)).sum := by
  induction rows with
  | nil => exact .nil
  | cons r rows ih =>
    obtain ⟨hr, hrows⟩ := List.forall_mem_cons.mp h
    cases rows with
    | nil => exact hr.row
    | cons r' rows => exact hr.more (ih hrows)

theorem itemRow_map {α : Type} {f : α → List Token} {g : α → Nat} {items : List α}
    (h : ∀ a ∈ items, Item (f a) (g a)) : ItemRow (commaed (items.map f)) (items.map g).sum := by
  have hrow := @itemRow_commaed (items.map fun a => (f a, g a)) (List.forall_mem_map.mpr h)
  rwa [List.map_map, List.map_map] at hrow

theorem CompareOp.joins_tokens (op : CompareOp) : (∀ t ∈ op.tokens, t.joins) ∧ op.tokens ≠ [] := by
  cases op <;> decide

theorem Operand.compared {lone : Bool} {ts : List Token} {n : Nat} (h : Operand lone ts n)
    {rest : List (CompareOp × Expr)} (hne : rest ≠ [])
    (hrest : ∀ p ∈ rest, ∃ lone, Operand lone (p.2.tokens sum) (p.2.needs sum)) :
    Operand false (ts ++ rest.flatMap comparisonTokens)
      (n + (rest.map fun p => p.2.needs sum).sum) := by
  induction rest generalizing lone ts n
  case nil => exact absurd rfl hne
  case cons p rest ih =>
    obtain ⟨⟨_, hp⟩, hrest⟩ := List.forall_mem_cons.mp hrest
    obtain ⟨hops, hops'⟩ := p.1.joins_tokens
    have hfirst := h.joinedBy hops hops' hp
    cases rest with
    | nil => simpa [comparisonTokens] using hfirst
    | cons p' rest =>
      have hall := ih hfirst (List.cons_ne_nil p' rest) hrest
      rw [List.flatMap_cons, List.map_cons, List.sum_cons, ← Nat.add_assoc, comparisonTokens,
        ← List.append_assoc]
      exact hall

namespace ExprForm

variable {form : ExprForm Expr}

theorem Operands.item (h : form.Operands) {c : Expr} (hc : c ∈ form.children) :
    Item (c.tokens test) (c.needs test) :=
  have ⟨_, hoperand⟩ := h.parts c hc test le_rfl
  hoperand.item

theorem Operands.entry {entries : List (Expr × Expr)} (h : (dict entries).Operands)
    {entry : Expr × Expr} (hentry : entry ∈ entries) :
    Item (entryTokens entry) (entry.1.needs test + entry.2.needs test) := by
  have hmem {c : Expr} (hc : c ∈ [entry.1, entry.2]) : c ∈ (dict entries).children :=
    List.mem_flatMap.mpr ⟨entry, hentry, hc⟩
  obtain ⟨_, hkey⟩ := h.parts entry.1 (hmem (by simp)) test le_rfl
  obtain ⟨_, hvalue⟩ := h.parts entry.2 (hmem (by simp)) test le_rfl
  exact (hkey.joined (t := .sign .colon) rfl hvalue).item

theorem item_keyword {keyword : String × Expr} {n : Nat} (h : Item (keyword.2.tokens test) n) :
    Item (keywordTokens keyword) n :=
  fun fs => .cons rfl (.cons rfl (h fs))

theorem Operands.operand (h : form.Operands) (hform : form.strength ≠ Strength.tuple) :
    Operand form.isNumber form.tokens form.needs := by
  have part {c : Expr} (hc : c ∈ form.children) {k : Nat} (hk : Nat.ble test k = true) :=
    h.parts c hc k (Nat.le_of_ble_eq_true hk)
  cases form
  case name | float | str | none => exact .literal rfl
  case bool b => cases b <;> exact .literal rfl
  case int n => exact .number n
  case list items =>
    have hrow := itemRow_map fun e (he : e ∈ items) => h.item (c := e) he
    rw [tokens_list, needs_list]
    exact hrow.brackets rfl (by decide) rfl
  case tuple items =>
    cases items with
    | nil => exact .unit
    | cons e es => exact absurd rfl hform
  case dict entries =>
    have hrow := itemRow_map fun e (he : e ∈ entries) => h.entry he
    rw [tokens_dict, needs_dict]
    exact hrow.brackets rfl (by decide) rfl
  case binary op left right =>
    obtain ⟨_, hleft⟩ := part (c := left) (by simp [children]) (k := op.operandStrengths.1)
      (by cases op <;> rfl)
    obtain ⟨_, hright⟩ := part (c := right) (by simp [children]) (k := op.operandStrengths.2)
      (by cases op <;> rfl)
    rw [tokens_binary]
    exact hleft.joined (by cases op <;> rfl) hright
  case unary op operand =>
    obtain ⟨_, hoperand⟩ := part (c := operand) (by simp [children]) (k := op.strength)
      (by cases op <;> rfl)
    rw [tokens_unary]
    exact hoperand.behind (by cases op <;> rfl)
  case logical op left right =>
    obtain ⟨_, hleft⟩ := part (c := left) (by simp [children]) (k := op.strength) (by cases op <;> rfl)
    obtain ⟨_, hright⟩ := part (c := right) (by simp [children]) (k := op.strength + 1)
      (by cases op <;> rfl)
    rw [tokens_logical]
    exact hleft.joined (by cases op <;> rfl) hright
  case compare left rest =>
    obtain ⟨_, hleft⟩ := part (c := left) (by simp [children]) (k := sum) rfl
    rw [tokens_compare, needs_compare]
    exact hleft.compared h.regular fun p hp =>
      part (List.mem_cons_of_mem left (List.mem_map_of_mem hp)) rfl
  case conditional condition body orelse =>
    obtain ⟨_, hbody⟩ := part (c := body) (by simp [children]) (k := Strength.or) rfl
    obtain ⟨_, hcondition⟩ := part (c := condition) (by simp [children]) (k := Strength.or) rfl
    obtain ⟨_, horelse⟩ := part (c := orelse) (by simp [children]) (k := test) rfl
    have hif := hbody.joined (t := .word .if_) rfl hcondition
    have helse := hif.joined (t := .word .else_) rfl horelse
    rw [tokens_conditional, needs_conditional]
    exact helse
  case call func args keywords =>
    obtain ⟨_, hfunc⟩ := part (c := func) (by simp [children]) (k := atom) rfl
    have hargs (e : Expr) (he : e ∈ args) := h.item (c := e) (by simp [children, he])
    have hkeywords (k : String × Expr) (hk : k ∈ keywords) := item_keyword
      (h.item (c := k.2) (List.mem_cons_of_mem _ (List.mem_append_right _ (List.mem_map_of_mem hk))))
    have hrow := @itemRow_commaed
      (args.map (fun e => (e.tokens test, e.needs test))
        ++ keywords.map fun k => (keywordTokens k, k.2.needs test))
      (List.forall_mem_append.mpr ⟨List.forall_mem_map.mpr hargs, List.forall_mem_map.mpr hkeywords⟩)
    simp only [List.map_append, List.map_map, List.sum_append] at hrow
    rw [tokens_call, needs_call]
    exact hfunc.call hrow
  case member value attr =>
    obtain ⟨_, hvalue⟩ := part (c := value) (by simp [children]) (k := value.ownerStrength)
      (Nat.ble_eq_true_of_le (Nat.le_trans (by decide) value.atom_le_ownerStrength))
    rw [tokens_member]
    exact hvalue.member attr
  case subscript value index =>
    obtain ⟨_, hvalue⟩ := part (c := value) (by simp [children]) (k := atom) rfl
    have hindex := h.item (c := index) (by simp [children])
    rw [tokens_subscript]
    exact hvalue.subscript hindex
  case await value =>
    obtain ⟨_, hvalue⟩ := part (c := value) (by simp [children]) (k := atom) rfl
    rw [tokens_await]
    exact hvalue.behind rfl

-- A tuple is a row of its items, of which the first has a comma behind it.
theorem Operands.row {items : List Expr} (h : (tuple items).Operands) (hne : items ≠ []) :
    ∃ lone ts us n m, (tuple items).tokens = ts ++ .sign .comma :: us
      ∧ (tuple items).needs = n + m ∧ Operand lone ts n ∧ ItemRow us m := by
  obtain ⟨e, es, rfl⟩ := List.exists_cons_of_ne_nil hne
  obtain ⟨lone, hfirst⟩ := h.parts e List.mem_cons_self test le_rfl
  have hrest := itemRow_map fun d (hd : d ∈ es) => h.item (List.mem_cons_of_mem e hd)
  refine ⟨lone, _, _, _, _, ?_, ?_, hfirst, hrest⟩
  · rw [tokens_tuple hne]
    cases es <;> rfl
  · rw [needs_tuple]
    rfl

end ExprForm

theorem ExprForm.needsGroup_of_le {α : Type} {form : ExprForm α} {k : Nat} (h : k ≤ form.strength) :
    form.needsGroup k = false := by
  simp [needsGroup, Nat.not_lt.mpr h]

theorem ExprForm.needsGroup_loosest {α : Type} (form : ExprForm α) :
    form.needsGroup Strength.tuple = false :=
  needsGroup_of_le (Nat.zero_le _)

-- A regular tree is an operand, with the groups that it needs.
theorem Expr.Regular.operand {e : Expr} (h : e.Regular) {k : Nat} (hk : test ≤ k) :
    ∃ lone, Operand lone (e.tokens k) (e.needs k) := by
  induction h generalizing k
  case node info form here below ih =>
    have hform : form.Operands := ⟨here, fun c hc k hk => ih c hc hk⟩
    rw [tokens_node, needs_node]
    by_cases htuple : form.strength = Strength.tuple
    case pos =>
      obtain ⟨e, es, rfl⟩ := ExprForm.eq_tuple_of_strength htuple
      obtain ⟨lone, ts, us, n, m, htokens, hneeds, hfirst, hrest⟩ := hform.row (List.cons_ne_nil e es)
      have hgroup : (ExprForm.tuple (e :: es)).needsGroup k = false := by
        simp [ExprForm.needsGroup, htuple]
      rw [if_pos (htuple ▸ hk), hgroup, htokens, hneeds, List.cons_append, List.append_assoc]
      exact ⟨false, hfirst.tuple hrest⟩
    case neg =>
      have hoperand := hform.operand htuple
      split
      case isTrue hlt =>
        have hgroup : form.needsGroup k = !form.isNumber := by
          simp [ExprForm.needsGroup, hlt, htuple]
        refine ⟨false, ?_⟩
        rw [hgroup]
        cases hnumber : form.isNumber <;> (rw [hnumber] at hoperand; exact hoperand.group)
      case isFalse hlt =>
        rw [ExprForm.needsGroup_of_le (Nat.not_lt.mp hlt)]
        exact ⟨_, hoperand⟩

theorem Expr.Regular.operands {e : Expr} (h : e.Regular) : e.form.Operands := by
  cases h
  case node info form here below => exact ⟨here, fun c hc _ hk => Regular.operand (below c hc) hk⟩

-- An integer needs no group of its own in front of a point.
theorem Expr.needs_owner (e : Expr) : e.needs e.ownerStrength = e.needs atom := by
  obtain ⟨info, form⟩ := e
  cases form
  case int => simp [needs_node, ExprForm.needsGroup, ExprForm.isNumber]
  all_goals rfl

theorem Expr.Regular.itemRow {e : Expr} (h : e.Regular) :
    ItemRow (e.tokens Strength.tuple) (e.needs Strength.tuple) := by
  have hform : e.form.Operands := h.operands
  obtain ⟨info, form⟩ := e
  rw [tokens_loosest, needs_node, ExprForm.needsGroup_loosest]
  by_cases htuple : form.strength = Strength.tuple
  case pos =>
    obtain ⟨e, es, rfl⟩ := ExprForm.eq_tuple_of_strength htuple
    obtain ⟨lone, ts, us, n, m, htokens, hneeds, hfirst, hrest⟩ := hform.row (List.cons_ne_nil e es)
    rw [htokens, hneeds]
    exact hfirst.item.more hrest
  case neg => exact (hform.operand htuple).item.row

theorem Expr.Regular.item {e : Expr} (h : e.Regular) : Item (e.tokens test) (e.needs test) :=
  have ⟨_, hoperand⟩ := h.operand le_rfl
  hoperand.item

/-! ### Statements -/

def StmtForm.needs (form : StmtForm Stmt) : Nat := (form.parts.map fun p => p.2.needs p.1).sum

def Param.needs (p : Param) : Nat := (p.default?.map (Expr.needs test)).getD 0

def Stmt.needs : Stmt → Nat
  | node _ form => form.needs + (form.stmts.attach.map fun ⟨s, _h⟩ => needs s).sum
termination_by s => sizeOf s
decreasing_by exact sizeOf_lt_of_mem _h

def Stmt.rowNeeds (ss : List Stmt) : Nat := (ss.map Stmt.needs).sum

theorem Stmt.needs_node (info : NodeInfo) (form : StmtForm Stmt) :
    (node info form).needs = form.needs + rowNeeds form.stmts := by
  rw [needs, rowNeeds]
  congr 2
  exact List.attach_map_val

-- Tokens from the start of a line that close the brackets they open.
def IsLine (ts : List Token) (n : Nat) : Prop := ∃ b, Stand.start.Leads ts n ⟨[], b⟩

namespace IsLine

variable {ts us : List Token} {n m : Nat} {t : Token}

theorem nil : IsLine [] 0 := ⟨_, .nil _⟩

theorem of_row (h : ItemRow ts n) : IsLine ts n := h [] rfl

theorem behind (ht : t.joins) (h : IsLine ts n) : IsLine (t :: ts) n :=
  have ⟨b, hts⟩ := h
  ⟨b, leads_joins ht hts⟩

theorem joined (h : IsLine ts n) (ht : t.joins) (h' : IsLine us m) : IsLine (ts ++ t :: us) (n + m) := by
  obtain ⟨b, hts⟩ := h
  obtain ⟨b', hus⟩ := h'
  exact ⟨b', hts.append (leads_joins ht hus)⟩

theorem before (h : IsLine ts n) (ht : t.joins) : IsLine (ts ++ [t]) n := h.joined ht .nil

-- Tokens without brackets close no group.
theorem leads_plain (h : ∀ t ∈ ts, t.isPlain) (b : Behind) :
    ∃ b', Stand.Leads ⟨[], b⟩ ts 0 ⟨[], b'⟩ := by
  induction ts generalizing b with
  | nil => exact ⟨b, .nil _⟩
  | cons t ts ih =>
    obtain ⟨ht, hts⟩ := List.forall_mem_cons.mp h
    obtain ⟨b', hnext⟩ : ∃ b', Stand.next ⟨[], b⟩ t = ⟨[], b'⟩ := by
      cases t
      case sign s => cases s <;> first | exact ⟨_, rfl⟩ | cases ht
      case word k => cases k <;> exact ⟨_, rfl⟩
      all_goals exact ⟨_, rfl⟩
    obtain ⟨b'', hrest⟩ := ih hts b'
    exact ⟨b'', .cons (closesGroup_of_ne (by rintro rfl; cases ht) _) (hnext ▸ hrest)⟩

theorem of_plain (h : ∀ t ∈ ts, t.isPlain) : IsLine ts 0 := leads_plain h .operator

end IsLine

theorem rowwise_plain : Rowwise fun ts => ∀ t ∈ ts, t.isPlain :=
  ⟨List.forall_mem_nil _, fun ht hts => List.forall_mem_cons.mpr ⟨ht, hts⟩,
    fun hts hus => List.forall_mem_append.mpr ⟨hts, hus⟩⟩

theorem Expr.Regular.line {e : Expr} (h : e.Regular) : IsLine (e.tokens test) (e.needs test) :=
  .of_row h.item.row

namespace StmtForm

variable {k : Keyword}

theorem isLine_keyword (hk : (Token.word k).joins) {value : Option Expr}
    (h : ∀ e ∈ value, e.Regular) :
    IsLine (.word k :: (value.map (Expr.tokens test)).getD [])
      ((value.toList.map (Expr.needs test)).sum) := by
  cases value with
  | none => exact .behind hk .nil
  | some e => exact .behind hk (h e rfl).line

theorem isLine_head (hk : (Token.word k).joins) {condition : Expr} (h : condition.Regular) :
    IsLine (tokensOf (headWords k condition)) (condition.needs test) := by
  rw [tokensOf_headWords]
  exact (h.line.behind hk).before rfl

theorem isLine_chain {targets : List Expr} {value : Expr} (htargets : ∀ t ∈ targets, t.Regular)
    (hvalue : value.Regular) : IsLine (chainTokens value targets)
      ((targets.map (Expr.needs Strength.tuple)).sum + value.needs test) := by
  induction targets with
  | nil => exact (Nat.zero_add _).symm ▸ hvalue.line
  | cons target targets ih =>
    obtain ⟨htarget, htargets⟩ := List.forall_mem_cons.mp htargets
    rw [List.map_cons, List.sum_cons, Nat.add_assoc]
    exact (IsLine.of_row htarget.itemRow).joined rfl (ih htargets)

theorem needs_assign (targets : List Expr) (value : Expr) : needs (.assign targets value)
    = (targets.map (Expr.needs Strength.tuple)).sum + value.needs test := by
  rw [needs, parts_assign, List.map_append, List.sum_append, List.map_map]
  rfl

theorem needs_define (name : String) (params : List Param) (body : List Stmt) (isAsync : Bool) :
    needs (.define name params body isAsync) = (params.map Param.needs).sum := by
  have hparam (p : Param) : ((p.default?.toList.map fun e => (test, e)).map
      fun q => q.2.needs q.1).sum = p.needs := by
    rw [Param.needs]
    cases p.default? <;> rfl
  rw [needs, parts_define, List.map_flatMap, List.flatMap_def, List.sum_flatten, List.map_map]
  exact congrArg List.sum (List.map_congr_left fun p _ => hparam p)

-- A name and its parameters.
theorem leads_signature {ts : List Token} {n : Nat} (h : ItemRow ts n) (name : String) (b : Behind) :
    Leads ⟨[], b⟩ (.word .def_ :: .name name :: .sign .lparen :: ts ++ [.sign .rparen, .sign .colon]) n
      .start := by
  have hparams := @ItemRow.leads _ _ h ⟨[], .operand⟩ .lparen .rparen (next_lparen rfl) rfl rfl
  have hall := hparams.append (leads_joins (t := .sign .colon) rfl (.nil _))
  simp only [List.cons_append, List.append_assoc, List.nil_append] at hall ⊢
  exact leads_joins rfl (.cons rfl hall)

theorem isLine_define {name : String} {params : List Param} {body : List Stmt} {isAsync : Bool}
    (h : ∀ p ∈ params, ∀ e ∈ p.default?, e.Regular) :
    IsLine (tokens (.define name params body isAsync)) (needs (.define name params body isAsync)) := by
  have hparam : ∀ p ∈ params, Item p.tokens p.needs := by
    intro p hp fs
    have hdefault := h p hp
    rw [Param.tokens_eq, Param.needs]
    cases hd : p.default? with
    | none => exact .cons rfl (.nil _)
    | some e => exact .cons rfl (.cons rfl ((hdefault e hd).item fs))
  have hrow := itemRow_map hparam
  rw [tokens_define, needs_define]
  cases isAsync with
  | false => exact ⟨.operator, leads_signature hrow name .operator⟩
  | true => exact ⟨.operator, leads_joins rfl (leads_signature hrow name .operator)⟩

-- The first line of a statement is read with the groups that its parts need.
theorem isLine_tokens {form : StmtForm Stmt} (h : ∀ e ∈ form.exprs, e.Regular) :
    IsLine form.tokens form.needs := by
  cases form
  case expr e => exact (h e List.mem_cons_self).line
  case assign targets value =>
    have hchain := isLine_chain (fun t ht => h t (List.mem_cons_of_mem value ht)) (h value List.mem_cons_self)
    rw [tokens_assign, needs_assign]
    exact hchain
  case augAssign target op value =>
    have htarget := IsLine.of_row (h target (by simp [exprs])).itemRow
    rw [tokens_augAssign]
    exact htarget.joined (by cases op <;> rfl) (h value (by simp [exprs])).line
  case ifElse condition _ _ => exact isLine_head rfl (h condition List.mem_cons_self)
  case whileLoop condition _ => exact isLine_head rfl (h condition List.mem_cons_self)
  case forEach target iter _ =>
    have htarget := IsLine.of_row (h target (by simp [exprs])).itemRow
    have hiter := (h iter (by simp [exprs])).line
    rw [tokens_forEach]
    exact ((htarget.behind rfl).joined rfl hiter).before rfl
  case define name params _ isAsync =>
    exact isLine_define fun p hp e he => h e (List.mem_filterMap.mpr ⟨p, hp, he⟩)
  case ret value =>
    have hvalue : ∀ e ∈ value, e.Regular := fun e he => h e (Option.mem_toList.mpr he)
    rw [tokens_ret]
    cases value <;> exact isLine_keyword rfl hvalue
  case raise exc =>
    have hexc : ∀ e ∈ exc, e.Regular := fun e he => h e (Option.mem_toList.mpr he)
    rw [tokens_raise]
    cases exc <;> exact isLine_keyword rfl hexc
  case imports names =>
    rw [tokens_imports]
    exact .of_plain (rowwise_plain.plain rfl (rowwise_plain.aliases names))
  case importFrom path names =>
    rw [tokens_importFrom]
    exact .of_plain (rowwise_plain.append (rowwise_plain.plain rfl (rowwise_plain.dotted path))
      (rowwise_plain.plain rfl (rowwise_plain.aliases names)))
  all_goals exact .of_plain (by decide)

end StmtForm

/-! ### Statements one behind the other -/

-- Tokens of whole lines.
def AreLines (ts : List Token) (n : Nat) : Prop := Stand.start.Leads ts n .start

namespace AreLines

variable {ts us : List Token} {n m : Nat}

theorem append (h : AreLines ts n) (h' : AreLines us m) : AreLines (ts ++ us) (n + m) :=
  Leads.append h h'

theorem block (h : AreLines ts n) (b : Behind) : Leads ⟨[], b⟩ (blockTokens ts) n .start := by
  have hbody := Leads.append h (leads_joins (t := .dedent) rfl (.nil _))
  exact leads_joins rfl (leads_joins rfl hbody)

end AreLines

theorem IsLine.append {ts us : List Token} {n m : Nat} (h : IsLine ts n)
    (h' : ∀ b, Leads ⟨[], b⟩ us m .start) : AreLines (ts ++ us) (n + m) :=
  have ⟨b, hts⟩ := h
  hts.append (h' b)

theorem areLines_rowTokens {body : List Stmt} (h : ∀ s ∈ body, AreLines s.tokens s.needs) :
    AreLines (Stmt.rowTokens body) (Stmt.rowNeeds body) := by
  induction body with
  | nil => exact .nil _
  | cons s body ih =>
    obtain ⟨hs, hbody⟩ := List.forall_mem_cons.mp h
    rw [Stmt.rowTokens]
    exact hs.append (ih hbody)

-- What a form puts behind its first line.
def StmtForm.EndsLines (form : StmtForm Stmt) : Prop :=
  ∀ b, Leads ⟨[], b⟩ form.restTokens (Stmt.rowNeeds form.stmts) .start

theorem areLines_elseTokens {orelse : List Stmt} (h : ∀ s ∈ orelse, AreLines s.tokens s.needs)
    (hregular : ∀ s ∈ orelse, s.Regular) (hrest : ∀ s ∈ orelse, s.form.EndsLines) :
    AreLines (Stmt.elseTokens orelse) (Stmt.rowNeeds orelse) := by
  obtain ⟨rfl, -⟩ | ⟨info, test, body, orelse', rfl, -, htokens⟩ | ⟨hsome, -, htokens⟩ :=
    Stmt.elseLines_eq orelse 0
  · exact .nil _
  · have hcondition : test.Regular :=
      (hregular _ List.mem_cons_self).root.2 test (by simp [StmtForm.exprs])
    have hhead := StmtForm.isLine_head (k := .elif_) rfl hcondition
    have hneeds : Stmt.rowNeeds [.node info (.ifElse test body orelse')]
        = test.needs Strength.test + Stmt.rowNeeds (StmtForm.ifElse test body orelse').stmts := by
      rw [Stmt.rowNeeds, List.map_singleton, List.sum_singleton, Stmt.needs_node]
      rfl
    rw [htokens, hneeds]
    exact hhead.append (hrest _ List.mem_cons_self)
  · rw [htokens]
    exact leads_joins rfl (leads_joins rfl ((areLines_rowTokens h).block .operator))

theorem Stmt.Regular.areLines {s : Stmt} (h : s.Regular) :
    AreLines s.tokens s.needs ∧ s.form.EndsLines := by
  induction h
  case node info form here below ih =>
    have hrest : form.EndsLines := by
      cases form
      case ifElse test body orelse =>
        have hbody := @areLines_rowTokens body fun s hs => (ih s (List.mem_append_left _ hs)).1
        have horelse := @areLines_elseTokens orelse
          (fun s hs => (ih s (List.mem_append_right _ hs)).1)
          (fun s hs => below s (List.mem_append_right _ hs))
          fun s hs => (ih s (List.mem_append_right _ hs)).2
        intro b
        have hneeds : Stmt.rowNeeds (StmtForm.ifElse test body orelse).stmts
            = Stmt.rowNeeds body + Stmt.rowNeeds orelse := by
          simp [Stmt.rowNeeds, StmtForm.stmts]
        rw [hneeds]
        exact (hbody.block b).append horelse
      case whileLoop | forEach | define =>
        exact (areLines_rowTokens fun s hs => (ih s hs).1).block
      all_goals exact fun b => leads_joins rfl (.nil _)
    refine ⟨?_, hrest⟩
    rw [tokens, needs_node]
    exact (StmtForm.isLine_tokens here.2).append hrest

theorem areLines_body {body : List Stmt} (h : ∀ s ∈ body, s.Regular) :
    AreLines (Stmt.rowTokens body) (Stmt.rowNeeds body) :=
  areLines_rowTokens fun s hs => (h s hs).areLines.1

end NoteCell
