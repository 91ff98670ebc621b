import NoteCell.Proofs.Grammar.Sites
import NoteCell.Proofs.Grouping.Needs

/-!
The fewest groups. Whatever tokens a tree is derived from, they have the groups at least that the tree
needs.
-/
namespace NoteCell.Grammar

open Strength Stand

/-! ### Expressions -/

-- What a place for a level asks for.
def Level.context : Level → Nat
  | atom => Strength.atom
  | l => l.strength

-- What is derived from a symbol needs so many groups.
def Symbol.needs : (s : Symbol) → s.Value → Nat
  | level _, e => e.needs test
  | comparisons, rest => (rest.map fun p => p.2.needs sum).sum
  | argument, a => a.value.needs test
  | entry, p => p.1.needs test + p.2.needs test
  | parameter, p => p.needs
  | comma item, items => (items.map item.needs).sum

-- Symbols that stand between commas.
def Symbol.isItem : Symbol → Bool
  | level _ | argument | entry | parameter => true
  | comparisons | comma _ => false

-- Tokens of a symbol that have the groups at least that it needs.
def Symbol.Covers : (s : Symbol) → List Token → s.Value → Prop
  | level l, ts, e =>
    ∃ lone n, Operand lone ts n ∧ e.needs l.context ≤ n ∧ (lone → e.form.isNumber)
  | comparisons, ts, rest =>
    ∃ n, (∀ us m, Operand false us m → Operand false (us ++ ts) (m + n))
      ∧ comparisons.needs rest ≤ n
  | argument, ts, a => ∃ n, Item ts n ∧ argument.needs a ≤ n
  | entry, ts, p => ∃ n, Item ts n ∧ entry.needs p ≤ n
  | parameter, ts, p => ∃ n, Item ts n ∧ parameter.needs p ≤ n
  | comma item, ts, items => item.isItem → ∃ n, ItemRow ts n ∧ (comma item).needs items ≤ n

theorem Level.test_le_context (l : Level) : test ≤ l.context := by
  cases l
  case family f => cases f <;> exact Nat.le_of_ble_eq_true rfl
  all_goals exact Nat.le_of_ble_eq_true rfl

namespace Symbol.Covers

variable {l l' : Level} {ts : List Token} {e : Expr} {n : Nat} {form : ExprForm Expr}
  {location : Location}

theorem loosen (h : (level l).Covers ts e) (hl : l'.context ≤ l.context) : (level l').Covers ts e :=
  have ⟨lone, n, hts, hn, hlone⟩ := h
  ⟨lone, n, hts, Nat.le_trans (e.needs_mono hl) hn, hlone⟩

theorem node (h : Operand false ts n) (hneeds : form.needs ≤ n)
    (hform : form.needsGroup l.context = false) : (level l).Covers ts (.build form location) := by
  refine ⟨false, n, h, ?_, nofun⟩
  rw [Expr.build, Expr.needs_node, hform]
  exact hneeds

theorem item (s : Symbol) (hs : s.isItem) {ts : List Token} {v : s.Value} (h : s.Covers ts v) :
    ∃ n, Item ts n ∧ s.needs v ≤ n := by
  cases s
  case level l =>
    obtain ⟨lone, n, hts, hn, -⟩ := h
    exact ⟨n, hts.item, Nat.le_trans (Expr.needs_mono l.test_le_context v) hn⟩
  case argument | entry | parameter => exact h
  case comparisons | comma => cases hs

end Symbol.Covers

theorem sum_of_splitArguments (f : Expr → Nat) {args args' : List Expr}
    {keywords keywords' : List (String × Expr)} {given : List Argument}
    (h : splitArguments args keywords given = .ok (args', keywords')) :
    (args'.map f).sum + (keywords'.map fun k => f k.2).sum
      = (args.map f).sum + (keywords.map fun k => f k.2).sum + (given.map fun a => f a.value).sum := by
  induction given generalizing args keywords
  case nil =>
    cases h
    simp
  case cons a given ih =>
    cases a with
    | positional value =>
      rw [splitArguments] at h
      split at h
      case isTrue =>
        rw [ih h]
        simp only [List.map_append, List.map_cons, List.map_nil, List.sum_append, List.sum_cons,
          List.sum_nil, Argument.value]
        omega
      case isFalse => cases h
    | keyword name value =>
      rw [splitArguments] at h
      split at h
      case isTrue => cases h
      case isFalse =>
        rw [ih h]
        simp only [List.map_append, List.map_cons, List.map_nil, List.sum_append, List.sum_cons,
          List.sum_nil, Argument.value]
        omega

theorem of_joint? {f : Family} {t : Token} {joint : Joint} (h : f.joint? t = some joint)
    (left right : Expr) : t.joins ∧ f.strength ≤ (joint.form left right).strength
      ∧ (joint.form left right).needs = left.needs f.strength + right.needs (operand f).context := by
  unfold Family.joint? at h
  split at h <;> cases h <;> exact ⟨rfl, le_rfl, rfl⟩

theorem Comparator.joins_words (op : Comparator) : (∀ t ∈ kinds op.words, t.joins) ∧ kinds op.words ≠ [] := by
  have h : kinds op.words = op.op.tokens := op.spelled
  rw [h]
  exact op.op.joins_tokens

-- The tokens of a derivation have the groups at least that its tree needs.
theorem Derivation.covers {s : Symbol} (d : Derivation s) {v : s.Value} (hact : d.act = .ok v) :
    s.Covers (kinds d.tokens) v := by
  induction d
  case conditional hbody htest horelse =>
    obtain ⟨_, hb, hmake⟩ := of_bind_eq_ok hact
    obtain ⟨_, ht, hmake⟩ := of_bind_eq_ok hmake
    obtain ⟨_, ho, hmake⟩ := of_bind_eq_ok hmake
    obtain ⟨rfl, -⟩ := of_makeExpr_eq_ok hmake
    obtain ⟨_, n, hbody, hn, -⟩ := hbody hb
    obtain ⟨_, m, htest, hm, -⟩ := htest ht
    obtain ⟨_, k, horelse, hk, -⟩ := horelse ho
    have htokens := (hbody.joined (t := .word .if_) rfl htest).joined (t := .word .else_) rfl horelse
    refine .node (by simpa [word] using htokens) ?_ rfl
    rw [ExprForm.needs_conditional]
    exact Nat.add_le_add (Nat.add_le_add hn hm) hk
  case joined f _ link _ hleft hright =>
    obtain ⟨left, hl, hmake⟩ := of_bind_eq_ok hact
    obtain ⟨right, hr, hmake⟩ := of_bind_eq_ok hmake
    obtain ⟨rfl, -⟩ := of_makeExpr_eq_ok hmake
    obtain ⟨_, n, hleft, hn, -⟩ := hleft hl
    obtain ⟨_, m, hright, hm, -⟩ := hright hr
    obtain ⟨hlink, hstrength, hneeds⟩ := of_joint? link.joint_eq left right
    have htokens := hleft.joined hlink hright
    refine .node (by simpa using htokens) ?_ (ExprForm.needsGroup_of_le hstrength)
    rw [hneeds]
    exact Nat.add_le_add hn hm
  case compared op _ _ hleft hright hrest =>
    obtain ⟨_, hl, hmake⟩ := of_bind_eq_ok hact
    obtain ⟨_, hr, hmake⟩ := of_bind_eq_ok hmake
    obtain ⟨_, hs, hmake⟩ := of_bind_eq_ok hmake
    obtain ⟨rfl, -⟩ := of_makeExpr_eq_ok hmake
    obtain ⟨_, n, hleft, hn, -⟩ := hleft hl
    obtain ⟨_, m, hright, hm, -⟩ := hright hr
    obtain ⟨k, hrest, hk⟩ := hrest hs
    obtain ⟨hjoins, hne⟩ := op.joins_words
    have htokens := hrest _ _ (hleft.joinedBy hjoins hne hright)
    refine .node (by simpa using htokens) ?_ rfl
    rw [ExprForm.needs_compare, List.map_cons, List.sum_cons, ← Nat.add_assoc]
    exact Nat.add_le_add (Nat.add_le_add hn hm) hk
  case comparison op _ _ hright hrest =>
    obtain ⟨_, hr, h⟩ := of_bind_eq_ok hact
    obtain ⟨_, hs, h⟩ := of_bind_eq_ok h
    cases h
    obtain ⟨_, n, hright, hn, -⟩ := hright hr
    obtain ⟨m, hrest, hm⟩ := hrest hs
    obtain ⟨hjoins, hne⟩ := op.joins_words
    refine ⟨n + m, fun us k hus => ?_, Nat.add_le_add hn hm⟩
    have htokens := hrest _ _ (hus.joinedBy hjoins hne hright)
    simpa [Nat.add_assoc] using htokens
  case not h | minus h | plus h | await h =>
    obtain ⟨_, he, hmake⟩ := of_bind_eq_ok hact
    obtain ⟨rfl, -⟩ := of_makeExpr_eq_ok hmake
    obtain ⟨_, n, hts, hn, -⟩ := h he
    exact .node (hts.behind rfl) hn rfl
  case power hbase hexponent =>
    obtain ⟨_, hb, hmake⟩ := of_bind_eq_ok hact
    obtain ⟨_, he, hmake⟩ := of_bind_eq_ok hmake
    obtain ⟨rfl, -⟩ := of_makeExpr_eq_ok hmake
    obtain ⟨_, n, hbase, hn, -⟩ := hbase hb
    obtain ⟨_, m, hexponent, hm, -⟩ := hexponent he
    have htokens := hbase.joined (t := .sign .doubleStar) rfl hexponent
    exact .node (by simpa [sign] using htokens) (Nat.add_le_add hn hm) rfl
  case member attr h =>
    obtain ⟨value, hv, hmake⟩ := of_bind_eq_ok hact
    obtain ⟨rfl, -⟩ := of_makeExpr_eq_ok hmake
    obtain ⟨_, n, hvalue, hn, -⟩ := h hv
    refine .node (by simpa [sign, Name.token] using hvalue.member attr.text) ?_ rfl
    exact (value.needs_owner).trans_le hn
  case call hfunc hargs =>
    obtain ⟨func, hf, hmake⟩ := of_bind_eq_ok hact
    obtain ⟨given, ha, hmake⟩ := of_bind_eq_ok hmake
    obtain ⟨⟨args, keywords⟩, hsplit, hmake⟩ := of_bind_eq_ok hmake
    obtain ⟨rfl, -⟩ := of_makeExpr_eq_ok hmake
    obtain ⟨_, n, hfunc, hn, -⟩ := hfunc hf
    obtain ⟨m, hargs, hm⟩ := hargs ha rfl
    refine .node (by simpa [sign] using hfunc.call hargs) ?_ rfl
    have hsum := sum_of_splitArguments (Expr.needs test) hsplit
    rw [List.map_nil, List.map_nil, List.sum_nil, Nat.zero_add, Nat.zero_add] at hsum
    rw [ExprForm.needs_call, hsum]
    exact Nat.add_le_add hn hm
  case subscript hvalue hindex =>
    obtain ⟨_, hv, hmake⟩ := of_bind_eq_ok hact
    obtain ⟨_, hi, hmake⟩ := of_bind_eq_ok hmake
    obtain ⟨rfl, -⟩ := of_makeExpr_eq_ok hmake
    obtain ⟨_, n, hvalue, hn, -⟩ := hvalue hv
    obtain ⟨_, m, hindex, hm, -⟩ := hindex hi
    exact .node (by simpa [sign] using hvalue.subscript hindex.item) (Nat.add_le_add hn hm) rfl
  case positional h =>
    obtain ⟨_, he, h'⟩ := of_bind_eq_ok hact
    cases h'
    obtain ⟨_, n, hvalue, hn, -⟩ := h he
    exact ⟨n, hvalue.item, hn⟩
  case keyword htarget hvalue =>
    obtain ⟨_, ht, h⟩ := of_bind_eq_ok hact
    obtain ⟨_, hv, h⟩ := of_bind_eq_ok h
    obtain ⟨_, n, htarget, hn, -⟩ := htarget ht
    obtain ⟨_, m, hvalue, hm, -⟩ := hvalue hv
    have htokens := htarget.joined (t := .sign .assign) rfl hvalue
    refine ⟨n + m, by simpa [sign] using htokens.item, ?_⟩
    rw [Symbol.needs, value_of_makeKeyword h]
    exact Nat.le_trans hm (Nat.le_add_left m n)
  case enclosed h =>
    obtain ⟨lone, n, hts, hn, hlone⟩ := h hact
    refine ⟨false, _, by simpa [sign] using hts.group, ?_, nofun⟩
    exact Nat.le_trans (Expr.needs_le_group hlone _ _) (Nat.add_le_add_right hn _)
  case tuple hfirst hrest =>
    obtain ⟨_, hf, hmake⟩ := of_bind_eq_ok hact
    obtain ⟨_, hr, hmake⟩ := of_bind_eq_ok hmake
    obtain ⟨rfl, -⟩ := of_makeExpr_eq_ok hmake
    obtain ⟨_, n, hfirst, hn, -⟩ := hfirst hf
    obtain ⟨m, hrest, hm⟩ := hrest hr rfl
    refine .node (by simpa [sign] using hfirst.tuple hrest) ?_ rfl
    rw [ExprForm.needs_tuple, List.map_cons, List.sum_cons]
    exact Nat.add_le_add hn hm
  case list h =>
    obtain ⟨_, hi, hmake⟩ := of_bind_eq_ok hact
    obtain ⟨rfl, -⟩ := of_makeExpr_eq_ok hmake
    obtain ⟨n, hitems, hn⟩ := h hi rfl
    have htokens := hitems.brackets (o := .lbracket) (c := .rbracket) rfl (by decide) rfl
    refine .node (by simpa [sign] using htokens) ?_ rfl
    exact (ExprForm.needs_list _).trans_le hn
  case dict h =>
    obtain ⟨_, he, hmake⟩ := of_bind_eq_ok hact
    obtain ⟨rfl, -⟩ := of_makeExpr_eq_ok hmake
    obtain ⟨n, hentries, hn⟩ := h he rfl
    have htokens := hentries.brackets (o := .lbrace) (c := .rbrace) rfl (by decide) rfl
    refine .node (by simpa [sign] using htokens) ?_ rfl
    exact (ExprForm.needs_dict _).trans_le hn
  case entry hkey hvalue =>
    obtain ⟨_, hk, h⟩ := of_bind_eq_ok hact
    obtain ⟨_, hv, h⟩ := of_bind_eq_ok h
    cases h
    obtain ⟨_, n, hkey, hn, -⟩ := hkey hk
    obtain ⟨_, m, hvalue, hm, -⟩ := hvalue hv
    have htokens := hkey.joined (t := .sign .colon) rfl hvalue
    exact ⟨n + m, by simpa [sign] using htokens.item, Nat.add_le_add hn hm⟩
  case optional h =>
    obtain ⟨_, hd, h'⟩ := of_bind_eq_ok hact
    cases h'
    obtain ⟨_, n, hdefault, hn, -⟩ := h hd
    exact ⟨n, fun fs => .cons rfl (.cons rfl (hdefault.item fs)), hn⟩
  case lastItem item _ h =>
    obtain ⟨_, he, h'⟩ := of_bind_eq_ok hact
    cases h'
    intro hitem
    obtain ⟨n, hts, hn⟩ := Symbol.Covers.item item hitem (h he)
    exact ⟨n, hts.row, by simpa [Symbol.needs] using hn⟩
  case item item _ _ _ hfirst hrest =>
    obtain ⟨_, he, h⟩ := of_bind_eq_ok hact
    obtain ⟨_, hr, h⟩ := of_bind_eq_ok h
    cases h
    intro hitem
    obtain ⟨n, hts, hn⟩ := Symbol.Covers.item item hitem (hfirst he)
    obtain ⟨m, hrest, hm⟩ := hrest hr hitem
    exact ⟨n + m, by simpa [sign] using hts.more hrest, Nat.add_le_add hn hm⟩
  case name | float | true_ | false_ | none_ =>
    obtain ⟨rfl, -⟩ := of_makeExpr_eq_ok hact
    exact .node (.literal rfl) le_rfl rfl
  case unit =>
    obtain ⟨rfl, -⟩ := of_makeExpr_eq_ok hact
    exact .node .unit le_rfl rfl
  case strings first rest =>
    obtain ⟨rfl, -⟩ := of_makeExpr_eq_ok hact
    have htokens := Operand.strings (.literal (t := .str first.1) rfl) (rest.map (·.1))
    exact .node (n := 0) (by simpa [stringToken, kinds, Function.comp_def] using htokens) le_rfl rfl
  case int =>
    obtain ⟨rfl, -⟩ := of_makeExpr_eq_ok hact
    refine ⟨true, 0, .number _, ?_, fun _ => rfl⟩
    rw [Expr.build, Expr.needs_node]
    exact le_rfl
  case noComparisons =>
    cases hact
    exact ⟨0, fun us m hus => by simpa using hus, le_rfl⟩
  case noItems =>
    cases hact
    exact fun _ => ⟨0, .nil, le_rfl⟩
  case required =>
    cases hact
    exact ⟨0, fun fs => .single rfl, le_rfl⟩
  case single f _ h =>
    cases f <;> exact (h hact).loosen (Nat.le_of_ble_eq_true rfl)
  case unconditional h | affirmed h | uncompared h | unsigned h | unraised h | unawaited h | plain h =>
    exact (h hact).loosen (Nat.le_of_ble_eq_true rfl)

/-! ### Simple statements -/

theorem TestList.coversRow {list : TestList} {next : Nat} {e : Expr} (hact : list.act next = .ok e) :
    ∃ n, ItemRow (kinds list.tokens) n ∧ e.needs test ≤ n := by
  cases list with
  | single d =>
    obtain ⟨_, n, hts, hn, -⟩ := d.covers hact
    exact ⟨n, hts.item.row, hn⟩
  | tuple first comma rest =>
    obtain ⟨_, hf, hmake⟩ := of_bind_eq_ok hact
    obtain ⟨_, hr, hmake⟩ := of_bind_eq_ok hmake
    obtain ⟨rfl, -⟩ := of_makeExpr_eq_ok hmake
    obtain ⟨_, n, hfirst, hn, -⟩ := first.covers hf
    obtain ⟨m, hrest, hm⟩ := rest.covers hr rfl
    refine ⟨n + m, by simpa [TestList.tokens, sign] using hfirst.item.more hrest, ?_⟩
    have hall := Nat.add_le_add hn hm
    rw [Expr.build, Expr.needs_node, ExprForm.needs_tuple, List.map_cons, List.sum_cons]
    exact hall

-- Tokens of a line that have the groups at least that are needed.
def CoversLine (ts : List Token) (need : Nat) : Prop := ∃ n, IsLine ts n ∧ need ≤ n

namespace CoversLine

variable {ts us : List Token} {n m : Nat} {t : Token}

theorem behind (ht : t.joins) (h : CoversLine ts n) : CoversLine (t :: ts) n :=
  have ⟨k, hts, hn⟩ := h
  ⟨k, hts.behind ht, hn⟩

theorem joined (h : CoversLine ts n) (ht : t.joins) (h' : CoversLine us m) :
    CoversLine (ts ++ t :: us) (n + m) :=
  have ⟨k, hts, hn⟩ := h
  have ⟨l, hus, hm⟩ := h'
  ⟨k + l, hts.joined ht hus, Nat.add_le_add hn hm⟩

theorem le (h : CoversLine ts n) (hm : m ≤ n) : CoversLine ts m :=
  have ⟨k, hts, hn⟩ := h
  ⟨k, hts, Nat.le_trans hm hn⟩

theorem of_plain (h : ∀ t ∈ ts, t.isPlain) : CoversLine ts 0 := ⟨0, .of_plain h, le_rfl⟩

theorem word (k : Keyword) : CoversLine [.word k] 0 := of_plain (List.forall_mem_singleton.mpr rfl)

end CoversLine

theorem TestList.coversLine {list : TestList} {next : Nat} {e : Expr} (hact : list.act next = .ok e) :
    CoversLine (kinds list.tokens) (e.needs test) :=
  have ⟨n, hts, hn⟩ := coversRow hact
  ⟨n, .of_row hts, hn⟩

theorem coversLine_expression {d : Expression} {e : Expr} (hact : d.act = .ok e) :
    CoversLine (kinds d.tokens) (e.needs test) :=
  @TestList.coversLine (.single d) 0 e hact

theorem coversLine_assigned {first : TestList} {rest : List (Span × TestList)} {next stop : Nat} {e : Expr}
    {es : List Expr} (hfirst : first.act stop = .ok e) (hrest : actAssigned next rest = .ok es) :
    CoversLine (kinds (first.tokens ++ assignedTokens rest)) ((e :: es).map (Expr.needs test)).sum := by
  induction rest generalizing first stop e es
  case nil =>
    cases hrest
    simpa [assignedTokens] using TestList.coversLine hfirst
  case cons p rest ih =>
    obtain ⟨e', he', h⟩ := of_bind_eq_ok hrest
    obtain ⟨es', hes', h⟩ := of_bind_eq_ok h
    cases h
    have hall := (TestList.coversLine hfirst).joined (t := .sign .assign) rfl (ih he' hes')
    simpa [assignedTokens, sign] using hall

theorem joins_of_augmented? {t : Token} {op : BinaryOp} (h : t.augmented? = some op) : t.joins := by
  cases t
  case sign s => cases s <;> first | rfl | cases h
  all_goals cases h

theorem needs_build (form : StmtForm Stmt) (location : Location) :
    (Stmt.build form location).needs = form.needs + Stmt.rowNeeds form.stmts :=
  Stmt.needs_node _ form

theorem needs_makeAssignment {location : Location} {first : Expr} {rest : List Expr} {s : Stmt}
    (h : makeAssignment location first rest = .ok s) :
    s.needs ≤ ((first :: rest).map (Expr.needs test)).sum := by
  rw [makeAssignment] at h
  cases hlast : rest.getLast? with
  | none =>
    rw [hlast] at h
    obtain ⟨rfl, -⟩ := of_makeStmt_eq_ok h
    obtain rfl := List.getLast?_eq_none_iff.mp hlast
    exact (needs_build _ _).trans_le le_rfl
  | some value =>
    rw [hlast] at h
    dsimp only at h
    split at h
    case h_1 => cases h
    case h_2 =>
      obtain ⟨rfl, -⟩ := of_makeStmt_eq_ok h
      have hrest : rest.dropLast ++ [value] = rest := List.dropLast_append_getLast? value hlast
      have htargets : ((first :: rest.dropLast).map (Expr.needs Strength.tuple)).sum
          ≤ ((first :: rest.dropLast).map (Expr.needs test)).sum :=
        List.sum_le_sum fun e _ => e.needs_mono (Nat.zero_le test)
      have hall : ((first :: rest).map (Expr.needs test)).sum
          = ((first :: rest.dropLast).map (Expr.needs test)).sum + value.needs test := by
        conv_lhs => rw [← hrest, ← List.cons_append, List.map_append, List.sum_append]
        rfl
      rw [needs_build, StmtForm.needs_assign, hall]
      exact Nat.add_le_add_right htargets _

theorem isPlain_path (d : DottedName) : ∀ t ∈ kinds d.tokens, t.isPlain := by
  refine rowwise_plain.plain rfl ?_
  induction d.rest with
  | nil => exact rowwise_plain.nil
  | cons p rest ih => exact rowwise_plain.plain rfl (rowwise_plain.plain rfl ih)

theorem isPlain_alias (a : ImportAlias) : ∀ t ∈ kinds a.tokens, t.isPlain := by
  rw [ImportAlias.tokens, kinds_append]
  refine rowwise_plain.append (isPlain_path a.name) ?_
  cases a.asname with
  | none => exact rowwise_plain.nil
  | some p => exact rowwise_plain.plain rfl (rowwise_plain.single rfl)

theorem isPlain_aliases (as : ImportAliases) : ∀ t ∈ kinds as.tokens, t.isPlain := by
  rw [ImportAliases.tokens, kinds_append]
  refine rowwise_plain.append (isPlain_alias as.first) ?_
  induction as.rest with
  | nil => exact rowwise_plain.nil
  | cons p rest ih =>
    rw [List.flatMap_cons, kinds_append]
    exact rowwise_plain.append (rowwise_plain.plain rfl (isPlain_alias p.2)) ih

theorem SmallStatement.coversLine {x : SmallStatement} {next : Nat} {s : Stmt}
    (hact : x.act next = .ok s) : CoversLine (kinds x.tokens) s.needs := by
  cases x with
  | assignment first rest =>
    obtain ⟨e, he, h⟩ := of_bind_eq_ok hact
    obtain ⟨es, hes, h⟩ := of_bind_eq_ok h
    exact (coversLine_assigned he hes).le (needs_makeAssignment h)
  | augmented target op value =>
    obtain ⟨e, he, h⟩ := of_bind_eq_ok hact
    obtain ⟨v, hv, h⟩ := of_bind_eq_ok h
    rw [makeAugmented] at h
    split at h
    case isFalse => cases h
    case isTrue =>
      obtain ⟨rfl, -⟩ := of_makeStmt_eq_ok h
      have htarget : CoversLine (kinds target.tokens) (e.needs Strength.tuple) :=
        (coversLine_expression he).le (e.needs_mono (Nat.zero_le test))
      have hop : op.token.token.joins := joins_of_augmented? op.op_eq
      have hall := htarget.joined hop (TestList.coversLine hv)
      rw [needs_build]
      simpa [tokens, StmtForm.needs, StmtForm.parts, StmtForm.segments, StmtForm.stmts, Stmt.rowNeeds]
        using hall
  | pass | breakLoop | continueLoop =>
    rw [act] at hact
    obtain ⟨rfl, -⟩ := of_makeStmt_eq_ok hact
    rw [needs_build]
    exact .word _
  | imports import_ names =>
    rw [act] at hact
    obtain ⟨rfl, -⟩ := of_makeStmt_eq_ok hact
    rw [needs_build]
    exact (CoversLine.of_plain (isPlain_aliases names)).behind rfl
  | importFrom from_ path import_ names =>
    rw [act] at hact
    obtain ⟨rfl, -⟩ := of_makeStmt_eq_ok hact
    have hnames := CoversLine.of_plain (isPlain_aliases names)
    have hpath := (CoversLine.of_plain (isPlain_path path)).joined (t := .word .import_) rfl hnames
    rw [needs_build, tokens, kinds_cons, kinds_append]
    exact hpath.behind rfl
  | ret return_ value =>
    obtain ⟨v, hv, h⟩ := of_bind_eq_ok hact
    obtain ⟨rfl, -⟩ := of_makeStmt_eq_ok h
    rw [needs_build]
    cases value with
    | none =>
      cases hv
      exact .word _
    | some list =>
      obtain ⟨e, he, hv⟩ := of_bind_eq_ok hv
      cases hv
      rw [tokens, Option.toList, List.flatMap_singleton]
      exact (TestList.coversLine he).behind rfl
  | raise raise_ exc =>
    obtain ⟨v, hv, h⟩ := of_bind_eq_ok hact
    obtain ⟨rfl, -⟩ := of_makeStmt_eq_ok h
    rw [needs_build]
    cases exc with
    | none =>
      cases hv
      exact .word _
    | some d =>
      obtain ⟨e, he, hv⟩ := of_bind_eq_ok hv
      cases hv
      rw [tokens, Option.toList, List.flatMap_singleton]
      exact (coversLine_expression he).behind rfl

-- Tokens of whole lines that have the groups at least that are needed.
def CoversLines (ts : List Token) (need : Nat) : Prop := ∃ n, AreLines ts n ∧ need ≤ n

theorem CoversLines.append {ts us : List Token} {n m : Nat} (h : CoversLines ts n)
    (h' : CoversLines us m) : CoversLines (ts ++ us) (n + m) :=
  have ⟨k, hts, hn⟩ := h
  have ⟨l, hus, hm⟩ := h'
  ⟨k + l, hts.append hus, Nat.add_le_add hn hm⟩

theorem CoversLines.nil : CoversLines [] 0 := ⟨0, .nil _, le_rfl⟩

theorem CoversLine.thenLines {ts us : List Token} {n m : Nat} {t : Token} (h : CoversLine ts n)
    (ht : t.joins) (h' : CoversLines us m) : CoversLines (ts ++ t :: us) (n + m) :=
  have ⟨k, hts, hn⟩ := h
  have ⟨l, hus, hm⟩ := h'
  ⟨k + l, hts.append fun _ => leads_joins ht hus, Nat.add_le_add hn hm⟩

theorem SimpleStatements.coversLines {x : SimpleStatements} {ss : List Stmt} (hact : x.act = .ok ss) :
    CoversLines (kinds x.tokens) (Stmt.rowNeeds ss) := by
  have hending : ∃ t us, kinds x.ending = t :: us ∧ t.joins ∧ CoversLines us 0 := by
    rw [SimpleStatements.ending]
    cases x.semicolon with
    | none => exact ⟨.newline, [], rfl, rfl, .nil⟩
    | some span => exact ⟨.sign .semicolon, [.newline], rfl, rfl, 0, leads_joins rfl (.nil _), le_rfl⟩
  obtain ⟨t, us, hending, ht, hus⟩ := hending
  rw [act] at hact
  rw [tokens]
  generalize x.first = first at hact
  generalize x.rest = rest at hact
  induction rest generalizing first ss
  case nil =>
    obtain ⟨s, hs, hact⟩ := of_bind_eq_ok hact
    cases hact
    have hall := (SmallStatement.coversLine hs).thenLines ht hus
    simpa [smallTokens, hending, Stmt.rowNeeds] using hall
  case cons p rest ih =>
    obtain ⟨s, hs, hact⟩ := of_bind_eq_ok hact
    obtain ⟨ss, hss, hact⟩ := of_bind_eq_ok hact
    cases hact
    have hall := (SmallStatement.coversLine hs).thenLines (t := .sign .semicolon) rfl (ih p.2 hss)
    simpa [smallTokens, sign, Stmt.rowNeeds] using hall

/-! ### Statements -/

def Clause.needs (c : Clause) : Nat := c.test.needs test + Stmt.rowNeeds c.body

-- What is derived from a symbol for statements needs so many groups.
def StmtSymbol.needs : (s : StmtSymbol) → s.Value → Nat
  | compound, s => s.needs
  | clauses, cs => (cs.map Clause.needs).sum
  | statement, ss | suite, ss | statements, ss | orelse, ss => Stmt.rowNeeds ss

theorem rowNeeds_append (ss us : List Stmt) :
    Stmt.rowNeeds (ss ++ us) = Stmt.rowNeeds ss + Stmt.rowNeeds us := by
  rw [Stmt.rowNeeds, List.map_append, List.sum_append]
  rfl

theorem needs_ifElse (condition : Expr) (body orelse : List Stmt) (location : Location) :
    (Stmt.build (.ifElse condition body orelse) location).needs
      = condition.needs test + (Stmt.rowNeeds body + Stmt.rowNeeds orelse) := by
  rw [needs_build, StmtForm.stmts, rowNeeds_append]
  rfl

-- A chain of conditions needs what its clauses and the else branch need.
theorem rowNeeds_chain {orelse ss : List Stmt} {cs : List Clause} (h : chain orelse cs = .ok ss) :
    Stmt.rowNeeds ss = (cs.map Clause.needs).sum + Stmt.rowNeeds orelse := by
  induction cs generalizing ss with
  | nil =>
    cases h
    exact (Nat.zero_add _).symm
  | cons c cs ih =>
    obtain ⟨rest, hrest, h⟩ := of_bind_eq_ok h
    obtain ⟨s, hmake, h⟩ := of_bind_eq_ok h
    cases h
    obtain ⟨rfl, -⟩ := of_makeStmt_eq_ok hmake
    rw [Stmt.rowNeeds, List.map_singleton, List.sum_singleton, needs_ifElse, ih hrest, List.map_cons,
      List.sum_cons, Clause.needs, ← Nat.add_assoc, ← Nat.add_assoc]

theorem ForTarget.coversLine {t : ForTarget} {e : Expr} (hact : t.act = .ok e) :
    CoversLine (kinds t.tokens) (e.needs Strength.tuple) := by
  obtain ⟨list, htokens, hlist⟩ := t.exists_list
  rw [← htokens]
  exact (TestList.coversLine ((hlist 0).trans hact)).le (e.needs_mono (Nat.zero_le test))

-- The tokens of a derivation have the groups at least that its statements need.
theorem StmtDerivation.coversLines {s : StmtSymbol} (d : StmtDerivation s) {v : s.Value}
    (hact : d.act = .ok v) : CoversLines (kinds d.tokens) (s.needs v) := by
  induction d
  case simple x | line x => exact x.coversLines hact
  case compound h =>
    obtain ⟨s, hs, hact⟩ := of_bind_eq_ok hact
    cases hact
    exact h hs
  case conditional hbody hclauses horelse =>
    obtain ⟨test, ht, hact⟩ := of_bind_eq_ok hact
    obtain ⟨body, hb, hact⟩ := of_bind_eq_ok hact
    obtain ⟨cs, hcs, hact⟩ := of_bind_eq_ok hact
    obtain ⟨orelse, ho, hact⟩ := of_bind_eq_ok hact
    obtain ⟨rest, hchain, hmake⟩ := of_bind_eq_ok hact
    obtain ⟨rfl, -⟩ := of_makeStmt_eq_ok hmake
    have hrest := (hbody hb).append ((hclauses hcs).append (horelse ho))
    have hall := ((coversLine_expression ht).behind (t := .word .if_) rfl).thenLines (t := .sign .colon) rfl hrest
    simp only [tokens, kinds_cons, kinds_append]
    rw [StmtSymbol.needs, needs_ifElse, rowNeeds_chain hchain]
    exact hall
  case whileLoop hbody =>
    obtain ⟨test, ht, hact⟩ := of_bind_eq_ok hact
    obtain ⟨body, hb, hmake⟩ := of_bind_eq_ok hact
    obtain ⟨rfl, -⟩ := of_makeStmt_eq_ok hmake
    have hall := ((coversLine_expression ht).behind (t := .word .while_) rfl).thenLines (t := .sign .colon) rfl
      (hbody hb)
    simp only [tokens, kinds_cons, kinds_append]
    rw [StmtSymbol.needs, needs_build]
    exact hall
  case forLoop target in_ iter colon body hbody =>
    obtain ⟨e, ht, hact⟩ := of_bind_eq_ok hact
    obtain ⟨e', hi, hact⟩ := of_bind_eq_ok hact
    obtain ⟨ss, hb, hmake⟩ := of_bind_eq_ok hact
    obtain ⟨rfl, -⟩ := of_makeStmt_eq_ok hmake
    have hhead := ((ForTarget.coversLine ht).behind (t := .word .for_) rfl).joined (t := .word .in_) rfl
      (coversLine_expression hi)
    have hall := hhead.thenLines (t := .sign .colon) rfl (hbody hb)
    simp only [tokens, kinds_cons, kinds_append]
    simp only [List.cons_append, List.append_assoc] at hall
    rw [StmtSymbol.needs, needs_build]
    exact hall
  case define async_ def_ name opening params closing colon body hbody =>
    obtain ⟨ps, hp, hact⟩ := of_bind_eq_ok hact
    obtain ⟨ss, hb, hmake⟩ := of_bind_eq_ok hact
    obtain ⟨rfl, -⟩ := of_makeStmt_eq_ok hmake
    obtain ⟨n, hparams, hn⟩ := params.covers hp rfl
    obtain ⟨m, hbody, hm⟩ := hbody hb
    have hdef (b : Behind) := (StmtForm.leads_signature hparams name.text b).append hbody
    refine ⟨n + m, ?_, ?_⟩
    · simp only [tokens, kinds_append, kinds_cons]
      simp only [List.cons_append, List.append_assoc, List.nil_append] at hdef
      cases async_ with
      | none => exact hdef .operator
      | some span => exact leads_joins rfl (hdef .operator)
    · rw [StmtSymbol.needs, needs_build, StmtForm.needs_define]
      exact Nat.add_le_add hn hm
  case block hfirst hrest =>
    obtain ⟨ss, hss, hact⟩ := of_bind_eq_ok hact
    obtain ⟨us, hus, hact⟩ := of_bind_eq_ok hact
    cases hact
    obtain ⟨n, hbody, hn⟩ := (hfirst hss).append (hrest hus)
    have hblock : AreLines (blockTokens _) n := hbody.block .operator
    refine ⟨n, by simpa [blockTokens] using hblock, ?_⟩
    rw [StmtSymbol.needs, rowNeeds_append]
    exact hn
  case more hfirst hrest =>
    obtain ⟨ss, hss, hact⟩ := of_bind_eq_ok hact
    obtain ⟨us, hus, hact⟩ := of_bind_eq_ok hact
    cases hact
    rw [StmtSymbol.needs, rowNeeds_append, tokens, kinds_append]
    exact (hfirst hss).append (hrest hus)
  case noStatements | nothingElse | noClauses =>
    cases hact
    exact .nil
  case clause hbody hrest =>
    obtain ⟨test, ht, hact⟩ := of_bind_eq_ok hact
    obtain ⟨body, hb, hact⟩ := of_bind_eq_ok hact
    obtain ⟨cs, hcs, hact⟩ := of_bind_eq_ok hact
    cases hact
    have hbranch := ((coversLine_expression ht).behind (t := .word .elif_) rfl).thenLines (t := .sign .colon) rfl
      (hbody hb)
    simp only [tokens, kinds_cons, kinds_append]
    exact hbranch.append (hrest hcs)
  case otherwise hbody =>
    obtain ⟨n, hbody, hn⟩ := hbody hact
    exact ⟨n, leads_joins rfl (leads_joins rfl hbody), hn⟩

-- No text of a program has fewer groups than the program needs.
theorem rowNeeds_le_groups {d : Program} {body : List Stmt} (hact : d.act = .ok body) :
    Stmt.rowNeeds body ≤ Stand.start.groups (kinds d.tokens) := by
  obtain ⟨n, htokens, hn⟩ := d.coversLines hact
  rw [htokens.groups]
  exact hn

end NoteCell.Grammar
