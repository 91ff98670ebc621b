import NoteCell.Proofs.Parsing.Levels
import NoteCell.Proofs.Reading.Cursor

/-!
Expressions as they are read. Whatever the rules for expressions build can be written down again: its
nodes are regular, its names and literals are those of tokens, its depth is within the limit and
recorded as it is, and there is room for the brackets that it has of its own.
-/
namespace NoteCell

open NoteCell.Parser

-- An expression that a source can have.
structure Expr.Sound (e : Expr) : Prop where
  regular : e.Regular
  lexable : e.Lexable
  nested : e.WellNested
  fits : e.Fits

-- An expression that a source can have within so many brackets.
structure Expr.Read (b : Nat) (e : Expr) : Prop extends e.Sound where
  roomy : b + e.brackets ≤ Layout.maxBrackets

-- A form over parts that have been read, those in brackets of its own one level deeper.
structure ExprForm.Read (b : Nat) (form : ExprForm Expr) : Prop where
  regular : form.Regular
  lexable : form.Lexable
  exposed : ∀ c ∈ form.exposed, c.Read b
  enclosed : ∀ c ∈ form.enclosed, c.Read (b + 1)
  encloses : form.encloses → b + 1 ≤ Layout.maxBrackets

theorem ExprForm.exposed_or_enclosed {α : Type} {form : ExprForm α} {c : α} (h : c ∈ form.children) :
    c ∈ form.exposed ∨ c ∈ form.enclosed := by
  cases form
  case list | tuple | dict => exact .inr h
  case call => exact (List.mem_cons.mp h).imp List.mem_singleton.mpr id
  case subscript => exact (List.mem_cons.mp h).imp List.mem_singleton.mpr id
  all_goals exact .inl h

theorem ExprForm.Read.children {b : Nat} {form : ExprForm Expr} (h : form.Read b) :
    ∀ c ∈ form.children, c.Sound := fun c hc =>
  (exposed_or_enclosed hc).elim (fun hc => (h.exposed c hc).toSound)
    fun hc => (h.enclosed c hc).toSound

-- An argument of a call that has been read.
def Argument.Read (b : Nat) : Argument → Prop
  | .positional value => value.Read b
  | .keyword name value => (Token.name name).Lexable ∧ value.Read b

-- The arguments of a call that has been read.
structure ReadArguments (b : Nat) (args : List Expr) (keywords : List (String × Expr)) : Prop where
  positional : ∀ a ∈ args, a.Read b
  named : ∀ k ∈ keywords, (Token.name k.1).Lexable ∧ k.2.Read b
  nodup : (keywords.map (·.1)).Nodup

theorem ReadArguments.split {b : Nat} {given : List Argument} {args args' : List Expr}
    {keywords keywords' : List (String × Expr)} (h : ReadArguments b args keywords)
    (hgiven : ∀ a ∈ given, Argument.Read b a)
    (hsplit : splitArguments args keywords given = .ok (args', keywords')) :
    ReadArguments b args' keywords' := by
  induction given generalizing args keywords
  case nil =>
    obtain ⟨rfl, rfl⟩ := Prod.mk.inj (Except.ok.inj hsplit)
    exact h
  case cons a given ih =>
    have ha := hgiven a List.mem_cons_self
    have hrest : ∀ a ∈ given, Argument.Read b a := fun d hd => hgiven d (List.mem_cons_of_mem a hd)
    cases a with
    | positional value =>
      rw [splitArguments] at hsplit
      split at hsplit
      case isTrue =>
        refine ih ⟨fun d hd => ?_, h.named, h.nodup⟩ hrest hsplit
        obtain hd | hd := List.mem_append.mp hd
        · exact h.positional d hd
        · exact List.mem_singleton.mp hd ▸ ha
      case isFalse => cases hsplit
    | keyword name value =>
      rw [splitArguments] at hsplit
      split at hsplit
      case isTrue => cases hsplit
      case isFalse hnew =>
        refine ih ⟨h.positional, fun k hk => ?_, ?_⟩ hrest hsplit
        · obtain hk | hk := List.mem_append.mp hk
          · exact h.named k hk
          · exact List.mem_singleton.mp hk ▸ ha
        · rw [List.map_append, List.nodup_append]
          refine ⟨h.nodup, List.nodup_singleton _, fun s hs d hd => ?_⟩
          rintro rfl
          obtain ⟨k, hk, hname⟩ := List.mem_map.mp hs
          have hd : s = name := List.mem_singleton.mp hd
          exact hnew (List.any_eq_true.mpr ⟨k, hk, by simp [hname, hd]⟩)

section

variable {error : Option LexError} {b b' n : Nat} {form : ExprForm Expr} {at_ level : Nat}
  {follows : Option Token → Bool}

theorem isPlain_of_comparison? {t : Token} {op : CompareOp} (h : comparison? t = some op) :
    t.isPlain := by
  cases t
  case sign s => cases s <;> first | rfl | cases h
  all_goals rfl

theorem Family.isPlain_of_joint? {f : Family} {t : Token} {joint : Joint} (h : f.joint? t = some joint) :
    t.isPlain := by
  cases t
  case sign s => cases f <;> cases s <;> first | rfl | cases h
  all_goals rfl

namespace Keeps

theorem makeExprBefore (hreg : form.Regular) (hlex : form.Lexable)
    (hc : ∀ c ∈ form.children, c.Sound) :
    Keeps error b (makeExprBefore follows form at_) b fun e => e.Sound ∧ e.form = form := by
  refine .bind .stop fun stop _ => ?_
  have hnested := @Expr.wellNested_build form (.between at_ stop) fun c h => (hc c h).nested
  dsimp only
  split
  case isTrue hle =>
    rw [hnested.nesting_eq] at hle
    exact .pure ⟨⟨.node hreg fun c h => (hc c h).regular, .node hlex fun c h => (hc c h).lexable,
      hnested, hle⟩, rfl⟩
  case isFalse => exact .refuse

theorem makeExpr (h : form.Read b) :
    Keeps error b (makeExpr level form at_) b (Expr.Read b) := by
  refine .using_le fun hb => (makeExprBefore h.regular h.lexable h.children).imp fun e ⟨he, hform⟩ => ?_
  obtain ⟨info, form'⟩ := e
  obtain rfl : form' = form := hform
  refine ⟨he, ?_⟩
  rw [Expr.brackets_node]
  split
  case isTrue henc =>
    obtain ⟨m, hm⟩ := Nat.exists_eq_add_of_le (h.encloses henc)
    have hparts := (@Expr.nestingOver_le m (form'.enclosed.map Expr.brackets)).mpr fun d hd => by
      obtain ⟨c, hc, rfl⟩ := List.mem_map.mp hd
      have := (h.enclosed c hc).roomy
      omega
    omega
  case isFalse => exact hb

-- A node without brackets of its own.
theorem makePlain (hform : form.encloses = false) (hnone : form.enclosed = []) (hreg : form.Regular)
    (hlex : form.Lexable) (hc : ∀ c ∈ form.exposed, c.Read b) :
    Keeps error b (Parser.makeExpr level form at_) b (Expr.Read b) :=
  makeExpr ⟨hreg, hlex, hc, by simp [hnone], by simp [hform]⟩

theorem leaf (hleaf : form.children = [])
    (hform : form.encloses = false) (hreg : form.Regular) (hlex : form.Lexable) :
    Keeps error b (Parser.makeExpr level form at_) b (Expr.Read b) := by
  have hnone {c : Expr} (hc : c ∈ form.children) : False := by
    rw [hleaf] at hc
    cases hc
  exact makeExpr ⟨hreg, hlex, fun c hc => (hnone (form.mem_children_of_exposed hc)).elim,
    fun c hc => (hnone (form.mem_children_of_enclosed hc)).elim, by simp [hform]⟩

theorem compareOp? : Keeps error b compareOp? b fun _ => True := by
  refine .peek fun t => ?_
  cases t with
  | none => exact .stay (.pure trivial)
  | some t =>
    rw [Option.bind_eq_bind, Option.bind_some]
    cases hop : comparison? t with
    | none => exact .stay (.pure trivial)
    | some op =>
      have hplain := isPlain_of_comparison? hop
      cases op
      case notIn => exact .plain hplain (.bind .expect fun _ _ => .pure trivial)
      case «is» => exact .plain hplain (.bind (.accept rfl) fun _ _ => .pure trivial)
      all_goals exact .plain hplain (.pure trivial)

theorem strings (n : Nat) : Keeps error b (strings n) b fun _ => True := by
  induction n with
  | zero => exact .pure trivial
  | succ n ih =>
    refine .peek fun t => ?_
    split
    case h_1 s => exact .advance fun _ => .bind ih fun _ _ => .pure trivial
    case h_2 => exact .stay (.pure trivial)

end Keeps

end

-- What the rules with so much fuel come to.
structure ExprRules (error : Option LexError) (n : Nat) : Prop where
  expression (b : Nat) : Keeps error b (expression n) b (Expr.Read b)
  family (b : Nat) (f : Family) : Keeps error b (family n f) b (Expr.Read b)
  operand (b : Nat) (f : Family) : Keeps error b (operand n f) b (Expr.Read b)
  joined (b : Nat) (f : Family) (at_ : Nat) {left : Expr} (h : left.Read b) :
    Keeps error b (joined n f at_ left) b (Expr.Read b)
  negation (b : Nat) : Keeps error b (negation n) b (Expr.Read b)
  comparison (b : Nat) : Keeps error b (comparison n) b (Expr.Read b)
  comparisons (b : Nat) : Keeps error b (comparisons n) b fun ps => ∀ p ∈ ps, p.2.Read b
  factor (b : Nat) : Keeps error b (factor n) b (Expr.Read b)
  power (b : Nat) : Keeps error b (power n) b (Expr.Read b)
  awaited (b : Nat) : Keeps error b (awaited n) b (Expr.Read b)
  primary (b : Nat) : Keeps error b (primary n) b (Expr.Read b)
  extended (b : Nat) (at_ : Nat) {e : Expr} (h : e.Read b) :
    Keeps error b (extended n at_ e) b (Expr.Read b)
  atom (b : Nat) : Keeps error b (atom n) b (Expr.Read b)
  elements (b : Nat) : Keeps error b (elements n) b fun es => ∀ e ∈ es, e.Read b
  entries (b : Nat) : Keeps error b (entries n) b fun es => ∀ e ∈ es, e.1.Read b ∧ e.2.Read b
  arguments (b : Nat) : Keeps error b (arguments n) b fun as => ∀ a ∈ as, Argument.Read b a
  argument (b : Nat) : Keeps error b (argument n) b (Argument.Read b)

namespace ExprRules

variable {error : Option LexError} {n b : Nat} (h : ExprRules error n)

include h

theorem expression_succ : Keeps error b (Parser.expression (n + 1)) b (Expr.Read b) := by
  rw [Parser.expression]
  refine .bind .start fun at_ _ => .bind (h.family b .or) fun body hbody =>
    .ifAccept ?_ (.pure hbody)
  refine .bind (h.family b .or) fun test htest => .bind .expect fun _ _ =>
    .bind (h.expression b) fun orelse horelse => .makePlain rfl rfl trivial trivial ?_
  simp [ExprForm.exposed, ExprForm.children, htest, hbody, horelse]

theorem family_succ (f : Family) : Keeps error b (Parser.family (n + 1) f) b (Expr.Read b) := by
  rw [Parser.family]
  exact .bind .start fun at_ _ => .bind (h.operand b f) fun left hleft => h.joined b f at_ hleft

theorem operand_succ (f : Family) : Keeps error b (Parser.operand (n + 1) f) b (Expr.Read b) := by
  cases f <;> rw [Parser.operand]
  case or => exact h.family b .and
  case and => exact h.negation b
  case sum => exact h.family b .product
  case product => exact h.factor b

theorem joined_succ (f : Family) (at_ : Nat) {left : Expr} (hleft : left.Read b) :
    Keeps error b (Parser.joined (n + 1) f at_ left) b (Expr.Read b) := by
  rw [Parser.joined]
  refine .peek fun t => ?_
  cases t with
  | none => exact .stay (.pure hleft)
  | some t =>
    rw [Option.bind_eq_bind, Option.bind_some]
    cases hjoint : f.joint? t with
    | none => exact .stay (.pure hleft)
    | some joint =>
      refine .plain (f.isPlain_of_joint? hjoint) (.bind (h.operand b f) fun right hright =>
        .bind ?_ fun e he => h.joined b f at_ he)
      cases joint <;> exact .makePlain rfl rfl trivial trivial
        (by simp [Joint.form, ExprForm.exposed, ExprForm.children, hleft, hright])

theorem negation_succ : Keeps error b (Parser.negation (n + 1)) b (Expr.Read b) := by
  rw [Parser.negation]
  refine .bind .start fun at_ _ => .ifAccept (.bind (h.negation b) fun e he => ?_) (h.comparison b)
  exact .makePlain rfl rfl trivial trivial (by simpa [ExprForm.exposed, ExprForm.children] using he)

theorem comparison_succ : Keeps error b (Parser.comparison (n + 1)) b (Expr.Read b) := by
  rw [Parser.comparison]
  refine .bind .start fun at_ _ => .bind (h.family b .sum) fun left hleft =>
    .bind (h.comparisons b) fun rest hrest => ?_
  split
  case h_1 => exact .pure hleft
  case h_2 hne =>
    refine .makePlain rfl rfl hne trivial (List.forall_mem_cons.mpr ⟨hleft, fun c hc => ?_⟩)
    obtain ⟨p, hp, rfl⟩ := List.mem_map.mp hc
    exact hrest p hp

theorem comparisons_succ :
    Keeps error b (Parser.comparisons (n + 1)) b fun ps => ∀ p ∈ ps, p.2.Read b := by
  rw [Parser.comparisons]
  refine .bind .compareOp? fun op _ => ?_
  cases op with
  | none => exact .pure (List.forall_mem_nil _)
  | some op =>
    exact .bind (h.family b .sum) fun e he => .bind (h.comparisons b) fun ps hps =>
      .pure (List.forall_mem_cons.mpr ⟨he, hps⟩)

theorem factor_succ : Keeps error b (Parser.factor (n + 1)) b (Expr.Read b) := by
  rw [Parser.factor]
  refine .bind .start fun at_ _ => .ifAccept (.bind (h.factor b) fun e he => ?_)
    (.ifAccept (.bind (h.factor b) fun e he => ?_) (h.power b))
  all_goals
    exact .makePlain rfl rfl trivial trivial (by simpa [ExprForm.exposed, ExprForm.children] using he)

theorem power_succ : Keeps error b (Parser.power (n + 1)) b (Expr.Read b) := by
  rw [Parser.power]
  refine .bind .start fun at_ _ => .bind (h.awaited b) fun base hbase =>
    .ifAccept (.bind (h.factor b) fun exponent hexponent => ?_) (.pure hbase)
  exact .makePlain rfl rfl trivial trivial
    (by simp [ExprForm.exposed, ExprForm.children, hbase, hexponent])

theorem awaited_succ : Keeps error b (Parser.awaited (n + 1)) b (Expr.Read b) := by
  rw [Parser.awaited]
  refine .bind .start fun at_ _ => .ifAccept (.bind (h.primary b) fun e he => ?_) (h.primary b)
  exact .makePlain rfl rfl trivial trivial (by simpa [ExprForm.exposed, ExprForm.children] using he)

theorem primary_succ : Keeps error b (Parser.primary (n + 1)) b (Expr.Read b) := by
  rw [Parser.primary]
  exact .bind .start fun at_ _ => .bind (h.atom b) fun e he => h.extended b at_ he

theorem extended_succ (at_ : Nat) {e : Expr} (he : e.Read b) :
    Keeps error b (Parser.extended (n + 1) at_ e) b (Expr.Read b) := by
  rw [Parser.extended]
  refine .ifAccept ?dot (.ifAccept ?call (.ifAccept ?subscript (.pure he)))
  case dot =>
    refine .bind .identifier fun attr hattr =>
      .bind (.makePlain rfl rfl trivial hattr fun c hc => ?_) fun e' he' =>
        h.extended b at_ he'
    exact List.mem_singleton.mp hc ▸ he
  case call =>
    refine .using_le fun hb => .bind (h.arguments (b + 1)) fun given hgiven =>
      .bind .expect fun _ _ => ?_
    split
    case h_1 args keywords hsplit =>
      have hnone : ReadArguments (b + 1) [] [] := ⟨List.forall_mem_nil _, List.forall_mem_nil _, .nil⟩
      have hargs := hnone.split hgiven hsplit
      refine .bind (.makeExpr ⟨hargs.nodup, fun k hk => (hargs.named k hk).1, fun c hc => ?_,
        fun c hc => ?_, fun _ => hb⟩) fun e' he' => h.extended b at_ he'
      · exact List.mem_singleton.mp hc ▸ he
      · obtain hc | hc := List.mem_append.mp hc
        · exact hargs.positional c hc
        · obtain ⟨k, hk, rfl⟩ := List.mem_map.mp hc
          exact (hargs.named k hk).2
    case h_2 => exact .refuse
  case subscript =>
    refine .using_le fun hb => .bind (h.expression (b + 1)) fun index hindex => .bind .expect fun _ _ =>
      .bind (.makeExpr ⟨trivial, trivial, fun c hc => ?_, fun c hc => ?_, fun _ => hb⟩) fun e' he' =>
        h.extended b at_ he'
    · exact List.mem_singleton.mp hc ▸ he
    · exact List.mem_singleton.mp hc ▸ hindex

theorem atom_succ : Keeps error b (Parser.atom (n + 1)) b (Expr.Read b) := by
  rw [Parser.atom]
  refine .bind .start fun at_ _ => .peek fun t => ?_
  split
  case h_1 s => exact .advance fun ht => Keeps.leaf rfl rfl trivial (ht.lexable rfl)
  case h_2 x => exact .advance fun ht => Keeps.leaf rfl rfl trivial (ht.lexable rfl)
  case h_3 => exact .stay (.bind (.strings _) fun s _ => Keeps.leaf rfl rfl trivial trivial)
  case h_4 | h_5 | h_6 => exact .plain rfl (Keeps.leaf rfl rfl trivial trivial)
  case h_7 =>
    refine .advance fun _ => .using_le fun hb => .ifAccept ?empty ?_
    case empty =>
      exact .makeExpr ⟨trivial, trivial, nofun, nofun, fun _ => hb⟩
    refine .bind (h.expression (b + 1)) fun first hfirst => .ifAccept ?items ?single
    case items =>
      refine .bind (h.elements (b + 1)) fun rest hrest => .bind .expect fun _ _ =>
        .makeExpr ⟨trivial, trivial, nofun, ?_, fun _ => hb⟩
      exact List.forall_mem_cons.mpr ⟨hfirst, hrest⟩
    case single =>
      refine .bind .expect fun _ _ => .pure ⟨hfirst.toSound, ?_⟩
      have := hfirst.roomy
      omega
  case h_8 =>
    exact .advance fun _ => .using_le fun hb => .bind (h.elements (b + 1)) fun items hitems =>
      .bind .expect fun _ _ => .makeExpr ⟨trivial, trivial, nofun, hitems, fun _ => hb⟩
  case h_9 =>
    refine .advance fun _ => .using_le fun hb => .bind (h.entries (b + 1)) fun items hitems =>
      .bind .expect fun _ _ => .makeExpr ⟨trivial, trivial, nofun, fun c hc => ?_, fun _ => hb⟩
    obtain ⟨p, hp, hc⟩ := List.mem_flatMap.mp hc
    obtain ⟨hk, hv⟩ := hitems p hp
    obtain rfl | rfl : c = p.1 ∨ c = p.2 := by simpa using hc
    · exact hk
    · exact hv
  case h_10 k => exact .advance fun ht => Keeps.leaf rfl rfl trivial (ht.lexable rfl)
  case h_11 => exact .stay .misplaced

theorem elements_succ :
    Keeps error b (Parser.elements (n + 1)) b fun es => ∀ e ∈ es, e.Read b := by
  rw [Parser.elements]
  refine .peek fun t => .stay ?_
  split
  case isTrue =>
    refine .bind (h.expression b) fun e he => .ifAccept ?_ (.pure (by simpa using he))
    exact .bind (h.elements b) fun es hes => .pure (List.forall_mem_cons.mpr ⟨he, hes⟩)
  case isFalse => exact .pure (List.forall_mem_nil _)

theorem entries_succ :
    Keeps error b (Parser.entries (n + 1)) b fun es => ∀ e ∈ es, e.1.Read b ∧ e.2.Read b := by
  rw [Parser.entries]
  refine .peek fun t => .stay ?_
  split
  case isTrue =>
    refine .bind (h.expression b) fun k hk => .bind .expect fun _ _ => .bind (h.expression b)
      fun v hv => .ifAccept ?_ (.pure (by simpa using ⟨hk, hv⟩))
    exact .bind (h.entries b) fun es hes => .pure (List.forall_mem_cons.mpr ⟨⟨hk, hv⟩, hes⟩)
  case isFalse => exact .pure (List.forall_mem_nil _)

theorem arguments_succ :
    Keeps error b (Parser.arguments (n + 1)) b fun as => ∀ a ∈ as, Argument.Read b a := by
  rw [Parser.arguments]
  refine .peek fun t => .stay ?_
  split
  case isTrue =>
    refine .bind (h.argument b) fun a ha => .ifAccept ?_ (.pure (by simpa using ha))
    exact .bind (h.arguments b) fun as has => .pure (List.forall_mem_cons.mpr ⟨ha, has⟩)
  case isFalse => exact .pure (List.forall_mem_nil _)

theorem argument_succ : Keeps error b (Parser.argument (n + 1)) b (Argument.Read b) := by
  rw [Parser.argument]
  refine .bind .start fun at_ _ => .bind (h.expression b) fun target htarget =>
    .ifAccept (.bind (h.expression b) fun value hvalue => ?_) (.pure htarget)
  obtain ⟨info, form⟩ := target
  split
  case h_1 s hform =>
    obtain rfl : form = .name s := hform
    exact .pure ⟨htarget.lexable.root, hvalue⟩
  case h_2 => exact .refuse

theorem succ : ExprRules error (n + 1) where
  expression _ := h.expression_succ
  family _ f := h.family_succ f
  operand _ f := h.operand_succ f
  joined _ f at_ _ hleft := h.joined_succ f at_ hleft
  negation _ := h.negation_succ
  comparison _ := h.comparison_succ
  comparisons _ := h.comparisons_succ
  factor _ := h.factor_succ
  power _ := h.power_succ
  awaited _ := h.awaited_succ
  primary _ := h.primary_succ
  extended _ at_ _ he := h.extended_succ at_ he
  atom _ := h.atom_succ
  elements _ := h.elements_succ
  entries _ := h.entries_succ
  arguments _ := h.arguments_succ
  argument _ := h.argument_succ

end ExprRules

theorem exprRules (error : Option LexError) (n : Nat) : ExprRules error n := by
  induction n with
  | zero => constructor <;> intros <;> exact .misplaced
  | succ n ih => exact ih.succ

end NoteCell
