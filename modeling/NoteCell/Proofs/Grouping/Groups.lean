import NoteCell.Proofs.Printing.Lines
import NoteCell.Proofs.Printing.Segments
import NoteCell.Proofs.Tree.Nodes

/-!
Grouping brackets of printed text. Brackets that group stand around a part that holds less strongly than
its place asks for, be it a part of a line or, at any depth, of another part. Every part stands behind a
token that an operand may follow, and what stands behind it keeps apart from whatever it ends with.
-/
namespace NoteCell

open Segment Word Strength

/-! ### Seats of parts -/

-- A token behind which an operand may begin.
def Token.awaits : Token → Bool
  | .sign s => !s.closes
  | .word k => k != .true_ && k != .false_ && k != .none_
  | .newline | .indent | .dedent => true
  | _ => false

-- What a part may stand behind, with or without a blank.
def Seats : Option Token → Bool → Prop
  | none, spaced => spaced = false
  | some t, spaced => t.awaits ∧ (spaced = true ∨ ∃ s : Sign, s.binds ∧ t = .sign s)

-- What may stand behind a part.
def Trails : List Word → Prop
  | [] => True
  | w :: ws => w.spaced = true ∨ (∃ s : Sign, s.hugs ∧ w.token = .sign s)
      ∨ ∃ name vs, w.token = .sign .dot ∧ ws = tight (.name name) :: vs

theorem Trails.append {w : Word} {ws : List Word} (h : Trails (w :: ws)) (vs : List Word) :
    Trails (w :: ws ++ vs) := by
  obtain hspaced | hhugs | ⟨name, us, hdot, rfl⟩ := h
  · exact .inl hspaced
  · exact .inr (.inl hhugs)
  · exact .inr (.inr ⟨name, us ++ vs, hdot, rfl⟩)

theorem trails_hugging {s : Sign} (hs : s.hugs) (ws : List Word) : Trails (tight (.sign s) :: ws) :=
  .inr (.inl ⟨s, hs, rfl⟩)

namespace Segment

-- No part stands right beside another.
def Trailed : List Segment → Prop
  | [] => True
  | text (w :: ws) :: _ => Trails (w :: ws)
  | _ => False

-- Segments behind a token, in which every part has its seat.
def Seated : Option Token → List Segment → Prop
  | _, [] => True
  | before, text ws :: rest => Seated ((tokensOf ws).getLast?.or before) rest
  | before, part spaced _ _ :: rest => Seats before spaced ∧ Trailed rest ∧ Seated none rest

variable {before : Option Token} {t : Token} {segs rest : List Segment} {w : Word} {ws : List Word}
  {s opening closing : Sign}

theorem seated_text (before : Option Token) (hne : ws ≠ []) (h : Seated (tokensOf ws).getLast? rest) :
    Seated before (text ws :: rest) := by
  obtain ⟨t, ht⟩ : ∃ t, (tokensOf ws).getLast? = some t :=
    Option.isSome_iff_exists.mp (by simpa [tokensOf] using hne)
  rw [ht] at h
  rw [Seated, ht]
  exact h

theorem Seated.append (h : Seated before segs) (hw : Trails (w :: ws))
    (hrest : Seated (tokensOf (w :: ws)).getLast? rest) :
    Seated before (segs ++ text (w :: ws) :: rest) := by
  induction segs generalizing before
  case nil => exact seated_text before (List.cons_ne_nil w ws) hrest
  case cons seg segs ih =>
    cases seg with
    | text vs => exact ih h
    | part spaced context e =>
      obtain ⟨hseat, htrailed, hsegs⟩ := h
      refine ⟨hseat, ?_, ih hsegs⟩
      cases segs with
      | nil => exact hw
      | cons seg segs =>
        cases seg with
        | part => exact htrailed
        | text vs =>
          cases vs with
          | nil => exact htrailed
          | cons v vs => exact htrailed

theorem Seated.shift (h : Seated before segs) (ht : t.awaits) : Seated (some t) (shift segs) := by
  induction segs using shift.induct generalizing before
  case case1 => trivial
  case case2 rest ih => exact ih h
  case case3 ws rest hne =>
    have hne : ws ≠ [] := by simpa using hne
    obtain ⟨u, hu⟩ : ∃ u, (tokensOf ws).getLast? = some u :=
      Option.isSome_iff_exists.mp (by simpa [tokensOf] using hne)
    rw [Segment.shift.eq_3 _ _ (by simpa using hne)]
    refine seated_text _ (shift_ne_nil hne) ?_
    rw [Seated, hu] at h
    rw [tokensOf_shift, hu]
    exact h
  case case4 => exact ⟨⟨ht, .inl rfl⟩, h.2⟩

theorem Seated.separated {rows : List (List Segment)} (h : ∀ row ∈ rows, Seated before row) :
    Seated before (separated rows) := by
  induction rows using Segment.separated.induct
  case case1 => trivial
  case case2 row => exact h row List.mem_cons_self
  case case3 row rows hne ih =>
    obtain ⟨hrow, hrows⟩ := List.forall_mem_cons.mp h
    rw [Segment.separated.eq_3 _ _ hne]
    exact hrow.append (trails_hugging rfl []) ((ih hrows).shift rfl)

theorem Seated.bracketed (h : Seated (some (.sign opening)) segs) (hclosing : closing.hugs)
    (before : Option Token) : Seated before (Segment.bracketed opening closing segs) :=
  seated_text before (List.cons_ne_nil _ []) (h.append (trails_hugging hclosing []) trivial)

end Segment

theorem seats_none : Seats none false := rfl

theorem seats_apart {t : Token} (ht : t.awaits) : Seats (some t) true := ⟨ht, .inl rfl⟩

theorem seats_bound {s : Sign} (hs : s.binds) (ht : (Token.sign s).awaits) :
    Seats (some (.sign s)) false :=
  ⟨ht, .inr ⟨s, hs, rfl⟩⟩

theorem Expr.seated_items {before : Option Token} (h : Seats before false) (items : List Expr) :
    ∀ row ∈ items.map Expr.item, Seated before row :=
  List.forall_mem_map.mpr fun _ _ => ⟨h, trivial, trivial⟩

theorem Expr.seated_entry (entry : Expr × Expr) : Seated (some (.sign .lbrace)) (Expr.entry entry) :=
  ⟨seats_bound rfl rfl, trails_hugging rfl [], seats_apart rfl, trivial, trivial⟩

theorem Expr.seated_keyword (before : Option Token) (keyword : String × Expr) :
    Seated before (Expr.keyword keyword) :=
  seated_text before (List.cons_ne_nil _ _) ⟨seats_bound rfl rfl, trivial, trivial⟩

theorem Expr.seated_comparisons (rest : List (CompareOp × Expr)) :
    Trailed (rest.flatMap Expr.comparison) ∧ ∀ before, Seated before (rest.flatMap Expr.comparison) := by
  induction rest
  case nil => exact ⟨trivial, fun _ => trivial⟩
  case cons compared rest ih =>
    obtain ⟨op, e⟩ := compared
    rw [List.flatMap_cons]
    refine ⟨by cases op <;> exact .inl rfl, fun before => ?_⟩
    cases op <;> exact seated_text before (List.cons_ne_nil _ _) ⟨seats_apart rfl, ih.1, ih.2 none⟩

theorem seated_brackets {opening closing : Sign} {rows : List (List Segment)}
    (h : ∀ row ∈ rows, Seated (some (.sign opening)) row) (hclosing : closing.hugs)
    (before : Option Token) : Seated before (bracketed opening closing (separated rows)) :=
  (Seated.separated h).bracketed hclosing before

-- Two parts with a token between them.
theorem seated_joined {before : Option Token} (h : Seats before false) {t : Token} (ht : t.awaits)
    (k l : Nat) (left right : Expr) {rest : List Segment} (htrailed : Trailed rest)
    (hrest : Seated none rest) :
    Seated before (part false k left :: text [apart t] :: part true l right :: rest) :=
  ⟨h, .inl rfl, seats_apart ht, htrailed, hrest⟩

-- Every part of a form has its seat.
theorem ExprForm.seated_segments {before : Option Token} (h : Seats before false)
    (form : ExprForm Expr) : Seated before form.segments := by
  cases form
  case list items => exact seated_brackets (Expr.seated_items (seats_bound rfl rfl) items) rfl before
  case tuple items =>
    obtain _ | ⟨e, _ | ⟨d, es⟩⟩ := items
    · trivial
    · exact ⟨h, trails_hugging rfl [], trivial⟩
    · exact .separated (Expr.seated_items h _)
  case dict => exact seated_brackets (List.forall_mem_map.mpr fun _ _ => Expr.seated_entry _) rfl before
  case call func args keywords =>
    have hargs := @Expr.seated_items (some (.sign .lparen)) (seats_bound rfl rfl) args
    have hkeywords : ∀ row ∈ keywords.map Expr.keyword, Seated (some (.sign .lparen)) row :=
      List.forall_mem_map.mpr fun _ _ => Expr.seated_keyword _ _
    exact ⟨h, trails_hugging rfl [],
      seated_brackets (List.forall_mem_append.mpr ⟨hargs, hkeywords⟩) rfl _⟩
  case compare left rest =>
    obtain ⟨htrailed, hrest⟩ := Expr.seated_comparisons rest
    exact ⟨h, htrailed, hrest _⟩
  case binary op left right => cases op <;> exact seated_joined h rfl _ _ left right trivial trivial
  case logical op left right => cases op <;> exact seated_joined h rfl _ _ left right trivial trivial
  case unary op operand =>
    cases op
    case not => exact ⟨seats_apart rfl, trivial, trivial⟩
    all_goals exact ⟨seats_bound rfl rfl, trivial, trivial⟩
  case conditional => exact seated_joined h rfl _ _ _ _ (.inl rfl) ⟨seats_apart rfl, trivial, trivial⟩
  case member value attr => exact ⟨h, .inr (.inr ⟨attr, [], rfl, rfl⟩), trivial⟩
  case subscript value index =>
    have hindex : Seated (some (.sign .lbracket)) index.item :=
      ⟨seats_bound rfl rfl, trivial, trivial⟩
    exact ⟨h, trails_hugging rfl [], hindex.bracketed rfl _⟩
  case await => exact ⟨seats_apart rfl, trivial, trivial⟩
  all_goals trivial

theorem Expr.seated_segments {before : Option Token} (h : Seats before false) (context : Nat)
    (e : Expr) : Seated before (e.segments context) := by
  obtain ⟨info, form⟩ := e
  rw [segments]
  split
  · exact (form.seated_segments (seats_bound rfl rfl)).bracketed rfl before
  · exact form.seated_segments h

theorem Param.seated_segments (before : Option Token) (p : Param) : Seated before p.segments := by
  rw [segments]
  cases p.default? with
  | none => trivial
  | some e => exact Expr.seated_keyword before (p.name, e)

theorem seated_keywordSegments (k : Keyword) (value : Option Expr) (hk : (Token.word k).awaits) :
    Seated none (keywordSegments k value) := by
  cases value with
  | none => trivial
  | some e => exact ⟨seats_apart hk, trivial, trivial⟩

theorem seated_headSegments (k : Keyword) (condition : Expr) (hk : (Token.word k).awaits) :
    Seated none (headSegments k condition) :=
  ⟨seats_apart hk, trails_hugging rfl [], trivial⟩

theorem StmtForm.seated_segments (form : StmtForm Stmt) : Seated none form.segments := by
  cases form
  case expr e => exact ⟨seats_none, trivial, trivial⟩
  case assign targets value =>
    rw [segments]
    induction targets with
    | nil => exact ⟨seats_none, trivial, trivial⟩
    | cons target targets ih => exact ⟨seats_none, .inl rfl, ih.shift rfl⟩
  case augAssign target op value =>
    cases op <;> exact seated_joined seats_none rfl _ _ target value trivial trivial
  case ifElse | whileLoop => exact seated_headSegments _ _ rfl
  case forEach =>
    exact ⟨seats_apart rfl, .inl rfl, seats_apart rfl, trails_hugging rfl [], trivial⟩
  case define name params body isAsync =>
    have hparams : ∀ row ∈ params.map Param.segments, Seated (some (.sign .lparen)) row :=
      List.forall_mem_map.mpr fun p _ => p.seated_segments _
    refine seated_text none (by simp) ?_
    exact (seated_brackets hparams rfl _).append (trails_hugging rfl []) trivial
  case ret | raise => exact seated_keywordSegments _ _ rfl
  all_goals trivial

/-! ### Groups -/

-- What stands around an expression that is put in brackets, and whether there is a blank before them.
structure Group where
  before : List Word
  spaced : Bool
  inside : Expr
  after : List Word

namespace Group

def words (g : Group) : List Word :=
  g.before ++ ⟨g.spaced, .sign .lparen⟩
    :: (g.inside.form.words ++ tight (.sign .rparen) :: g.after)

-- The same words without the brackets.
def opened (g : Group) : List Word :=
  g.before ++ ((if g.spaced then Word.shift g.inside.form.words else g.inside.form.words) ++ g.after)

def shift (g : Group) : Group :=
  match g.before with
  | [] => { g with spaced := true }
  | w :: ws => { g with before := apart w.token :: ws }

def around (ws vs : List Word) (g : Group) : Group :=
  { g with before := ws ++ g.before, after := g.after ++ vs }

end Group

-- The groups of a row: its own parts that need brackets, and the groups of its parts.
inductive HasGroup : List Segment → Group → Prop
  | here {bs as : List Segment} {spaced : Bool} {k : Nat} {e : Expr} (h : e.strength < k) :
    HasGroup (bs ++ .part spaced k e :: as) ⟨rowWords bs, spaced, e, rowWords as⟩
  | within {bs as : List Segment} {spaced : Bool} {k : Nat} {e : Expr} {g : Group}
    (h : HasGroup (e.segments k) g) :
    HasGroup (bs ++ .part spaced k e :: as)
      ((if spaced then g.shift else g).around (rowWords bs) (rowWords as))

-- The first lines that a statement can have, in its own place or as a further condition.
def StmtForm.rows : StmtForm Stmt → List (List Segment)
  | .ifElse test _ _ => [headSegments .if_ test, headSegments .elif_ test]
  | form => [form.segments]

-- A pair of brackets that group an expression in the text of a cell.
structure Cell.Grouping (c : Cell) where
  above : List Line
  depth : Nat
  group : Group
  below : List Line
  lines_eq : c.lines = above ++ ⟨depth, group.words⟩ :: below
  owned : ∃ s, .stmt s ∈ c.nodes ∧ ∃ row ∈ s.form.rows, HasGroup row group

/-! ### Words -/

namespace Group

variable (g : Group)

theorem words_shift : g.shift.words = Word.shift g.words := by
  obtain ⟨_ | ⟨w, ws⟩, spaced, e, after⟩ := g <;> rfl

theorem words_around (ws vs : List Word) : (g.around ws vs).words = ws ++ (g.words ++ vs) := by
  simp [around, words]

theorem inside_shift : g.shift.inside = g.inside := by
  obtain ⟨_ | ⟨w, ws⟩, spaced, e, after⟩ := g <;> rfl

theorem after_shift : g.shift.after = g.after := by
  obtain ⟨_ | ⟨w, ws⟩, spaced, e, after⟩ := g <;> rfl

theorem tokensOf_before_shift : tokensOf g.shift.before = tokensOf g.before := by
  obtain ⟨_ | ⟨w, ws⟩, spaced, e, after⟩ := g <;> rfl

end Group

theorem Expr.words_loosest (e : Expr) : e.words Strength.tuple = e.form.words := by
  obtain ⟨info, form⟩ := e
  rw [words]
  exact if_neg (Nat.not_lt_zero _)

theorem Expr.words_group {e : Expr} {k : Nat} (h : e.strength < k) :
    e.words k = Word.enclosed .lparen .rparen e.form.words := by
  obtain ⟨info, form⟩ := e
  rw [words]
  exact if_pos h

namespace HasGroup

variable {row : List Segment} {g : Group}

theorem rowWords_eq (h : HasGroup row g) : rowWords row = g.words := by
  induction h
  case here bs as spaced k e hlt =>
    rw [rowWords_append, rowWords_cons, Segment.words, e.words_group hlt, Word.enclosed]
    cases spaced <;> simp [Group.words, Word.shift, tight, apart]
  case within bs as spaced k e g _ ih =>
    rw [Expr.rowWords_segments] at ih
    rw [Group.words_around, rowWords_append, rowWords_cons, Segment.words, ih]
    cases spaced with
    | false => rfl
    | true => simp only [if_true, Group.words_shift]

-- What holds of the nodes of all parts holds of those in the brackets.
theorem all_inside {P : NodeInfo → ExprForm Expr → Prop} (h : HasGroup row g)
    (hrow : ∀ p ∈ parts row, p.2.All P) : g.inside.All P := by
  induction h
  case here bs as spaced k e _ => exact hrow (k, e) (by simp)
  case within bs as spaced k e g _ ih =>
    obtain ⟨info, form⟩ := e
    have hnode : (Expr.node info form).All P := hrow (k, .node info form) (by simp)
    have hinside : g.inside.All P := by
      refine ih fun p hp => hnode.child p.2 (form.snd_parts (List.mem_map_of_mem ?_))
      rw [Expr.segments] at hp
      split at hp
      · rwa [parts_bracketed] at hp
      · exact hp
    cases spaced with
    | false => exact hinside
    | true => exact g.inside_shift.symm ▸ hinside

end HasGroup

-- Every line but those of `else` is the row of a statement.
theorem Cell.exists_row {c : Cell} {l : Line} (hl : l ∈ c.lines) :
    l.words = [tight (.word .else_), tight (.sign .colon)]
      ∨ ∃ s, .stmt s ∈ c.nodes ∧ ∃ row ∈ s.form.rows, rowWords row = l.words := by
  let P (ws : List Word) : Prop := ws = [tight (.word .else_), tight (.sign .colon)]
    ∨ ∃ s, .stmt s ∈ c.nodes ∧ ∃ row ∈ s.form.rows, rowWords row = ws
  have hheads : ∀ s ∈ c.body, s.All fun _ form => form.Heads P := fun s hs =>
    s.all_mem_nodes.imp fun info form hmem => by
      have hnode : .stmt (.node info form) ∈ c.nodes := List.mem_flatMap.mpr ⟨s, hs, hmem⟩
      refine ⟨.inr ⟨_, hnode, form.segments, ?_, form.rowWords_segments⟩, fun test body orelse h => ?_⟩
      · cases form <;> exact List.mem_cons_self
      · subst h
        exact .inr ⟨_, hnode, _, List.mem_cons_of_mem _ List.mem_cons_self, rowWords_headSegments _ _⟩
  exact forall_lines (.inl rfl) hheads l hl

-- Every group of a row stands in each line that is written for the row.
theorem Cell.exists_grouping {c : Cell} {l : Line} (hl : l ∈ c.lines) {s : Stmt} (hs : .stmt s ∈ c.nodes)
    {row : List Segment} (hrow : row ∈ s.form.rows) (hwords : rowWords row = l.words) {g : Group}
    (hg : HasGroup row g) : ∃ p : c.Grouping, p.group = g := by
  obtain ⟨above, below, hlines⟩ := List.append_of_mem hl
  refine ⟨⟨above, l.depth, g, below, ?_, s, hs, row, hrow, hg⟩, rfl⟩
  rw [hlines, ← hg.rowWords_eq, hwords]

/-! ### Seats of groups -/

-- Brackets behind a token that stand where a part may stand.
structure Group.Seated (t : Option Token) (g : Group) : Prop where
  seats : Seats ((tokensOf g.before).getLast?.or t) g.spaced
  trails : Trails g.after

theorem trails_append {ws vs : List Word} (hws : Trails ws) (hvs : Trails vs) : Trails (ws ++ vs) := by
  cases ws with
  | nil => exact hvs
  | cons w ws => exact hws.append vs

namespace Segment

variable {before : Option Token} {bs as : List Segment} {spaced : Bool} {k : Nat} {e : Expr}

theorem Trailed.trails (h : Trailed as) : Trails (rowWords as) := by
  cases as with
  | nil => trivial
  | cons s as =>
    cases s with
    | part => exact h.elim
    | text ws =>
      cases ws with
      | nil => exact h.elim
      | cons w ws => exact Trails.append h _

theorem Trailed.ne_nil (h : Trailed (bs ++ part spaced k e :: as)) : rowWords bs ≠ [] := by
  cases bs with
  | nil => exact h.elim
  | cons s bs =>
    cases s with
    | part => exact h.elim
    | text ws =>
      cases ws with
      | nil => exact h.elim
      | cons w ws => exact List.cons_ne_nil w _

theorem Seated.part (h : Seated before (bs ++ part spaced k e :: as)) :
    Seats ((tokensOf (rowWords bs)).getLast?.or before) spaced ∧ Trails (rowWords as) := by
  induction bs generalizing before with
  | nil => exact ⟨h.1, Trailed.trails h.2.1⟩
  | cons s bs ih =>
    cases s with
    | text ws =>
      have hrest := ih h
      rwa [← Option.or_assoc, ← List.getLast?_append, ← tokensOf_append] at hrest
    | part spaced' k' e' =>
      obtain ⟨-, htrailed, hrest⟩ := h
      obtain ⟨hseats, hafter⟩ := ih hrest
      have hne : tokensOf (rowWords bs) ≠ [] := by simpa [tokensOf] using htrailed.ne_nil
      refine ⟨?_, hafter⟩
      rw [rowWords_cons, tokensOf_append, List.getLast?_append_of_ne_nil _ hne]
      obtain ⟨t, ht⟩ := Option.isSome_iff_exists.mp (List.getLast?_isSome.mpr hne)
      rw [ht] at hseats ⊢
      exact hseats

end Segment

theorem Group.Seated.shift {g : Group} {t t' : Option Token} (h : g.Seated t) (ht : Seats t' true) :
    g.shift.Seated t' := by
  obtain ⟨before, spaced, e, after⟩ := g
  refine ⟨?_, after_shift ⟨before, spaced, e, after⟩ ▸ h.trails⟩
  cases before with
  | nil => exact ht
  | cons w ws =>
    have hseats := h.seats
    obtain ⟨u, hu⟩ := Option.isSome_iff_exists.mp
      (List.getLast?_isSome.mpr (List.cons_ne_nil w.token (tokensOf ws)))
    rw [tokensOf_before_shift, tokensOf_cons, hu]
    rw [tokensOf_cons, hu] at hseats
    exact hseats

theorem Group.Seated.around {g : Group} {t : Option Token} {ws vs : List Word}
    (h : g.Seated ((tokensOf ws).getLast?.or t)) (hvs : Trails vs) : (g.around ws vs).Seated t := by
  refine ⟨?_, trails_append h.trails hvs⟩
  rw [Group.around, tokensOf_append, List.getLast?_append, Option.or_assoc]
  exact h.seats

theorem HasGroup.seated {row : List Segment} {g : Group} (h : HasGroup row g) {t : Option Token}
    (hrow : Segment.Seated t row) : g.Seated t := by
  induction h generalizing t
  case here => exact ⟨hrow.part.1, hrow.part.2⟩
  case within bs as spaced k e g _ ih =>
    obtain ⟨hseats, htrails⟩ := hrow.part
    cases spaced with
    | false => exact (ih (e.seated_segments hseats k)).around htrails
    | true => exact ((ih (e.seated_segments seats_none k)).shift hseats).around htrails

end NoteCell
