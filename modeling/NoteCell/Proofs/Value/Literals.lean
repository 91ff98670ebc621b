import NoteCell.Proofs.Lexing.Literals
import NoteCell.Proofs.Reading.Statements
import NoteCell.Proofs.Value.Data

/-!
Literals of data. Data is written down as an expression: a negative number stands behind a minus sign,
and the items of a container are the literals of what it holds. The text of data is the canonical text
of its literal, and reading that text gives the literal back.
-/
namespace NoteCell

open Word

/-! ### Expressions by their forms -/

namespace Expr

-- An expression that knows its form only.
def ofForm (form : ExprForm Expr) : Expr := .node ⟨0, .unknown, 0⟩ form

variable {form : ExprForm Expr} {k : Nat}

theorem bare_ofForm (form : ExprForm Expr) : (ofForm form).bare = ofForm (form.map bare) :=
  bare_node _ form

theorem depth_ofForm_le (h : ∀ c ∈ form.children, c.depth ≤ k) : (ofForm form).depth ≤ k + 1 := by
  rw [ofForm, depth_node, nestingOver_le]
  exact List.forall_mem_map.mpr h

theorem depth_leaf (hleaf : form.children = []) : (ofForm form).depth ≤ 1 :=
  depth_ofForm_le (hleaf ▸ List.forall_mem_nil _)

-- What reading a literal back relies on holds of all its nodes.
abbrev Legible : Expr → Prop := All fun _ form => form.Regular ∧ form.Lexable

theorem legible_leaf (hleaf : form.children = []) (hregular : form.Regular)
    (hlexable : form.Lexable) : (ofForm form).Legible :=
  .node ⟨hregular, hlexable⟩ (hleaf ▸ List.forall_mem_nil _)

theorem legible_neg {e : Expr} (h : e.Legible) : (ofForm (.unary .neg e)).Legible :=
  .node ⟨trivial, trivial⟩ (List.forall_mem_singleton.mpr h)

end Expr

/-! ### Texts of expressions -/

-- The text of a row of words.
def Word.written (ws : List Word) : String := String.ofList (ws.flatMap Word.chars)

-- The canonical text of an expression.
def Expr.text (e : Expr) : String := written (e.words Strength.test)

namespace Word

variable {ws vs : List Word} {t : Token}

theorem written_append : written (ws ++ vs) = written ws ++ written vs := by
  rw [written, List.flatMap_append, String.ofList_append, written, written]

theorem written_tight (t : Token) : written [tight t] = t.spelling := by
  simp [written, tight, chars]

theorem written_cons : written (tight t :: ws) = t.spelling ++ written ws := by
  rw [← List.singleton_append, written_append, written_tight]

theorem written_shift (h : Phrase ws) : written (shift ws) = " " ++ written ws := by
  obtain ⟨w, vs, rfl, hspaced, -⟩ := h.starts
  refine String.toList_inj.mp ?_
  simp [written, shift, apart, chars, hspaced]

theorem written_enclosed (opening closing : Sign) :
    written (enclosed opening closing ws) = opening.text ++ written ws ++ closing.text := by
  rw [enclosed, List.cons_append, written_cons, written_append, written_tight, String.append_assoc]
  rfl

theorem written_separated {rows : List (List Word)} (h : ∀ row ∈ rows, Phrase row) :
    written (separated rows) = Heap.commaSeparated (rows.map written) := by
  induction rows using Word.separated.induct
  case case1 => rfl
  case case2 row => rw [separated, List.map_singleton, Heap.commaSeparated, String.intercalate_singleton]
  case case3 row rows hrows ih =>
    obtain ⟨hrow, hrest⟩ := List.forall_mem_cons.mp h
    rw [separated.eq_3 _ _ hrows, written_append, written_cons,
      written_shift (Phrase.separated hrest hrows), ih hrest, List.map_cons, Heap.commaSeparated,
      Heap.commaSeparated, String.intercalate_cons_of_ne_nil (mt List.map_eq_nil_iff.mp hrows),
      String.append_assoc]
    rfl

end Word

namespace Expr

open Heap

variable {es : List Expr}

theorem written_rows (h : ∀ e ∈ es, e.Lexable) :
    written (separated (rows es)) = commaSeparated (es.map text) := by
  rw [rows_eq, written_separated (.rows fun e he => (h e he).phrase _), List.map_map]
  rfl

theorem text_list (h : ∀ e ∈ es, e.Lexable) :
    (ofForm (.list es)).text = "[" ++ commaSeparated (es.map text) ++ "]" := by
  rw [← written_rows h]
  exact written_enclosed .lbracket .rbracket

theorem text_tuple (h : ∀ e ∈ es, e.Lexable) : (ofForm (.tuple es)).text = tupleText (es.map text) := by
  rcases es with _ | ⟨e, _ | ⟨d, es⟩⟩
  · rfl
  · have hwords : (ofForm (.tuple [e])).words Strength.test
        = enclosed .lparen .rparen (e.words Strength.test ++ [tight (.sign .comma)]) := rfl
    rw [text, hwords, written_enclosed, written_append, written_tight, ← String.append_assoc,
      String.append_assoc]
    rfl
  · have hwords : (ofForm (.tuple (e :: d :: es))).words Strength.test
        = enclosed .lparen .rparen (separated (rows (e :: d :: es))) := rfl
    rw [text, hwords, written_enclosed, written_rows h]
    rfl

theorem text_dict {entries : List (Expr × Expr)} (h : ∀ e ∈ entries, e.1.Lexable ∧ e.2.Lexable) :
    (ofForm (.dict entries)).text
      = "\x7b" ++ commaSeparated (entries.map fun e => e.1.text ++ ": " ++ e.2.text) ++ "\x7d" := by
  have hrow : ∀ e ∈ entries, Phrase (e.1.words Strength.test
      ++ tight (.sign .colon) :: shift (e.2.words Strength.test)) := fun e he =>
    ((h e he).1.phrase _).thenApart ((h e he).2.phrase _) rfl
  have hwords : (ofForm (.dict entries)).words Strength.test
      = enclosed .lbrace .rbrace (separated (entryRows entries)) := rfl
  rw [text, hwords, written_enclosed, entryRows_eq, written_separated (.rows hrow), List.map_map]
  have hentry : ∀ e ∈ entries, written (e.1.words Strength.test
      ++ tight (.sign .colon) :: shift (e.2.words Strength.test)) = e.1.text ++ ": " ++ e.2.text := by
    intro e he
    have hcolon : (Token.sign .colon).spelling ++ " " = ": " := rfl
    rw [written_append, written_cons, written_shift ((h e he).2.phrase _), ← @String.append_assoc _ " ",
      hcolon, ← String.append_assoc]
    rfl
  rw [← List.map_congr_left hentry]
  rfl

theorem text_neg {form : ExprForm Expr} (h : Strength.sign ≤ form.strength) :
    (ofForm (.unary .neg (ofForm form))).text = "-" ++ written form.words := by
  have hwords : (ofForm (.unary .neg (ofForm form))).words Strength.test
      = tight (.sign .minus) :: (ofForm form).words Strength.sign := rfl
  rw [text, hwords, written_cons, ofForm, words, if_neg h.not_gt]
  rfl

theorem text_single {form : ExprForm Expr} {t : Token} (hwords : form.words = [tight t])
    (hstrength : form.strength = Strength.atom) : (ofForm form).text = t.spelling := by
  rw [text, ofForm, words, if_neg (by rw [hstrength]; decide), hwords, written_tight]

theorem text_neg_single {form : ExprForm Expr} {t : Token} (hwords : form.words = [tight t])
    (hstrength : form.strength = Strength.atom) :
    (ofForm (.unary .neg (ofForm form))).text = "-" ++ t.spelling := by
  rw [text_neg (by rw [hstrength]; decide), hwords, written_tight]

end Expr

/-! ### Literals of scalars -/

namespace Value

-- The bit of the sign tells the two zeros apart.
def literalForm : Value → ExprForm Expr
  | bool b => .bool b
  | int n => if n.toInt < 0 then .unary .neg (.ofForm (.int (-n))) else .int n
  | float x => if isNegative x then .unary .neg (.ofForm (.float (-x))) else .float x
  | str s => .str s
  | _ => .none

variable {v : Value}

open NoteCell.Expr

theorem bare_literalForm (v : Value) : (ofForm v.literalForm).bare = ofForm v.literalForm := by
  rw [bare_ofForm]
  cases v
  case int | float =>
    rw [literalForm]
    split
    · rw [ExprForm.map, bare_ofForm]
      rfl
    · rfl
  all_goals rfl

theorem depth_literalForm (v : Value) : (ofForm v.literalForm).depth ≤ 2 := by
  cases v
  case int | float =>
    rw [literalForm]
    split
    · exact depth_ofForm_le (List.forall_mem_singleton.mpr (depth_leaf rfl))
    · exact (depth_leaf rfl).trans (by decide)
  all_goals exact (depth_leaf rfl).trans (by decide)

theorem legible_literalForm (hv : v.isScalar) : (ofForm v.literalForm).Legible := by
  cases v
  case nothing | bool | str => exact legible_leaf rfl trivial trivial
  case int k =>
    have hk : k ≠ Int64.minValue := of_decide_eq_true hv
    rw [literalForm]
    split
    case isTrue hneg =>
      refine legible_neg (legible_leaf rfl trivial ?_)
      change 0 ≤ (-k).toInt
      rw [toInt_neg_of_ne_minValue hk]
      omega
    case isFalse hneg => exact legible_leaf rfl trivial (not_lt.mp hneg)
  case float x =>
    rw [literalForm]
    split
    case isTrue hneg =>
      refine legible_neg (legible_leaf rfl trivial ?_)
      exact (Double.neg_lt_infinityBits hv hneg).le
    case isFalse hneg =>
      exact legible_leaf rfl trivial (Double.lt_infinityBits hv (Bool.eq_false_of_not_eq_true hneg)).le
  all_goals cases hv

theorem text_literalForm (hv : v.isScalar) (h : Heap) :
    (ofForm v.literalForm).text = h.plainText v := by
  cases v
  case nothing => rfl
  case bool b => cases b <;> rfl
  case str s =>
    rw [literalForm, text_single rfl rfl]
    rfl
  case int k =>
    have hk : k ≠ Int64.minValue := of_decide_eq_true hv
    rw [literalForm]
    split
    case isTrue hneg =>
      have hspelling : (Token.int (-k)).spelling = toString (-k.toInt) := by
        rw [Token.spelling, toInt_neg_of_ne_minValue hk]
      rw [text_neg_single rfl rfl, hspelling, ← toString_of_neg hneg]
      rfl
    case isFalse =>
      rw [text_single rfl rfl]
      rfl
  case float x =>
    change _ = Decimal.valueText x
    rw [literalForm]
    split
    case isTrue hneg =>
      rw [text_neg_single rfl rfl, Decimal.valueText_of_isNegative hv hneg,
        Decimal.spelling_float (Double.neg_lt_infinityBits hv hneg)]
    case isFalse hneg =>
      rw [text_single rfl rfl, Decimal.spelling_float]
      exact Double.lt_infinityBits hv (Bool.eq_false_of_not_eq_true hneg)
  all_goals cases hv

end Value

/-! ### Literals -/

-- The literal of data that is at most so many containers deep.
def Heap.literal (h : Heap) : Nat → Value → Expr
  | n + 1, .list id => .ofForm (.list ((h.items (.list id)).map (h.literal n)))
  | n + 1, .tuple id => .ofForm (.tuple ((h.items (.tuple id)).map (h.literal n)))
  | n + 1, .dict id => .ofForm (.dict ((h.dict id).map fun e => (h.literal n e.1, h.literal n e.2)))
  | _, v => .ofForm v.literalForm

namespace Heap

variable {h h' : Heap} {n m : Nat} {v w : Value}

theorem literal_of_isScalar (hv : v.isScalar) (h : Heap) (n : Nat) :
    h.literal n v = .ofForm v.literalForm := by
  cases v
  case list | tuple | dict => cases hv
  all_goals cases n <;> rfl

-- More levels than there are change nothing.
theorem Data.literal_eq (hv : h.Data n v) (hle : n ≤ m) : h.literal m v = h.literal n v := by
  induction hv generalizing m
  case scalar hv => rw [literal_of_isScalar hv, literal_of_isScalar hv]
  all_goals obtain ⟨m, rfl⟩ : ∃ k, m = k + 1 := ⟨m - 1, by omega⟩
  case list ih | tuple ih =>
    rw [literal, literal, List.map_congr_left fun w hw => ih w hw (Nat.le_of_succ_le_succ hle)]
  case dict ihkeys ihvalues =>
    have hentries : ∀ e ∈ h.dict _, (h.literal m e.1, h.literal m e.2) = _ := fun e he => by
      rw [ihkeys e he (Nat.le_of_succ_le_succ hle), ihvalues e he (Nat.le_of_succ_le_succ hle)]
    rw [literal, literal, List.map_congr_left hentries]

theorem map_eq_of_forall₂ {α β γ : Type} {f : α → γ} {g : β → γ} {as : List α} {bs : List β}
    (h : List.Forall₂ (fun a b => g b = f a) as bs) : bs.map g = as.map f := by
  induction h
  case nil => rfl
  case cons hab _ ih => rw [List.map_cons, List.map_cons, hab, ih]

-- A copy has the same literal.
theorem Data.literal_copy (hv : h.Data n v) (hvw : h.Copies h' v w) :
    h'.literal n w = h.literal n v := by
  induction hv generalizing w
  case scalar n v hv => rw [hvw.eq_of_isScalar hv, literal_of_isScalar hv, literal_of_isScalar hv]
  case list n _ _ _ ih =>
    have hrow := hvw.items
    obtain ⟨j, rfl, -⟩ := hvw.eq_list
    rw [literal, literal, map_eq_of_forall₂ (forall₂_imp_mem (fun a ha b _ hab => ih a ha hab) hrow)]
  case tuple n _ _ _ ih =>
    have hrow := hvw.items
    obtain ⟨j, rfl, -⟩ := hvw.eq_tuple
    rw [literal, literal, map_eq_of_forall₂ (forall₂_imp_mem (fun a ha b _ hab => ih a ha hab) hrow)]
  case dict n i _ _ _ _ _ ihkeys ihvalues =>
    obtain ⟨j, rfl, -⟩ := hvw.eq_dict
    have hentries : List.Forall₂ (fun e e' => (h'.literal n e'.1, h'.literal n e'.2)
        = (h.literal n e.1, h.literal n e.2)) (h.dict i) (h'.dict j) :=
      forall₂_imp_mem (fun e he e' _ hcopy => by
        rw [ihkeys e he hcopy.1, ihvalues e he hcopy.2]) hvw.entries
    rw [literal, literal, map_eq_of_forall₂ hentries]

-- A literal is its own shape.
theorem bare_literal (h : Heap) (n : Nat) (v : Value) : (h.literal n v).bare = h.literal n v := by
  induction n generalizing v
  case zero => exact Value.bare_literalForm v
  case succ n ih =>
    cases v
    case list | tuple =>
      simp only [literal, Expr.bare_ofForm, ExprForm.map, List.map_map, Function.comp_def, ih]
    case dict =>
      simp only [literal, Expr.bare_ofForm, ExprForm.map, List.map_map, Function.comp_def, ih]
    all_goals exact Value.bare_literalForm _

theorem mem_children_dict {f : Value → Expr} {entries : Entries} {c : Expr}
    (hc : c ∈ (ExprForm.dict (entries.map fun e => (f e.1, f e.2))).children) :
    ∃ e ∈ entries, c = f e.1 ∨ c = f e.2 := by
  simp only [ExprForm.children, List.flatMap_map, List.mem_flatMap] at hc
  obtain ⟨e, he, hc⟩ := hc
  exact ⟨e, he, by simpa using hc⟩

theorem Data.legible_literal (hv : h.Data n v) : (h.literal n v).Legible := by
  induction hv
  case scalar hv =>
    rw [literal_of_isScalar hv]
    exact Value.legible_literalForm hv
  case list ih | tuple ih => exact .node ⟨trivial, trivial⟩ (List.forall_mem_map.mpr ih)
  case dict ihkeys ihvalues =>
    refine .node ⟨trivial, trivial⟩ fun c hc => ?_
    obtain ⟨e, he, hc | hc⟩ := mem_children_dict hc
    · exact hc ▸ ihkeys e he
    · exact hc ▸ ihvalues e he

theorem Data.lexable_literal (hv : h.Data n v) : (h.literal n v).Lexable :=
  hv.legible_literal.imp fun _ _ => And.right

theorem Data.regular_literal (hv : h.Data n v) : (h.literal n v).Regular :=
  hv.legible_literal.imp fun _ _ => And.left

theorem depth_literal (h : Heap) (n : Nat) (v : Value) : (h.literal n v).depth ≤ n + 2 := by
  induction n generalizing v
  case zero => exact Value.depth_literalForm v
  case succ n ih =>
    cases v
    case list | tuple => exact Expr.depth_ofForm_le (List.forall_mem_map.mpr fun w _ => ih w)
    case dict =>
      refine Expr.depth_ofForm_le fun c hc => ?_
      obtain ⟨e, -, hc | hc⟩ := mem_children_dict hc
      · exact hc ▸ ih e.1
      · exact hc ▸ ih e.2
    all_goals exact (Value.depth_literalForm _).trans (by omega)

/-! ### Texts of data -/

theorem reprAt_of_isScalar (hv : v.isScalar) (h : Heap) (room : Nat) (around : List Value) :
    h.reprAt room around v = h.plainText v := by
  cases v
  case list | tuple | dict => cases hv
  all_goals cases room <;> rfl

-- What stands around data is never that data again, so no dots are written.
theorem Data.reprAt_eq {room : Nat} {around : List Value} (hv : h.Data n v) (hroom : n ≤ room)
    (haround : ∀ u ∈ around, ¬ h.Data n u) : h.reprAt room around v = (h.literal n v).text := by
  induction n generalizing room around v
  case zero =>
    cases hv with
    | scalar _ hv => rw [reprAt_of_isScalar hv, literal_of_isScalar hv, Value.text_literalForm hv]
  case succ n ih =>
    have habove : ∀ u ∈ around, ¬ h.Data n u := fun u hu hdata => haround u hu (hdata.mono n.le_succ)
    obtain ⟨room, rfl⟩ : ∃ k, room = k + 1 := ⟨room - 1, by omega⟩
    by_cases hlow : h.Data n v
    · rw [hlow.literal_eq n.le_succ]
      exact ih hlow (by omega) habove
    have habove' : ∀ u ∈ v :: around, ¬ h.Data n u := List.forall_mem_cons.mpr ⟨hlow, habove⟩
    have hnew : ¬ around.contains v := fun hmem =>
      haround v (List.contains_iff_mem.mp hmem) hv
    cases hv with
    | scalar _ hv => exact absurd (.scalar n hv) hlow
    | list hid hitems =>
      have hlexable := List.forall_mem_map.mpr fun w hw => (hitems w hw).lexable_literal
      have hrow := List.map_congr_left fun w hw =>
        ih (hitems w hw) (Nat.le_of_succ_le_succ hroom) habove'
      rw [reprAt, if_neg hnew, literal, Expr.text_list hlexable, List.map_map]
      exact congrArg (fun row => "[" ++ commaSeparated row ++ "]") hrow
    | tuple hid hitems =>
      have hlexable := List.forall_mem_map.mpr fun w hw => (hitems w hw).lexable_literal
      have hrow := List.map_congr_left fun w hw =>
        ih (hitems w hw) (Nat.le_of_succ_le_succ hroom) habove
      rw [reprAt, literal, Expr.text_tuple hlexable, List.map_map]
      exact congrArg tupleText hrow
    | @dict _ id hid hhashable hdistinct hkeys hvalues =>
      have hlexable : ∀ e ∈ (h.dict id).map fun e => (h.literal n e.1, h.literal n e.2),
          e.1.Lexable ∧ e.2.Lexable :=
        List.forall_mem_map.mpr fun e he => ⟨(hkeys e he).lexable_literal, (hvalues e he).lexable_literal⟩
      have hrow : ∀ e ∈ h.dict id, _ = (h.literal n e.1).text ++ ": " ++ (h.literal n e.2).text :=
        fun e he => by
          rw [← ih (hkeys e he) (Nat.le_of_succ_le_succ hroom) habove',
            ← ih (hvalues e he) (Nat.le_of_succ_le_succ hroom) habove']
      rw [reprAt, if_neg hnew, literal, Expr.text_dict hlexable, List.map_map]
      exact congrArg (fun row => "\x7b" ++ commaSeparated row ++ "\x7d") (List.map_congr_left hrow)

theorem Data.repr_eq (hv : h.Data n v) (hn : n ≤ nestingLimit) : h.repr v = (h.literal n v).text :=
  hv.reprAt_eq (by omega) (List.forall_mem_nil _)

end Heap

/-! ### Reading texts of data -/

namespace Cell

-- A cell of one expression.
def ofExpr (e : Expr) : Cell := ⟨[.node ⟨0, .unknown, 0⟩ (.expr e)], 0⟩

variable {e : Expr}

theorem lines_ofExpr (e : Expr) : (ofExpr e).lines = [⟨0, e.words Strength.test⟩] := by
  rw [ofExpr, lines, Stmt.blockLines, Stmt.lines]
  rfl

theorem text_ofExpr (e : Expr) : (ofExpr e).text = e.text := by
  rw [text, chars, lines_ofExpr, List.map_singleton, List.intercalate_singleton]
  rfl

theorem writable_ofExpr (hregular : e.Regular) (hlexable : e.Lexable) : (ofExpr e).Writable where
  regular := List.forall_mem_singleton.mpr
    (.node ⟨trivial, List.forall_mem_singleton.mpr hregular⟩ (List.forall_mem_nil _))
  lexable := List.forall_mem_singleton.mpr
    (.node ⟨trivial, List.forall_mem_singleton.mpr hlexable⟩ (List.forall_mem_nil _))

theorem fits_ofExpr (hdepth : e.depth ≤ maxExprNesting) : (ofExpr e).Fits where
  stmts := by
    refine List.forall_mem_singleton.mpr
      (.node ⟨List.forall_mem_singleton.mpr hdepth, ?_⟩ (List.forall_mem_nil _))
    rw [Stmt.depth_node]
    refine (Expr.nestingOver_le.mpr ?_).trans (show maxExprNesting + 1 ≤ maxStmtNesting by decide)
    exact List.forall_mem_singleton.mpr hdepth
  lines := by
    intro l hl
    have hroomy : ∀ s ∈ (ofExpr e).body, s.All fun _ form => form.Roomy (Layout.maxBrackets - 1) :=
      List.forall_mem_singleton.mpr (.node
        ⟨List.forall_mem_singleton.mpr hdepth, List.forall_mem_nil _⟩ (List.forall_mem_nil _))
    have hshallow := (shallow_lines hroomy l hl).le
    rw [lines_ofExpr, List.mem_singleton] at hl
    exact ⟨hl ▸ Nat.zero_le _, hshallow⟩

-- A cell of the shape of one expression is one statement, that expression.
theorem eq_expr_of_bare {c : Cell} (h : c.bare = (ofExpr e).bare) :
    ∃ info e', c.body = [.node info (.expr e')] ∧ e'.bare = e.bare := by
  obtain ⟨⟨info, form⟩, hbody, hbare⟩ := List.map_eq_singleton_iff.mp h
  rw [Stmt.bare_node, Stmt.bare_node] at hbare
  injection hbare with _ hform
  cases form
  case expr e' =>
    injection hform with hform
    exact ⟨info, e', hbody, hform⟩
  all_goals cases hform

end Cell

-- The text of data that does not nest too deeply is read as its literal.
theorem Heap.Data.parse_repr {h : Heap} {n : Nat} {v : Value} (hv : h.Data n v)
    (hn : n + 2 ≤ maxExprNesting) : ∃ c info e, parse (h.repr v) = .ok c
      ∧ c.body = [.node info (.expr e)] ∧ e.bare = h.literal n v := by
  have hread := (Cell.writable_ofExpr hv.regular_literal hv.lexable_literal).parse_text
  rw [Cell.text_ofExpr, ← hv.repr_eq ((Nat.le_add_right n 2).trans (hn.trans (by decide)))] at hread
  cases hparse : parse (h.repr v) with
  | error e =>
    rw [hparse] at hread
    exact absurd (Cell.fits_ofExpr ((h.depth_literal n v).trans hn)) hread
  | ok c =>
    rw [hparse] at hread
    obtain ⟨info, e, hbody, hbare⟩ := Cell.eq_expr_of_bare hread.2
    exact ⟨c, info, e, rfl, hbody, hbare.trans (h.bare_literal n v)⟩

end NoteCell
