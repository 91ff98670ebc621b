import NoteCell.Proofs.Printing.Words

/-!
Segments of printed text. A row of words is made of the words that a form has of its own and of those
of its parts, each in a place that asks for a certain strength.
-/
namespace NoteCell

inductive Segment where
  | text (ws : List Word)
  -- A part, and whether a blank stands before it.
  | part (spaced : Bool) (context : Nat) (e : Expr)

namespace Segment

def words : Segment → List Word
  | text ws => ws
  | part spaced context e => if spaced then Word.shift (e.words context) else e.words context

-- The parts of some segments, with the strengths of their places.
def parts (segs : List Segment) : List (Nat × Expr) :=
  segs.filterMap fun
    | text _ => none
    | part _ context e => some (context, e)

def shift : List Segment → List Segment
  | [] => []
  | text [] :: rest => shift rest
  | text ws :: rest => text (Word.shift ws) :: rest
  | part _ context e :: rest => part true context e :: rest

def separated : List (List Segment) → List Segment
  | [] => []
  | [row] => row
  | row :: rows => row ++ text [Word.tight (.sign .comma)] :: shift (separated rows)

def bracketed (opening closing : Sign) (segs : List Segment) : List Segment :=
  text [Word.tight (.sign opening)] :: segs ++ [text [Word.tight (.sign closing)]]

def chain : List (List Segment) → List Segment
  | [] => []
  | row :: rows => row ++ shift (chain rows)

end Segment

open Segment Word Strength

def Expr.item (e : Expr) : List Segment := [part false test e]

def Expr.entry (entry : Expr × Expr) : List Segment :=
  [part false test entry.1, text [tight (.sign .colon)], part true test entry.2]

def Expr.keyword (keyword : String × Expr) : List Segment :=
  [text [tight (.name keyword.1), tight (.sign .assign)], part false test keyword.2]

def Expr.comparison (compared : CompareOp × Expr) : List Segment :=
  [text (compared.1.tokens.map apart), part true sum compared.2]

def ExprForm.segments : ExprForm Expr → List Segment
  | .list items => bracketed .lbracket .rbracket (separated (items.map Expr.item))
  | .tuple [e] => [part false test e, text [tight (.sign .comma)]]
  | .tuple (e :: d :: es) => separated ((e :: d :: es).map Expr.item)
  | .dict entries => bracketed .lbrace .rbrace (separated (entries.map Expr.entry))
  | .binary op left right =>
    [part false op.operandStrengths.1 left, text [apart (.sign op.sign)],
      part true op.operandStrengths.2 right]
  | .unary op operand => [text [tight op.token], part (op = .not) op.strength operand]
  | .logical op left right =>
    [part false op.strength left, text [apart (.word op.keyword)], part true (op.strength + 1) right]
  | .compare left rest => part false sum left :: rest.flatMap Expr.comparison
  | .conditional test body orelse =>
    [part false Strength.or body, text [apart (.word .if_)], part true Strength.or test,
      text [apart (.word .else_)], part true Strength.test orelse]
  | .call func args keywords =>
    part false atom func
      :: bracketed .lparen .rparen (separated (args.map Expr.item ++ keywords.map Expr.keyword))
  | .member value attr =>
    [part false value.ownerStrength value, text [tight (.sign .dot), tight (.name attr)]]
  | .subscript value index => part false atom value :: bracketed .lbracket .rbracket index.item
  | .await value => [text [tight (.word .await_)], part true atom value]
  | form => [text form.words]

-- The segments of an expression in a place that asks for the given strength.
def Expr.segments (context : Nat) : Expr → List Segment
  | .node _ form =>
    if form.strength < context then bracketed .lparen .rparen form.segments else form.segments

def Param.segments (p : Param) : List Segment :=
  match p.default? with
  | some e => Expr.keyword (p.name, e)
  | none => [text [tight (.name p.name)]]

def keywordSegments (k : Keyword) (value : Option Expr) : List Segment :=
  text [tight (.word k)] :: value.toList.map (part true test)

def headSegments (k : Keyword) (condition : Expr) : List Segment :=
  keywordSegments k (some condition) ++ [text [tight (.sign .colon)]]

def targetSegments (target : Expr) : List Segment :=
  [part false tuple target, text [apart (.sign .assign)]]

def StmtForm.segments : StmtForm Stmt → List Segment
  | .expr e => e.item
  | .assign targets value => chain (targets.map targetSegments ++ [value.item])
  | .augAssign target op value =>
    [part false tuple target, text [apart (.sign op.assignSign)], part true test value]
  | .ifElse condition _ _ => headSegments .if_ condition
  | .whileLoop condition _ => headSegments .while_ condition
  | .forEach target iter _ =>
    [text [tight (.word .for_)], part true tuple target, text [apart (.word .in_)],
      part true test iter, text [tight (.sign .colon)]]
  | .define name params _ isAsync =>
    text ((if isAsync then [tight (.word .async_), apart (.word .def_)] else [tight (.word .def_)])
        ++ [apart (.name name)])
      :: bracketed .lparen .rparen (separated (params.map Param.segments))
      ++ [text [tight (.sign .colon)]]
  | .ret value => keywordSegments .return_ value
  | .raise exc => keywordSegments .raise_ exc
  | form => [text form.words]

/-! ### Segments and words -/

theorem Expr.words_ne_nil (e : Expr) (context : Nat) : e.words context ≠ [] := by
  obtain ⟨info, form⟩ := e
  intro hnil
  have htokens : (node info form).tokens context = [] := congrArg tokensOf hnil
  obtain ⟨t, ts, hform, -⟩ := form.opens_tokens
  rw [tokens_node, hform] at htokens
  split at htokens <;> cases htokens

namespace Segment

def rowWords (segs : List Segment) : List Word := segs.flatMap words

variable (segs segs' : List Segment)

@[simp] theorem rowWords_nil : rowWords [] = [] := rfl

@[simp] theorem rowWords_cons (s : Segment) : rowWords (s :: segs) = s.words ++ rowWords segs :=
  List.flatMap_cons

@[simp] theorem rowWords_append : rowWords (segs ++ segs') = rowWords segs ++ rowWords segs' :=
  List.flatMap_append

@[simp] theorem words_text (ws : List Word) : (text ws).words = ws := rfl

@[simp] theorem words_tightPart (context : Nat) (e : Expr) :
    (part false context e).words = e.words context := rfl

@[simp] theorem words_spacedPart (context : Nat) (e : Expr) :
    (part true context e).words = Word.shift (e.words context) := rfl

theorem shift_append {ws : List Word} (hne : ws ≠ []) (vs : List Word) :
    Word.shift (ws ++ vs) = Word.shift ws ++ vs := by
  obtain ⟨w, ws, rfl⟩ := List.exists_cons_of_ne_nil hne
  rfl

theorem shift_shift (ws : List Word) : Word.shift (Word.shift ws) = Word.shift ws := by
  cases ws <;> rfl

theorem shift_ne_nil {ws : List Word} (hne : ws ≠ []) : Word.shift ws ≠ [] := by
  obtain ⟨w, ws, rfl⟩ := List.exists_cons_of_ne_nil hne
  exact List.cons_ne_nil _ ws

@[simp] theorem rowWords_shift : rowWords (shift segs) = Word.shift (rowWords segs) := by
  induction segs using shift.induct
  case case1 => rfl
  case case2 rest ih => simpa [shift] using ih
  case case3 ws rest hne =>
    rw [shift.eq_3 _ _ hne, rowWords_cons, rowWords_cons, words_text, words_text,
      shift_append (by simpa using hne)]
  case case4 spaced context e rest =>
    have hne := e.words_ne_nil context
    rw [shift, rowWords_cons, rowWords_cons, words_spacedPart]
    cases spaced with
    | false => rw [words_tightPart, shift_append hne]
    | true => rw [words_spacedPart, shift_append (shift_ne_nil hne), shift_shift]

@[simp] theorem rowWords_separated (rows : List (List Segment)) :
    rowWords (separated rows) = Word.separated (rows.map rowWords) := by
  induction rows using separated.induct
  case case1 => rfl
  case case2 => rfl
  case case3 row rows hne ih =>
    have hne' : rows.map rowWords = [] → False := fun h => hne (List.map_eq_nil_iff.mp h)
    rw [separated.eq_3 _ _ hne, List.map_cons, Word.separated.eq_3 _ _ hne', ← ih]
    simp

@[simp] theorem rowWords_bracketed (opening closing : Sign) :
    rowWords (bracketed opening closing segs) = Word.enclosed opening closing (rowWords segs) := by
  simp [bracketed, Word.enclosed]

@[simp] theorem rowWords_chain (rows : List (List Segment)) :
    rowWords (chain rows) = chainWords (rows.map rowWords) := by
  induction rows <;> simp_all [chain, chainWords]

end Segment

@[simp] theorem Expr.rowWords_item (e : Expr) : rowWords e.item = e.words test := by simp [item]

@[simp] theorem Expr.rowWords_entry (entry : Expr × Expr) : rowWords (Expr.entry entry)
    = entry.1.words test ++ tight (.sign .colon) :: Word.shift (entry.2.words test) := by
  simp [Expr.entry]

@[simp] theorem Expr.rowWords_keyword (keyword : String × Expr) : rowWords (Expr.keyword keyword)
    = tight (.name keyword.1) :: tight (.sign .assign) :: keyword.2.words test := by
  simp [Expr.keyword]

theorem Expr.rowWords_comparisons (rest : List (CompareOp × Expr)) :
    rowWords (rest.flatMap Expr.comparison) = Expr.comparisonWords rest := by
  induction rest
  case nil => rfl
  case cons compared rest ih =>
    rw [List.flatMap_cons, rowWords_append, ih, comparisonWords]
    simp [comparison]
    rfl

theorem ExprForm.rowWords_segments (form : ExprForm Expr) : rowWords form.segments = form.words := by
  cases form
  case list | dict | call =>
    simp [segments, words, Expr.rows_eq, Expr.entryRows_eq, Expr.keywordRows_eq, Function.comp_def]
  case tuple items =>
    obtain _ | ⟨e, _ | ⟨d, es⟩⟩ := items
    · exact List.append_nil _
    · simp [segments, words]
    · simp [segments, words, Expr.rows_eq, Function.comp_def]
  case unary op operand => cases op <;> simp [segments, words, Segment.words]
  case compare left rest =>
    simp only [segments, words, rowWords_cons, words_tightPart, Expr.rowWords_comparisons]
    rfl
  case binary | logical | conditional | member | subscript | await => simp [segments, words]
  all_goals exact List.append_nil _

theorem Expr.rowWords_segments (context : Nat) (e : Expr) :
    rowWords (e.segments context) = e.words context := by
  obtain ⟨info, form⟩ := e
  rw [segments, words]
  split <;> simp [form.rowWords_segments]

@[simp] theorem Param.rowWords_segments (p : Param) : rowWords p.segments = p.words := by
  rw [segments, words]
  cases p.default? <;> simp

theorem rowWords_keywordSegments (k : Keyword) (value : Option Expr) :
    rowWords (keywordSegments k value) = keywordWords k value := by
  cases value <;> simp [keywordSegments, keywordWords]

theorem rowWords_headSegments (k : Keyword) (condition : Expr) :
    rowWords (headSegments k condition) = headWords k condition := by
  rw [headSegments, rowWords_append, rowWords_keywordSegments]
  rfl

theorem StmtForm.rowWords_segments (form : StmtForm Stmt) : rowWords form.segments = form.words := by
  cases form
  case expr e => exact e.rowWords_item
  case assign targets value =>
    have htargets : rowWords ∘ targetSegments = targetWords := by
      funext target
      simp [targetSegments, targetWords]
    simp [segments, words, htargets]
  case ifElse | whileLoop => exact rowWords_headSegments _ _
  case ret | raise => exact rowWords_keywordSegments _ _
  case define name params body isAsync =>
    have hparams : rowWords ∘ Param.segments = Param.words := funext Param.rowWords_segments
    simp [segments, words, hparams]
  case augAssign | forEach => simp [segments, words]
  all_goals exact List.append_nil _

/-! ### Parts -/

namespace Segment

variable (segs segs' : List Segment)

@[simp] theorem parts_nil : parts [] = [] := rfl

@[simp] theorem parts_text (ws : List Word) : parts (text ws :: segs) = parts segs := rfl

@[simp] theorem parts_part (spaced : Bool) (context : Nat) (e : Expr) :
    parts (part spaced context e :: segs) = (context, e) :: parts segs := rfl

@[simp] theorem parts_append : parts (segs ++ segs') = parts segs ++ parts segs' :=
  List.filterMap_append

@[simp] theorem parts_shift : parts (shift segs) = parts segs := by
  induction segs using shift.induct <;> simp_all [shift]

@[simp] theorem parts_separated (rows : List (List Segment)) :
    parts (separated rows) = rows.flatMap parts := by
  induction rows using separated.induct <;> simp_all [separated]

@[simp] theorem parts_bracketed (opening closing : Sign) :
    parts (bracketed opening closing segs) = parts segs := by
  simp [bracketed]

@[simp] theorem parts_chain (rows : List (List Segment)) :
    parts (chain rows) = rows.flatMap parts := by
  induction rows <;> simp_all [chain]

end Segment

def ExprForm.parts (form : ExprForm Expr) : List (Nat × Expr) := Segment.parts form.segments

def StmtForm.parts (form : StmtForm Stmt) : List (Nat × Expr) := Segment.parts form.segments

@[simp] theorem Expr.parts_item (e : Expr) : parts e.item = [(test, e)] := rfl

@[simp] theorem Expr.parts_entry (entry : Expr × Expr) :
    parts (Expr.entry entry) = [(test, entry.1), (test, entry.2)] := rfl

@[simp] theorem Expr.parts_keyword (keyword : String × Expr) :
    parts (Expr.keyword keyword) = [(test, keyword.2)] := rfl

@[simp] theorem Expr.parts_comparison (compared : CompareOp × Expr) :
    parts (Expr.comparison compared) = [(sum, compared.2)] := rfl

theorem Expr.parts_comparisons (rest : List (CompareOp × Expr)) :
    parts (rest.flatMap Expr.comparison) = rest.map fun compared => (sum, compared.2) := by
  induction rest <;> simp_all

@[simp] theorem Expr.parts_items (items : List Expr) :
    (items.map Expr.item).flatMap Segment.parts = items.map fun e => (test, e) := by
  induction items <;> simp_all

@[simp] theorem Expr.parts_keywords (keywords : List (String × Expr)) :
    (keywords.map Expr.keyword).flatMap Segment.parts = keywords.map fun k => (test, k.2) := by
  induction keywords <;> simp_all

namespace ExprForm

theorem parts_list (items : List Expr) : (list items).parts = items.map fun e => (test, e) := by
  simp [parts, segments]

theorem parts_tuple (items : List Expr) : (tuple items).parts = items.map fun e => (test, e) := by
  obtain _ | ⟨e, _ | ⟨d, es⟩⟩ := items
  · rfl
  · rfl
  · simp only [parts, segments, parts_separated, Expr.parts_items]

theorem parts_dict (entries : List (Expr × Expr)) : (dict entries).parts
    = entries.flatMap fun entry => [(test, entry.1), (test, entry.2)] := by
  simp [parts, segments, List.flatMap_map]

theorem parts_compare (left : Expr) (rest : List (CompareOp × Expr)) : (compare left rest).parts
    = (sum, left) :: rest.map fun compared => (sum, compared.2) := by
  simp [parts, segments, Expr.parts_comparisons]

theorem parts_call (func : Expr) (args : List Expr) (keywords : List (String × Expr)) :
    (call func args keywords).parts
      = (atom, func) :: (args.map (fun e => (test, e)) ++ keywords.map fun k => (test, k.2)) := by
  simp [parts, segments]

theorem snd_parts (form : ExprForm Expr) : form.parts.map (·.2) ⊆ form.children := by
  cases form
  case list => simp [parts_list, children, Function.comp_def]
  case tuple => simp [parts_tuple, children, Function.comp_def]
  case dict => simp [parts_dict, children, List.map_flatMap]
  case compare => simp [parts_compare, children, Function.comp_def]
  case call => simp [parts_call, children, Function.comp_def]
  all_goals simp [parts, segments, children]

end ExprForm

@[simp] theorem Param.parts_segments (p : Param) :
    Segment.parts p.segments = p.default?.toList.map fun e => (test, e) := by
  rw [segments]
  cases p.default? <;> rfl

namespace StmtForm

theorem parts_assign (targets : List Expr) (value : Expr) : (assign targets value).parts
    = targets.map (fun target => (Strength.tuple, target)) ++ [(test, value)] := by
  have htargets : (targets.map targetSegments).flatMap Segment.parts
      = targets.map fun target => (Strength.tuple, target) := by
    rw [List.flatMap_map, List.map_eq_flatMap]
    rfl
  simp only [parts, segments, parts_chain, List.flatMap_append, htargets]
  rfl

theorem parts_define (name : String) (params : List Param) (body : List Stmt) (isAsync : Bool) :
    (define name params body isAsync).parts
      = params.flatMap fun p => p.default?.toList.map fun e => (test, e) := by
  simp [parts, segments, List.flatMap_map]

theorem snd_parts (form : StmtForm Stmt) : form.parts.map (·.2) ⊆ form.exprs := by
  cases form
  case assign => simp [parts_assign, exprs, Function.comp_def]
  case define name params body isAsync =>
    rw [parts_define]
    intro e he
    obtain ⟨q, hq, rfl⟩ := List.mem_map.mp he
    obtain ⟨p, hp, hq⟩ := List.mem_flatMap.mp hq
    obtain ⟨d, hd, rfl⟩ := List.mem_map.mp hq
    exact List.mem_filterMap.mpr ⟨p, hp, Option.mem_toList.mp hd⟩
  case ret value | raise value => cases value <;> simp [parts, segments, keywordSegments, exprs]
  all_goals simp [parts, segments, exprs, headSegments, keywordSegments]

end StmtForm

end NoteCell
