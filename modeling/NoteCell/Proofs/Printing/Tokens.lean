import Mathlib
import NoteCell.Parsing.Expression
import NoteCell.Tree.Printing

/-!
The tokens of canonical text. Blanks aside, a printed expression is a row of tokens whose first one
shows how strongly the expression holds together. In a printed statement a block stands between its
indent and its dedent, and a condition alone in an else branch continues the chain.
-/
namespace NoteCell

def tokensOf (ws : List Word) : List Token := ws.map (·.token)

-- Rows of tokens with commas between them.
def commaed : List (List Token) → List Token
  | [] => []
  | [row] => row
  | row :: rows => row ++ .sign .comma :: commaed rows

section

variable (w : Word) (ws vs : List Word)

@[simp] theorem tokensOf_nil : tokensOf [] = [] := rfl

@[simp] theorem tokensOf_cons : tokensOf (w :: ws) = w.token :: tokensOf ws := rfl

@[simp] theorem tokensOf_append : tokensOf (ws ++ vs) = tokensOf ws ++ tokensOf vs :=
  List.map_append

@[simp] theorem Word.token_tight (t : Token) : (tight t).token = t := rfl

@[simp] theorem Word.token_apart (t : Token) : (apart t).token = t := rfl

@[simp] theorem tokensOf_shift : tokensOf (Word.shift ws) = tokensOf ws := by
  cases ws <;> rfl

@[simp] theorem tokensOf_apart (ts : List Token) : tokensOf (ts.map Word.apart) = ts := by
  simp [tokensOf, Function.comp_def]

@[simp] theorem tokensOf_enclosed (opening closing : Sign) :
    tokensOf (Word.enclosed opening closing ws)
      = .sign opening :: tokensOf ws ++ [.sign closing] := by
  simp [Word.enclosed]

@[simp] theorem tokensOf_separated (rows : List (List Word)) :
    tokensOf (Word.separated rows) = commaed (rows.map tokensOf) := by
  induction rows using Word.separated.induct
  case case1 => rfl
  case case2 => rfl
  case case3 row rows hne ih =>
    cases rows
    case nil => exact absurd rfl hne
    case cons => simpa [Word.separated, commaed] using ih

end

def Expr.tokens (context : Nat) (e : Expr) : List Token := tokensOf (e.words context)

@[simp] theorem Expr.tokensOf_words (context : Nat) (e : Expr) :
    tokensOf (e.words context) = e.tokens context := rfl

def ExprForm.tokens (form : ExprForm Expr) : List Token := tokensOf form.words

theorem Expr.tokens_node (context : Nat) (info : NodeInfo) (form : ExprForm Expr) :
    (node info form).tokens context
      = if form.strength < context then .sign .lparen :: form.tokens ++ [.sign .rparen]
        else form.tokens := by
  rw [tokens, words]
  split <;> simp [ExprForm.tokens]

theorem Expr.rows_eq (items : List Expr) :
    Expr.rows items = items.map (Expr.words Strength.test) := by
  induction items <;> simp_all [Expr.rows]

theorem Expr.entryRows_eq (entries : List (Expr × Expr)) :
    Expr.entryRows entries = entries.map fun (k, v) =>
      k.words Strength.test ++ Word.tight (.sign .colon) :: Word.shift (v.words Strength.test) := by
  induction entries <;> simp_all [Expr.entryRows]

theorem Expr.keywordRows_eq (keywords : List (String × Expr)) :
    Expr.keywordRows keywords = keywords.map fun (s, v) =>
      Word.tight (.name s) :: Word.tight (.sign .assign) :: v.words Strength.test := by
  induction keywords <;> simp_all [Expr.keywordRows]

-- A row of commas has one behind a single item.
def tupleTokens : List (List Token) → List Token
  | [row] => row ++ [.sign .comma]
  | rows => commaed rows

def entryTokens (entry : Expr × Expr) : List Token :=
  entry.1.tokens Strength.test ++ .sign .colon :: entry.2.tokens Strength.test

def keywordTokens (keyword : String × Expr) : List Token :=
  .name keyword.1 :: .sign .assign :: keyword.2.tokens Strength.test

def comparisonTokens (part : CompareOp × Expr) : List Token :=
  part.1.tokens ++ part.2.tokens Strength.sum

theorem Expr.tokensOf_comparisonWords (rest : List (CompareOp × Expr)) :
    tokensOf (Expr.comparisonWords rest) = rest.flatMap comparisonTokens := by
  induction rest
  case nil => rfl
  case cons part rest ih =>
    rw [Expr.comparisonWords]
    simp [ih, comparisonTokens]
    rfl

-- Nothing needs brackets where a tuple may stand without them.
theorem Expr.tokens_loosest (info : NodeInfo) (form : ExprForm Expr) :
    (node info form).tokens Strength.tuple = form.tokens := by
  rw [tokens_node]
  exact if_neg (Nat.not_lt_zero _)

namespace ExprForm

open Strength

theorem tokens_list (items : List Expr) :
    tokens (.list items)
      = .sign .lbracket :: commaed (items.map (Expr.tokens test)) ++ [.sign .rbracket] := by
  simp [tokens, words, Expr.rows_eq, Function.comp_def]

theorem tokens_tuple {items : List Expr} (h : items ≠ []) :
    tokens (.tuple items) = tupleTokens (items.map (Expr.tokens test)) := by
  match items, h with
  | [e], _ => simp [tokens, words, tupleTokens]
  | e :: d :: es, _ =>
    simp [tokens, words, tupleTokens, Expr.rows_eq, Function.comp_def]

theorem tokens_dict (entries : List (Expr × Expr)) :
    tokens (.dict entries)
      = .sign .lbrace :: commaed (entries.map entryTokens) ++ [.sign .rbrace] := by
  simp [tokens, words, Expr.entryRows_eq, Function.comp_def]
  rfl

theorem tokens_binary (op : BinaryOp) (left right : Expr) :
    tokens (.binary op left right) = left.tokens op.operandStrengths.1
      ++ .sign op.sign :: right.tokens op.operandStrengths.2 := by
  simp [tokens, words]

theorem tokens_unary (op : UnaryOp) (operand : Expr) :
    tokens (.unary op operand) = op.token :: operand.tokens op.strength := by
  simp only [tokens, words]
  split <;> simp

theorem tokens_logical (op : LogicalOp) (left right : Expr) :
    tokens (.logical op left right)
      = left.tokens op.strength ++ .word op.keyword :: right.tokens (op.strength + 1) := by
  simp [tokens, words]

theorem tokens_compare (left : Expr) (rest : List (CompareOp × Expr)) :
    tokens (.compare left rest)
      = left.tokens sum ++ rest.flatMap comparisonTokens := by
  simp [tokens, words, Expr.tokensOf_comparisonWords]
  rfl

theorem tokens_conditional (condition body orelse : Expr) :
    tokens (.conditional condition body orelse)
      = body.tokens Strength.or ++ .word .if_ :: condition.tokens Strength.or
        ++ .word .else_ :: orelse.tokens test := by
  simp [tokens, words]

theorem tokens_call (func : Expr) (args : List Expr) (keywords : List (String × Expr)) :
    tokens (.call func args keywords) = func.tokens atom ++ .sign .lparen
      :: (commaed (args.map (Expr.tokens test) ++ keywords.map keywordTokens)
        ++ [.sign .rparen]) := by
  simp [tokens, words, Expr.rows_eq, Expr.keywordRows_eq, Function.comp_def]
  rfl

theorem tokens_member (value : Expr) (attr : String) :
    tokens (.member value attr)
      = value.tokens value.ownerStrength ++ [.sign .dot, .name attr] := by
  simp [tokens, words]

theorem tokens_subscript (value index : Expr) :
    tokens (.subscript value index)
      = value.tokens atom ++ .sign .lbracket :: (index.tokens test ++ [.sign .rbracket]) := by
  simp [tokens, words]

theorem tokens_await (value : Expr) :
    tokens (.await value) = .word .await_ :: value.tokens atom := by
  simp [tokens, words]

end ExprForm

/-! ### First tokens -/

-- Whether a token may begin an expression that holds at least as strongly as `context`.
def Token.opens (context : Nat) : Token → Bool
  | .word .not_ => context ≤ Strength.not
  | .sign .plus | .sign .minus => context ≤ Strength.sign
  | .word .await_ => context ≤ Strength.await
  | t => t.startsExpression

theorem Token.opens_mono {t : Token} {k l : Nat} (h : t.opens l) (hkl : k ≤ l) : t.opens k := by
  unfold opens at *
  split <;> simp_all <;> omega

def Opens (context : Nat) (ts : List Token) : Prop :=
  ∃ t rest, ts = t :: rest ∧ t.opens context

theorem Opens.append {context : Nat} {ts : List Token} (h : Opens context ts) (us : List Token) :
    Opens context (ts ++ us) :=
  have ⟨t, rest, hts, ht⟩ := h
  ⟨t, rest ++ us, by rw [hts, List.cons_append], ht⟩

theorem Opens.mono {k l : Nat} {ts : List Token} (h : Opens l ts) (hkl : k ≤ l) : Opens k ts :=
  have ⟨t, rest, hts, ht⟩ := h
  ⟨t, rest, hts, t.opens_mono ht hkl⟩

theorem Opens.length_pos {context : Nat} {ts : List Token} (h : Opens context ts) :
    0 < ts.length := by
  have ⟨t, rest, hts, _⟩ := h
  simp [hts]

theorem ExprForm.strength_le (form : ExprForm Expr) : form.strength ≤ Strength.atom := by
  have le {k : Nat} : Nat.ble k Strength.atom = true → k ≤ Strength.atom :=
    Nat.le_of_ble_eq_true
  cases form
  case tuple items => cases items <;> exact le rfl
  case binary op _ _ => cases op <;> exact le rfl
  case unary op _ => cases op <;> exact le rfl
  case logical op _ _ => cases op <;> exact le rfl
  all_goals exact le rfl

-- Nothing is looser than a tuple.
theorem ExprForm.eq_tuple_of_strength {form : ExprForm Expr} (h : form.strength = 0) :
    ∃ e es, form = .tuple (e :: es) := by
  cases form
  case tuple items =>
    cases items
    case nil => cases h
    case cons e es => exact ⟨e, es, rfl⟩
  case binary op _ _ => cases op <;> cases h
  case unary op _ => cases op <;> cases h
  case logical op _ _ => cases op <;> cases h
  all_goals cases h

-- What an expression begins with when it stands in a place that it need not be enclosed for.
theorem Expr.opens_tokens (e : Expr) (context : Nat) (h : context ≤ Strength.atom + 1) :
    Opens context (e.tokens context) := by
  induction e using childrenInduction generalizing context
  case h info form ih =>
    rw [tokens_node]
    split
    case isTrue => exact ⟨_, _, rfl, rfl⟩
    case isFalse hs =>
      have below {c : Expr} (hc : c ∈ form.children) {k : Nat} (hk : form.strength ≤ k)
          (ha : k ≤ Strength.atom + 1) : Opens context (c.tokens k) :=
        (ih c hc k ha).mono (by omega)
      have le {k l : Nat} : Nat.ble k l = true → k ≤ l := Nat.le_of_ble_eq_true
      cases form
      case tuple items =>
        cases items
        case nil => exact ⟨_, _, rfl, rfl⟩
        case cons e es =>
          rw [ExprForm.tokens_tuple (List.cons_ne_nil e es)]
          have he := below (c := e) (by simp [ExprForm.children]) (Nat.zero_le Strength.test) (le rfl)
          cases es <;> exact he.append _
      case binary op left right =>
        rw [ExprForm.tokens_binary]
        refine (below (by simp [ExprForm.children]) ?_ ?_).append _ <;> cases op <;> exact le rfl
      case unary op operand =>
        rw [ExprForm.tokens_unary]
        refine ⟨_, _, rfl, ?_⟩
        cases op <;> exact decide_eq_true (Nat.not_lt.mp hs)
      case logical op left right =>
        rw [ExprForm.tokens_logical]
        refine (below (by simp [ExprForm.children]) ?_ ?_).append _ <;> cases op <;> exact le rfl
      case compare left rest =>
        rw [ExprForm.tokens_compare]
        exact (below (by simp [ExprForm.children]) (le rfl) (le rfl)).append _
      case conditional condition body orelse =>
        rw [ExprForm.tokens_conditional, List.append_assoc]
        exact (below (by simp [ExprForm.children]) (le rfl) (le rfl)).append _
      case call func args keywords =>
        rw [ExprForm.tokens_call]
        exact (below (by simp [ExprForm.children]) (le rfl) (le rfl)).append _
      case member value attr =>
        rw [ExprForm.tokens_member]
        refine (below (by simp [ExprForm.children]) ?_ ?_).append _ <;>
          (unfold ownerStrength; split) <;> exact le rfl
      case subscript value index =>
        rw [ExprForm.tokens_subscript]
        exact (below (by simp [ExprForm.children]) (le rfl) (le rfl)).append _
      case await value =>
        rw [ExprForm.tokens_await]
        exact ⟨_, _, rfl, decide_eq_true (Nat.not_lt.mp hs)⟩
      case bool b => cases b <;> exact ⟨_, _, rfl, rfl⟩
      all_goals exact ⟨_, _, rfl, rfl⟩

theorem ExprForm.opens_tokens (form : ExprForm Expr) : Opens form.strength form.tokens := by
  have h := (Expr.node ⟨0, .unknown, 0⟩ form).opens_tokens form.strength
    (Nat.le_succ_of_le form.strength_le)
  rwa [Expr.tokens_node, if_neg (Nat.lt_irrefl _)] at h

/-! ### Statements -/

open Strength

def StmtForm.tokens (form : StmtForm Stmt) : List Token := tokensOf form.words

-- A colon and a block of statements with the given tokens.
def blockTokens (body : List Token) : List Token :=
  .newline :: .indent :: body ++ [.dedent]

mutual

def Stmt.tokens : Stmt → List Token
  | .node _ form => form.tokens ++ form.restTokens

-- The tokens after the first line, which they end.
def StmtForm.restTokens : StmtForm Stmt → List Token
  | .ifElse _ body orelse => blockTokens (Stmt.rowTokens body) ++ Stmt.elseTokens orelse
  | .whileLoop _ body | .forEach _ _ body | .define _ _ body _ => blockTokens (Stmt.rowTokens body)
  | _ => [.newline]

def Stmt.rowTokens : List Stmt → List Token
  | [] => []
  | s :: rest => s.tokens ++ Stmt.rowTokens rest

def Stmt.elseTokens : List Stmt → List Token
  | [] => []
  | [.node _ (.ifElse test body orelse)] =>
    tokensOf (headWords .elif_ test) ++ blockTokens (Stmt.rowTokens body) ++ Stmt.elseTokens orelse
  | s :: rest =>
    .word .else_ :: .sign .colon :: blockTokens (s.tokens ++ Stmt.rowTokens rest)

end

def Param.tokens (p : Param) : List Token := tokensOf p.words

def Alias.tokens (a : Alias) : List Token := tokensOf a.words

def dottedTokens : List String → List Token
  | [] => []
  | [s] => [.name s]
  | s :: rest => .name s :: .sign .dot :: dottedTokens rest

theorem tokensOf_dottedWords (path : List String) :
    tokensOf (dottedWords path) = dottedTokens path := by
  induction path using dottedWords.induct
  case case1 => rfl
  case case2 => rfl
  case case3 s rest hne ih =>
    cases rest
    case nil => exact absurd rfl hne
    case cons => simpa [dottedWords, dottedTokens] using ih

-- What stands behind a target in a chain of assignments.
def chainTokens (value : Expr) : List Expr → List Token
  | [] => value.tokens test
  | target :: targets => target.tokens tuple ++ .sign .assign :: chainTokens value targets

theorem tokensOf_chainWords (targets : List Expr) (value : Expr) :
    tokensOf (chainWords (targets.map targetWords ++ [value.words test]))
      = chainTokens value targets := by
  induction targets
  case nil => simp [chainWords, chainTokens]
  case cons target targets ih =>
    simp only [List.map_cons, List.cons_append, chainWords, tokensOf_append, tokensOf_shift, ih]
    simp [targetWords, chainTokens]

theorem tokensOf_keywordWords (k : Keyword) (value : Option Expr) :
    tokensOf (keywordWords k value) = .word k :: (value.map (Expr.tokens test)).getD [] := by
  cases value <;> simp [keywordWords]

theorem tokensOf_headWords (k : Keyword) (condition : Expr) :
    tokensOf (headWords k condition)
      = .word k :: condition.tokens test ++ [.sign .colon] := by
  simp [headWords, tokensOf_keywordWords]

namespace StmtForm

theorem tokens_expr (e : Expr) : tokens (.expr e) = e.tokens test := rfl

theorem tokens_assign (targets : List Expr) (value : Expr) :
    tokens (.assign targets value) = chainTokens value targets :=
  tokensOf_chainWords targets value

theorem tokens_augAssign (target : Expr) (op : BinaryOp) (value : Expr) :
    tokens (.augAssign target op value)
      = target.tokens tuple ++ .sign op.assignSign :: value.tokens test := by
  simp [tokens, words]

theorem tokens_ifElse (condition : Expr) (body orelse : List Stmt) :
    tokens (.ifElse condition body orelse)
      = .word .if_ :: condition.tokens test ++ [.sign .colon] :=
  tokensOf_headWords .if_ condition

theorem tokens_whileLoop (condition : Expr) (body : List Stmt) :
    tokens (.whileLoop condition body)
      = .word .while_ :: condition.tokens test ++ [.sign .colon] :=
  tokensOf_headWords .while_ condition

theorem tokens_forEach (target iter : Expr) (body : List Stmt) :
    tokens (.forEach target iter body)
      = .word .for_ :: target.tokens tuple ++ .word .in_ :: iter.tokens test ++ [.sign .colon] := by
  simp [tokens, words]

theorem tokens_define (name : String) (params : List Param) (body : List Stmt) (isAsync : Bool) :
    tokens (.define name params body isAsync)
      = (if isAsync then [.word .async_] else []) ++ .word .def_ :: .name name :: .sign .lparen
        :: commaed (params.map Param.tokens) ++ [.sign .rparen, .sign .colon] := by
  cases isAsync <;> simp [tokens, words, Function.comp_def] <;> rfl

theorem tokens_ret (value : Option Expr) :
    tokens (.ret value) = .word .return_ :: (value.map (Expr.tokens test)).getD [] :=
  tokensOf_keywordWords .return_ value

theorem tokens_raise (exc : Option Expr) :
    tokens (.raise exc) = .word .raise_ :: (exc.map (Expr.tokens test)).getD [] :=
  tokensOf_keywordWords .raise_ exc

theorem tokens_imports (names : List Alias) :
    tokens (.imports names) = .word .import_ :: commaed (names.map Alias.tokens) := by
  simp [tokens, words, Function.comp_def]
  rfl

theorem tokens_importFrom (path : List String) (names : List Alias) :
    tokens (.importFrom path names) = .word .from_ :: dottedTokens path
      ++ .word .import_ :: commaed (names.map Alias.tokens) := by
  simp [tokens, words, tokensOf_dottedWords, Function.comp_def]
  rfl

end StmtForm

theorem Param.tokens_eq (p : Param) :
    p.tokens = .name p.name
      :: (p.default?.map fun e => .sign .assign :: e.tokens test).getD [] := by
  rw [tokens, words]
  cases p.default? <;> simp

theorem Alias.tokens_eq (a : Alias) :
    a.tokens = dottedTokens a.path
      ++ (a.asname.map fun s => [.word .as_, .name s]).getD [] := by
  rw [tokens, words]
  cases a.asname <;> simp [tokensOf_dottedWords]

end NoteCell
