import NoteCell.Text.Quoted
import NoteCell.Token.Basic
import NoteCell.Tree.Basic

/-!
Canonical text. A tree is written as lines of tokens, one statement a line, with four blanks for
each open block, single blanks where they belong, and only the parentheses that the grammar needs.
No line feed stands at the end.
-/
namespace NoteCell

-- The source text of a token. Infinity is written as a number too large to be finite.
def Token.spelling : Token → String
  | .name s => s
  | .int n => toString n.toInt
  | .float x => if x.isInf then "1e309" else Decimal.valueText x
  | .str s => Quoted.text s
  | .word k => k.text
  | .sign s => s.text
  | .newline | .indent | .dedent => ""

-- A token in a line, and whether a blank stands before it.
structure Word where
  spaced : Bool
  token : Token
deriving DecidableEq

structure Line where
  depth : Nat
  words : List Word
deriving DecidableEq

namespace Word

def tight (t : Token) : Word := ⟨false, t⟩

def apart (t : Token) : Word := ⟨true, t⟩

def chars (w : Word) : List Char :=
  (if w.spaced then [' '] else []) ++ w.token.spelling.toList

-- Sets words apart from what stands before them.
def shift : List Word → List Word
  | [] => []
  | w :: ws => apart w.token :: ws

-- Rows of words with commas between them.
def separated : List (List Word) → List Word
  | [] => []
  | [row] => row
  | row :: rows => row ++ tight (.sign .comma) :: shift (separated rows)

def enclosed (opening closing : Sign) (ws : List Word) : List Word :=
  tight (.sign opening) :: ws ++ [tight (.sign closing)]

end Word

def Line.chars (l : Line) : List Char :=
  List.replicate (4 * l.depth) ' ' ++ l.words.flatMap Word.chars

/-! ### Expressions -/

-- How strongly the parts of an expression hold together, the loosest first.
namespace Strength

def tuple : Nat := 0
def test : Nat := 1
def or : Nat := 2
def and : Nat := 3
def not : Nat := 4
def comparison : Nat := 5
def sum : Nat := 6
def product : Nat := 7
def sign : Nat := 8
def power : Nat := 9
def await : Nat := 10
def atom : Nat := 11

end Strength

def BinaryOp.strength : BinaryOp → Nat
  | add | sub => Strength.sum
  | mul | div | floorDiv | mod => Strength.product
  | pow => Strength.power

def BinaryOp.sign : BinaryOp → Sign
  | add => .plus
  | sub => .minus
  | mul => .star
  | div => .slash
  | floorDiv => .doubleSlash
  | mod => .percent
  | pow => .doubleStar

def BinaryOp.assignSign : BinaryOp → Sign
  | add => .plusAssign
  | sub => .minusAssign
  | mul => .starAssign
  | div => .slashAssign
  | floorDiv => .doubleSlashAssign
  | mod => .percentAssign
  | pow => .doubleStarAssign

-- The least strength of the left and of the right operand.
def BinaryOp.operandStrengths (op : BinaryOp) : Nat × Nat :=
  match op with
  | pow => (Strength.await, Strength.sign)
  | _ => (op.strength, op.strength + 1)

def LogicalOp.strength : LogicalOp → Nat
  | .or => Strength.or
  | .and => Strength.and

def LogicalOp.keyword : LogicalOp → Keyword
  | .or => .or_
  | .and => .and_

def UnaryOp.strength : UnaryOp → Nat
  | .not => Strength.not
  | .neg | .pos => Strength.sign

def UnaryOp.token : UnaryOp → Token
  | .not => .word .not_
  | .neg => .sign .minus
  | .pos => .sign .plus

def CompareOp.tokens : CompareOp → List Token
  | eq => [.sign .eqEq]
  | notEq => [.sign .notEq]
  | less => [.sign .less]
  | lessEq => [.sign .lessEq]
  | greater => [.sign .greater]
  | greaterEq => [.sign .greaterEq]
  | isIn => [.word .in_]
  | notIn => [.word .not_, .word .in_]
  | is => [.word .is_]
  | isNot => [.word .is_, .word .not_]

-- An empty tuple is a pair of brackets, not a row of commas.
def ExprForm.strength {α : Type} : ExprForm α → Nat
  | tuple (_ :: _) => Strength.tuple
  | conditional .. => Strength.test
  | logical op _ _ => op.strength
  | unary op _ => op.strength
  | compare .. => Strength.comparison
  | binary op _ _ => op.strength
  | await _ => Strength.await
  | _ => Strength.atom

def Expr.strength (e : Expr) : Nat := e.form.strength

-- An attribute of an integer needs brackets, because `1.real` starts with a float.
def Expr.ownerStrength (e : Expr) : Nat :=
  match e.form with
  | .int _ => Strength.atom + 1
  | _ => Strength.atom

open Word

mutual

-- An expression in a place that holds at least as strongly as `context`.
def Expr.words (context : Nat) : Expr → List Word
  | .node _ form =>
    if form.strength < context then enclosed .lparen .rparen form.words else form.words

def ExprForm.words : ExprForm Expr → List Word
  | .name s => [tight (.name s)]
  | .int n => [tight (.int n)]
  | .float x => [tight (.float x)]
  | .str s => [tight (.str s)]
  | .bool true => [tight (.word .true_)]
  | .bool false => [tight (.word .false_)]
  | .none => [tight (.word .none_)]
  | .list items => enclosed .lbracket .rbracket (separated (Expr.rows items))
  | .tuple [] => enclosed .lparen .rparen []
  | .tuple [e] => e.words Strength.test ++ [tight (.sign .comma)]
  | .tuple items => separated (Expr.rows items)
  | .dict entries => enclosed .lbrace .rbrace (separated (Expr.entryRows entries))
  | .binary op left right =>
    left.words op.operandStrengths.1 ++ apart (.sign op.sign)
      :: shift (right.words op.operandStrengths.2)
  | .unary op operand =>
    let ws := operand.words op.strength
    tight op.token :: if op = .not then shift ws else ws
  | .logical op left right =>
    left.words op.strength ++ apart (.word op.keyword) :: shift (right.words (op.strength + 1))
  | .compare left rest =>
    left.words (Strength.comparison + 1) ++ Expr.comparisonWords rest
  | .conditional test body orelse =>
    body.words Strength.or
      ++ apart (.word .if_) :: shift (test.words Strength.or)
      ++ apart (.word .else_) :: shift (orelse.words Strength.test)
  | .call func args keywords =>
    func.words Strength.atom
      ++ enclosed .lparen .rparen (separated (Expr.rows args ++ Expr.keywordRows keywords))
  | .member value attr =>
    value.words value.ownerStrength ++ [tight (.sign .dot), tight (.name attr)]
  | .subscript value index =>
    value.words Strength.atom ++ enclosed .lbracket .rbracket (index.words Strength.test)
  | .await value => tight (.word .await_) :: shift (value.words Strength.atom)

def Expr.rows : List Expr → List (List Word)
  | [] => []
  | e :: es => e.words Strength.test :: Expr.rows es

def Expr.entryRows : List (Expr × Expr) → List (List Word)
  | [] => []
  | (k, v) :: es =>
    (k.words Strength.test ++ tight (.sign .colon) :: shift (v.words Strength.test))
      :: Expr.entryRows es

def Expr.keywordRows : List (String × Expr) → List (List Word)
  | [] => []
  | (s, v) :: es =>
    (tight (.name s) :: tight (.sign .assign) :: v.words Strength.test) :: Expr.keywordRows es

def Expr.comparisonWords : List (CompareOp × Expr) → List Word
  | [] => []
  | (op, e) :: es =>
    op.tokens.map apart ++ shift (e.words (Strength.comparison + 1)) ++ Expr.comparisonWords es

end

/-! ### Statements -/

def Param.words (p : Param) : List Word :=
  tight (.name p.name) :: match p.default? with
    | some e => tight (.sign .assign) :: e.words Strength.test
    | none => []

def dottedWords : List String → List Word
  | [] => []
  | [s] => [tight (.name s)]
  | s :: rest => tight (.name s) :: tight (.sign .dot) :: dottedWords rest

def Alias.words (a : Alias) : List Word :=
  dottedWords a.path ++ match a.asname with
    | some s => [apart (.word .as_), apart (.name s)]
    | none => []

-- A target followed by its sign.
def targetWords (target : Expr) : List Word :=
  target.words Strength.tuple ++ [apart (.sign .assign)]

def chainWords : List (List Word) → List Word
  | [] => []
  | row :: rows => row ++ shift (chainWords rows)

-- A keyword and what it is about.
def keywordWords (k : Keyword) (value : Option Expr) : List Word :=
  tight (.word k) :: match value with
    | some e => shift (e.words Strength.test)
    | none => []

-- A keyword, its test, and the colon that opens a block.
def headWords (k : Keyword) (test : Expr) : List Word :=
  keywordWords k (some test) ++ [tight (.sign .colon)]

-- The words of a simple statement, or of the first line of a compound one.
def StmtForm.words : StmtForm Stmt → List Word
  | .expr e => e.words Strength.test
  | .assign targets value => chainWords (targets.map targetWords ++ [value.words Strength.test])
  | .augAssign target op value =>
    target.words Strength.tuple ++ apart (.sign op.assignSign) :: shift (value.words Strength.test)
  | .ifElse test _ _ => headWords .if_ test
  | .whileLoop test _ => headWords .while_ test
  | .forEach target iter _ =>
    tight (.word .for_) :: shift (target.words Strength.tuple)
      ++ apart (.word .in_) :: shift (iter.words Strength.test) ++ [tight (.sign .colon)]
  | .define name params _ isAsync =>
    (if isAsync then [tight (.word .async_), apart (.word .def_)] else [tight (.word .def_)])
      ++ apart (.name name) :: enclosed .lparen .rparen (separated (params.map Param.words))
      ++ [tight (.sign .colon)]
  | .ret value => keywordWords .return_ value
  | .raise exc => keywordWords .raise_ exc
  | .imports names => tight (.word .import_) :: shift (separated (names.map Alias.words))
  | .importFrom path names =>
    tight (.word .from_) :: shift (dottedWords path)
      ++ apart (.word .import_) :: shift (separated (names.map Alias.words))
  | .pass => [tight (.word .pass_)]
  | .breakLoop => [tight (.word .break_)]
  | .continueLoop => [tight (.word .continue_)]

mutual

def Stmt.lines (depth : Nat) : Stmt → List Line
  | .node _ form => ⟨depth, form.words⟩ :: form.bodyLines depth

-- The lines after the first one.
def StmtForm.bodyLines (depth : Nat) : StmtForm Stmt → List Line
  | .ifElse _ body orelse => Stmt.blockLines (depth + 1) body ++ Stmt.elseLines depth orelse
  | .whileLoop _ body => Stmt.blockLines (depth + 1) body
  | .forEach _ _ body => Stmt.blockLines (depth + 1) body
  | .define _ _ body _ => Stmt.blockLines (depth + 1) body
  | _ => []

def Stmt.blockLines (depth : Nat) : List Stmt → List Line
  | [] => []
  | s :: rest => s.lines depth ++ Stmt.blockLines depth rest

-- A condition that stands alone in an else branch continues the chain.
def Stmt.elseLines (depth : Nat) : List Stmt → List Line
  | [] => []
  | [.node _ (.ifElse test body orelse)] =>
    ⟨depth, headWords .elif_ test⟩
      :: (Stmt.blockLines (depth + 1) body ++ Stmt.elseLines depth orelse)
  | s :: rest =>
    ⟨depth, [tight (.word .else_), tight (.sign .colon)]⟩
      :: (s.lines (depth + 1) ++ Stmt.blockLines (depth + 1) rest)

end

namespace Cell

def lines (c : Cell) : List Line := Stmt.blockLines 0 c.body

def chars (c : Cell) : List Char := List.intercalate ['\n'] (c.lines.map Line.chars)

def text (c : Cell) : String := String.ofList c.chars

end Cell
end NoteCell
