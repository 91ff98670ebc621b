import NoteCell.Parsing.Cursor
import NoteCell.Tree.Basic

/-!
Reading expressions. Every rule hands the rest of the work to rules that bind tighter, from the
conditional down to names and brackets. The fuel bounds how many rules may be open at once.
-/
namespace NoteCell

-- The deepest expression a cell may hold.
def maxExprNesting : Nat := 200

namespace Token

def augmented? : Token → Option BinaryOp
  | .sign .plusAssign => some .add
  | .sign .minusAssign => some .sub
  | .sign .starAssign => some .mul
  | .sign .slashAssign => some .div
  | .sign .doubleSlashAssign => some .floorDiv
  | .sign .percentAssign => some .mod
  | .sign .doubleStarAssign => some .pow
  | _ => none

-- How tightly a token binds the expression before it: from `0` for what ends every expression to
-- `6` for what extends a primary. No other token can follow an expression.
def binding? : Token → Option Nat
  | .newline => some 0
  | .word k =>
    match k with
    | .if_ | .else_ | .or_ => some 1
    | .and_ => some 2
    | .not_ | .in_ | .is_ => some 3
    | _ => none
  | .sign s =>
    match s with
    | .eqEq | .notEq | .less | .lessEq | .greater | .greaterEq | .plus | .minus => some 3
    | .star | .slash | .doubleSlash | .percent => some 4
    | .doubleStar => some 5
    | .lparen | .lbracket | .dot => some 6
    | .lbrace => none
    | _ => some 0
  | _ => none

def startsExpression : Token → Bool
  | .name _ | .int _ | .float _ | .str _ => true
  | .word k =>
    match k with
    | .true_ | .false_ | .none_ | .not_ | .await_ => true
    | _ => false
  | .sign s =>
    match s with
    | .plus | .minus | .lparen | .lbracket | .lbrace => true
    | _ => false
  | _ => false

end Token

-- What may follow an expression that binds at `level`.
def mayFollow (level : Nat) (t : Option Token) : Bool :=
  match t >>= Token.binding? with
  | some b => b ≤ level
  | none => false

-- Operators that group to the left, in families of one precedence.
inductive Family where
  | or | and | sum | product
deriving DecidableEq, Repr

inductive Joint where
  | logical (op : LogicalOp)
  | binary (op : BinaryOp)
deriving DecidableEq, Repr

def Joint.form (left right : Expr) : Joint → ExprForm Expr
  | logical op => .logical op left right
  | binary op => .binary op left right

namespace Family

def level : Family → Nat
  | or => 1
  | and => 2
  | sum => 3
  | product => 4

def joint? : Family → Token → Option Joint
  | or, .word .or_ => some (.logical .or)
  | and, .word .and_ => some (.logical .and)
  | sum, .sign .plus => some (.binary .add)
  | sum, .sign .minus => some (.binary .sub)
  | product, .sign .star => some (.binary .mul)
  | product, .sign .slash => some (.binary .div)
  | product, .sign .doubleSlash => some (.binary .floorDiv)
  | product, .sign .percent => some (.binary .mod)
  | _, _ => none

end Family

def comparison? : Token → Option CompareOp
  | .sign .eqEq => some .eq
  | .sign .notEq => some .notEq
  | .sign .less => some .less
  | .sign .lessEq => some .lessEq
  | .sign .greater => some .greater
  | .sign .greaterEq => some .greaterEq
  | .word .in_ => some .isIn
  | .word .not_ => some .notIn
  | .word .is_ => some .is
  | _ => none

-- An argument of a call as it is read.
inductive Argument where
  | positional (value : Expr)
  | keyword (name : String) (value : Expr)

-- Positional arguments come first and no keyword comes twice.
def splitArguments (args : List Expr) (keywords : List (String × Expr)) :
    List Argument → Except SyntaxFault (List Expr × List (String × Expr))
  | [] => .ok (args, keywords)
  | .positional value :: rest =>
    if keywords.isEmpty then splitArguments (args ++ [value]) keywords rest
    else .error .positionalAfterKeyword
  | .keyword name value :: rest =>
    if keywords.any (·.1 = name) then .error (.repeatedKeyword name)
    else splitArguments args (keywords ++ [(name, value)]) rest

namespace Parser

-- An expression from `start` to the end of what has been read.
def makeExprBefore (follows : Option Token → Bool) (form : ExprForm Expr) (start : Nat) :
    Parser Expr := do
  let e := Expr.build form (.between start (← stop))
  if e.info.nesting ≤ maxExprNesting then return e
  else refuse follows .exprTooDeep start

def makeExpr (level : Nat) (form : ExprForm Expr) (start : Nat) : Parser Expr :=
  makeExprBefore (mayFollow level) form start

-- The operator of a comparison; two of them are two words long.
def compareOp? : Parser (Option CompareOp) := do
  match (← peek?) >>= comparison? with
  | some .notIn =>
    advance
    word .in_
    return some .notIn
  | some .is =>
    advance
    return some (if ← accept (.word .not_) then .isNot else .is)
  | some op =>
    advance
    return some op
  | none => return none

-- Literals that stand side by side are one.
def strings : Nat → Parser String
  | 0 => return ""
  | n + 1 => do
    match ← peek? with
    | some (.str s) =>
      advance
      return s ++ (← strings n)
    | _ => return ""

mutual

def expression : Nat → Parser Expr
  | 0 => misplaced
  | n + 1 => do
    let at_ ← start
    let body ← family n .or
    if ← accept (.word .if_) then
      let test ← family n .or
      word .else_
      let orelse ← expression n
      makeExpr 0 (.conditional test body orelse) at_
    else return body

def family : Nat → Family → Parser Expr
  | 0, _ => misplaced
  | n + 1, f => do
    let at_ ← start
    let left ← operand n f
    joined n f at_ left

def operand : Nat → Family → Parser Expr
  | 0, _ => misplaced
  | n + 1, f =>
    match f with
    | .or => family n .and
    | .and => negation n
    | .sum => family n .product
    | .product => factor n

-- What follows `left` in a family.
def joined : Nat → Family → Nat → Expr → Parser Expr
  | 0, _, _, _ => misplaced
  | n + 1, f, at_, left => do
    match (← peek?) >>= f.joint? with
    | some joint =>
      advance
      let right ← operand n f
      let e ← makeExpr f.level (joint.form left right) at_
      joined n f at_ e
    | none => return left

def negation : Nat → Parser Expr
  | 0 => misplaced
  | n + 1 => do
    let at_ ← start
    if ← accept (.word .not_) then
      let e ← negation n
      makeExpr 2 (.unary .not e) at_
    else comparison n

def comparison : Nat → Parser Expr
  | 0 => misplaced
  | n + 1 => do
    let at_ ← start
    let left ← family n .sum
    match ← comparisons n with
    | [] => return left
    | rest => makeExpr 2 (.compare left rest) at_

def comparisons : Nat → Parser (List (CompareOp × Expr))
  | 0 => misplaced
  | n + 1 => do
    match ← compareOp? with
    | some op =>
      let e ← family n .sum
      return (op, e) :: (← comparisons n)
    | none => return []

def factor : Nat → Parser Expr
  | 0 => misplaced
  | n + 1 => do
    let at_ ← start
    if ← accept (.sign .minus) then
      let e ← factor n
      makeExpr 4 (.unary .neg e) at_
    else if ← accept (.sign .plus) then
      let e ← factor n
      makeExpr 4 (.unary .pos e) at_
    else power n

def power : Nat → Parser Expr
  | 0 => misplaced
  | n + 1 => do
    let at_ ← start
    let base ← awaited n
    if ← accept (.sign .doubleStar) then
      let exponent ← factor n
      makeExpr 4 (.binary .pow base exponent) at_
    else return base

def awaited : Nat → Parser Expr
  | 0 => misplaced
  | n + 1 => do
    let at_ ← start
    if ← accept (.word .await_) then
      let value ← primary n
      makeExpr 5 (.await value) at_
    else primary n

def primary : Nat → Parser Expr
  | 0 => misplaced
  | n + 1 => do
    let at_ ← start
    let e ← atom n
    extended n at_ e

-- What follows `e` in a primary.
def extended : Nat → Nat → Expr → Parser Expr
  | 0, _, _ => misplaced
  | n + 1, at_, e => do
    if ← accept (.sign .dot) then
      let attr ← identifier
      extended n at_ (← makeExpr 6 (.member e attr) at_)
    else if ← accept (.sign .lparen) then
      let given ← arguments n
      sign .rparen
      match splitArguments [] [] given with
      | .ok (args, keywords) => extended n at_ (← makeExpr 6 (.call e args keywords) at_)
      | .error fault => refuse (mayFollow 6) fault at_
    else if ← accept (.sign .lbracket) then
      let index ← expression n
      sign .rbracket
      extended n at_ (← makeExpr 6 (.subscript e index) at_)
    else return e

def atom : Nat → Parser Expr
  | 0 => misplaced
  | n + 1 => do
    let at_ ← start
    match ← peek? with
    | some (.name s) =>
      advance
      makeExpr 6 (.name s) at_
    | some (.float x) =>
      advance
      makeExpr 6 (.float x) at_
    | some (.str _) =>
      let s ← strings (n + 1)
      makeExpr 6 (.str s) at_
    | some (.word .true_) =>
      advance
      makeExpr 6 (.bool true) at_
    | some (.word .false_) =>
      advance
      makeExpr 6 (.bool false) at_
    | some (.word .none_) =>
      advance
      makeExpr 6 .none at_
    | some (.sign .lparen) =>
      advance
      if ← accept (.sign .rparen) then makeExpr 6 (.tuple []) at_
      else
        let first ← expression n
        if ← accept (.sign .comma) then
          let rest ← elements n
          sign .rparen
          makeExpr 6 (.tuple (first :: rest)) at_
        else
          sign .rparen
          return first
    | some (.sign .lbracket) =>
      advance
      let items ← elements n
      sign .rbracket
      makeExpr 6 (.list items) at_
    | some (.sign .lbrace) =>
      advance
      let items ← entries n
      sign .rbrace
      makeExpr 6 (.dict items) at_
    | some (.int k) =>
      advance
      makeExpr 6 (.int k) at_
    | _ => misplaced

-- Expressions between commas; a comma may end them.
def elements : Nat → Parser (List Expr)
  | 0 => misplaced
  | n + 1 => do
    if ((← peek?).map Token.startsExpression).getD false then
      let e ← expression n
      if ← accept (.sign .comma) then return e :: (← elements n)
      else return [e]
    else return []

def entries : Nat → Parser (List (Expr × Expr))
  | 0 => misplaced
  | n + 1 => do
    if ((← peek?).map Token.startsExpression).getD false then
      let key ← expression n
      sign .colon
      let value ← expression n
      if ← accept (.sign .comma) then return (key, value) :: (← entries n)
      else return [(key, value)]
    else return []

def arguments : Nat → Parser (List Argument)
  | 0 => misplaced
  | n + 1 => do
    if ((← peek?).map Token.startsExpression).getD false then
      let a ← argument n
      if ← accept (.sign .comma) then return a :: (← arguments n)
      else return [a]
    else return []

def argument : Nat → Parser Argument
  | 0 => misplaced
  | n + 1 => do
    let at_ ← start
    let target ← expression n
    if ← accept (.sign .assign) then
      let value ← expression n
      match target.form with
      | .name s => return .keyword s value
      | _ =>
        refuse (fun t => t = some (.sign .rparen) || t = some (.sign .comma)) .keywordTarget at_
    else return .positional target

end

end Parser
end NoteCell
