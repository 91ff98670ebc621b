import NoteCell.Parsing.Expression
import NoteCell.Tree.Completion

/-!
Reading statements, and with them whole cells. `parse` answers with the numbered tree of a source or
with the first error in it.
-/
namespace NoteCell

-- The deepest tree of statements and expressions a cell may hold.
def maxStmtNesting : Nat := 400

def Token.startsStatement : Token → Bool
  | .word k =>
    match k with
    | .async_ | .break_ | .continue_ | .def_ | .for_ | .from_ | .if_ | .import_ | .pass_
    | .raise_ | .return_ | .while_ => true
    | _ => (Token.word k).startsExpression
  | t => t.startsExpression

-- What may follow a simple statement.
def endsSimple (t : Option Token) : Bool :=
  t = some .newline || t = some (.sign .semicolon)

-- What may follow a compound statement.
def endsCompound : Option Token → Bool
  | some t => t = .dedent || t.startsStatement
  | none => true

def endsBareTuple (t : Option Token) : Bool :=
  endsSimple t || t = some (.sign .assign)

mutual

-- The first part of an expression to which nothing can be assigned, if there is one.
def Expr.unassignable? : Expr → Option Expr
  | .node info form =>
    match form with
    | .name _ | .member .. | .subscript .. => none
    | .tuple items | .list items => Expr.firstUnassignable? items
    | form => some (.node info form)

def Expr.firstUnassignable? : List Expr → Option Expr
  | [] => none
  | e :: es => (Expr.unassignable? e).or (Expr.firstUnassignable? es)

end

def Expr.isPlace (e : Expr) : Bool :=
  match e.form with
  | .name _ | .member .. | .subscript .. => true
  | _ => false

-- A further condition: its place, its test and its body.
structure Clause where
  location : Location
  test : Expr
  body : List Stmt

namespace Parser

def makeStmtBefore (follows : Option Token → Bool) (form : StmtForm Stmt) (location : Location) :
    Parser Stmt := do
  let s := Stmt.build form location
  if s.info.nesting ≤ maxStmtNesting then return s
  else refuse follows .stmtTooDeep (location.start.getD 0)

def makeSimple (form : StmtForm Stmt) (start : Nat) : Parser Stmt := do
  makeStmtBefore endsSimple form (.between start (← stop))

def makeCompound (form : StmtForm Stmt) (start : Nat) : Parser Stmt := do
  makeStmtBefore endsCompound form (.between start (← stop))

def startsExpression : Parser Bool :=
  return ((← peek?).map Token.startsExpression).getD false

/-! ### Simple statements -/

-- An expression or a tuple without brackets. A tuple whose one comma ends it reaches up to the
-- next token. The flag says whether it is such a tuple.
def exprList (n : Nat) : Parser (Expr × Bool) := do
  let at_ ← start
  let first ← expression n
  if ← accept (.sign .comma) then
    let rest ← elements n
    if rest.isEmpty then reachNext
    return (← makeExprBefore endsBareTuple (.tuple (first :: rest)) at_, true)
  else return (first, false)

-- `= e₁ = e₂ …`
def assigned (n : Nat) : Nat → Parser (List Expr)
  | 0 => misplaced
  | k + 1 => do
    if ← accept (.sign .assign) then
      let (e, _) ← exprList n
      return e :: (← assigned n k)
    else return []

-- The last of the expressions after `first` is the value, the others are targets.
def assignment (first : Expr) (rest : List Expr) (at_ : Nat) : Parser Stmt :=
  match rest.getLast? with
  | none => makeSimple (.expr first) at_
  | some value =>
    let targets := first :: rest.dropLast
    match targets.find? (·.unassignable?.isSome) with
    | some target =>
      refuse endsSimple (.assignTo ((target.unassignable?.getD target).describe))
        (target.info.location.start.getD at_)
    | none => makeSimple (.assign targets value) at_

def exprStatement (n : Nat) : Parser Stmt := do
  let at_ ← start
  let (first, isBareTuple) ← exprList n
  let next ← peek?
  match if isBareTuple then none else next >>= Token.augmented? with
  | some op =>
    advance
    let (value, _) ← exprList n
    if first.isPlace then makeSimple (.augAssign first op value) at_
    else refuse endsSimple (.augAssignTo first.describe) at_
  | none => assignment first (← assigned n n) at_

-- `.name.name …`
def dottedRest : Nat → Parser (List String)
  | 0 => misplaced
  | n + 1 => do
    if ← accept (.sign .dot) then
      let s ← identifier
      return s :: (← dottedRest n)
    else return []

def dottedName (n : Nat) : Parser (List String) := do
  let first ← identifier
  return first :: (← dottedRest n)

def alias_ (n : Nat) : Parser Alias := do
  let path ← dottedName n
  if ← accept (.word .as_) then return ⟨path, some (← identifier)⟩
  else return ⟨path, none⟩

def aliases : Nat → Parser (List Alias)
  | 0 => misplaced
  | n + 1 => do
    let a ← alias_ n
    if ← accept (.sign .comma) then return a :: (← aliases n)
    else return [a]

def small (n : Nat) : Parser Stmt := do
  let at_ ← start
  match ← peek? with
  | some (.word .pass_) =>
    advance
    makeSimple .pass at_
  | some (.word .break_) =>
    advance
    makeSimple .breakLoop at_
  | some (.word .continue_) =>
    advance
    makeSimple .continueLoop at_
  | some (.word .return_) =>
    advance
    if ← startsExpression then
      let (value, _) ← exprList n
      makeSimple (.ret (some value)) at_
    else makeSimple (.ret none) at_
  | some (.word .raise_) =>
    advance
    if ← startsExpression then
      let exc ← expression n
      makeSimple (.raise (some exc)) at_
    else makeSimple (.raise none) at_
  | some (.word .import_) =>
    advance
    let names ← aliases n
    makeSimple (.imports names) at_
  | some (.word .from_) =>
    advance
    let path ← dottedName n
    word .import_
    let names ← aliases n
    makeSimple (.importFrom path names) at_
  | _ => exprStatement n

-- Simple statements between semicolons; a semicolon may end them.
def smalls (n : Nat) : Nat → Parser (List Stmt)
  | 0 => misplaced
  | k + 1 => do
    let s ← small n
    if ← accept (.sign .semicolon) then
      if (← peek?) = some .newline then return [s]
      else return s :: (← smalls n k)
    else return [s]

def simple (n : Nat) : Parser (List Stmt) := do
  let statements ← smalls n n
  expect .newline
  return statements

/-! ### Compound statements -/

def targetName : Parser Expr := do
  let at_ ← start
  let s ← identifier
  makeExprBefore (fun t => t = some (.word .in_) || t = some (.sign .comma)) (.name s) at_

def targetNames : Nat → Parser (List Expr)
  | 0 => misplaced
  | n + 1 => do
    let e ← targetName
    if ← accept (.sign .comma) then return e :: (← targetNames n)
    else return [e]

def loopTarget (n : Nat) : Parser Expr := do
  let at_ ← start
  match ← targetNames n with
  | [e] => return e
  | items => makeExprBefore (· = some (.word .in_)) (.tuple items) at_

def param (n : Nat) : Parser Param := do
  let name ← identifier
  if ← accept (.sign .assign) then return ⟨name, some (← expression n)⟩
  else return ⟨name, none⟩

def params : Nat → Parser (List Param)
  | 0 => misplaced
  | n + 1 => do
    match ← peek? with
    | some (.name _) =>
      let p ← param n
      if ← accept (.sign .comma) then return p :: (← params n)
      else return [p]
    | _ => return []

-- Each clause is what the condition before it falls back on.
def chainClauses (follows : Option Token → Bool) (orelse : List Stmt) :
    List Clause → Parser (List Stmt)
  | [] => return orelse
  | c :: cs => do
    let rest ← chainClauses follows orelse cs
    return [← makeStmtBefore follows (.ifElse c.test c.body rest) c.location]

-- A block that was not opened is reported as such only at a token.
def openBlock : Parser Unit := do
  unless ← accept .indent do
    match ← peek? with
    | some _ => fun c => .error ⟨.expectedBlock, c.start⟩
    | none => misplaced

mutual

def statement : Nat → Parser (List Stmt)
  | 0 => misplaced
  | n + 1 => do
    match ← peek? with
    | some (.word .if_) => return [← conditional n]
    | some (.word .while_) => return [← whileLoop n]
    | some (.word .for_) => return [← forLoop n]
    | some (.word .def_) => return [← definition n]
    | some (.word .async_) => return [← definition n]
    | _ => simple n

def conditional : Nat → Parser Stmt
  | 0 => misplaced
  | n + 1 => do
    let at_ ← start
    word .if_
    let test ← expression n
    sign .colon
    let body ← suite n
    let cs ← clauses n
    let orelse ← if ← accept (.word .else_) then
        sign .colon
        suite n
      else pure []
    let rest ← chainClauses endsCompound orelse cs
    makeCompound (.ifElse test body rest) at_

def clauses : Nat → Parser (List Clause)
  | 0 => misplaced
  | n + 1 => do
    let at_ ← start
    if ← accept (.word .elif_) then
      let test ← expression n
      sign .colon
      let body ← suite n
      let c : Clause := ⟨.between at_ (← stop), test, body⟩
      return c :: (← clauses n)
    else return []

def whileLoop : Nat → Parser Stmt
  | 0 => misplaced
  | n + 1 => do
    let at_ ← start
    word .while_
    let test ← expression n
    sign .colon
    let body ← suite n
    makeCompound (.whileLoop test body) at_

def forLoop : Nat → Parser Stmt
  | 0 => misplaced
  | n + 1 => do
    let at_ ← start
    word .for_
    let target ← loopTarget n
    word .in_
    let iter ← expression n
    sign .colon
    let body ← suite n
    makeCompound (.forEach target iter body) at_

def definition : Nat → Parser Stmt
  | 0 => misplaced
  | n + 1 => do
    let at_ ← start
    let isAsync ← accept (.word .async_)
    word .def_
    let name ← identifier
    sign .lparen
    let ps ← params n
    sign .rparen
    sign .colon
    let body ← suite n
    makeCompound (.define name ps body isAsync) at_

-- Statements on the same line, or an indented block.
def suite : Nat → Parser (List Stmt)
  | 0 => misplaced
  | n + 1 => do
    if ← accept .newline then
      openBlock
      block n
    else simple n

-- One or more statements and the end of their block.
def block : Nat → Parser (List Stmt)
  | 0 => misplaced
  | n + 1 => do
    let first ← statement n
    if ← accept .dedent then return first
    else return first ++ (← block n)

end

-- Statements up to the end of the source.
def statements : Nat → Parser (List Stmt)
  | 0 => misplaced
  | n + 1 => do
    match ← fun c => .ok (c, c) with
    | ⟨[], none, _⟩ => return []
    | _ =>
      let first ← statement n
      return first ++ (← statements n)

end Parser

-- Every rule that is open has read a token or is one of a few between two tokens.
def parseFuel (tokens : Nat) : Nat := 32 * (tokens + 1)

def parseTokens (s : TokenStream) : Except SyntaxError Cell := do
  let (body, _) ← (Parser.statements (parseFuel s.tokens.length)).run (.ofStream s)
  return .ofBody body

def parse (source : String) : Except SyntaxError Cell := parseTokens (tokenize source)

end NoteCell
