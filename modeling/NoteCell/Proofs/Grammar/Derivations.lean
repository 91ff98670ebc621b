import NoteCell.Parsing.Statement
import NoteCell.Proofs.Parsing.Levels
import NoteCell.Tree.Printing

/-!
The grammar. A derivation from a nonterminal is built by one constructor for each of its rules. It
derives a row of tokens at their places, and its actions build a tree, unless one of them refuses.
What is derived begins with a token of a known kind, which some tokens may stand behind.
-/
namespace NoteCell.Grammar

/-! ### Terminals -/

structure Name where
  text : String
  span : Span

def Name.token (n : Name) : Located := ⟨.name n.text, n.span⟩

def word (k : Keyword) (span : Span) : Located := ⟨.word k, span⟩

def sign (s : Sign) (span : Span) : Located := ⟨.sign s, span⟩

-- Where a row of tokens starts and ends.
def startOf (ts : List Located) : Nat := (ts.head?.map (·.span.start)).getD 0

def stopOf (ts : List Located) : Nat := (ts.getLast?.map (·.span.stop)).getD 0

def placeOf (ts : List Located) : Location := .between (startOf ts) (stopOf ts)

/-! ### Actions -/

def makeExpr (location : Location) (form : ExprForm Expr) : Except SyntaxFault Expr :=
  let e := Expr.build form location
  if e.info.nesting ≤ maxExprNesting then .ok e else .error .exprTooDeep

def makeStmt (location : Location) (form : StmtForm Stmt) : Except SyntaxFault Stmt :=
  let s := Stmt.build form location
  if s.info.nesting ≤ maxStmtNesting then .ok s else .error .stmtTooDeep

def makeKeyword (target value : Expr) : Except SyntaxFault Argument :=
  match target.form with
  | .name s => .ok (.keyword s value)
  | _ => .error .keywordTarget

def makeCall (location : Location) (func : Expr) (given : List Argument) :
    Except SyntaxFault Expr := do
  let (args, keywords) ← splitArguments [] [] given
  makeExpr location (.call func args keywords)

def makeAssignment (location : Location) (first : Expr) (rest : List Expr) :
    Except SyntaxFault Stmt :=
  match rest.getLast? with
  | none => makeStmt location (.expr first)
  | some value =>
    let targets := first :: rest.dropLast
    match targets.findSome? Expr.unassignable? with
    | some part => .error (.assignTo part.describe)
    | none => makeStmt location (.assign targets value)

def makeAugmented (location : Location) (target : Expr) (op : BinaryOp) (value : Expr) :
    Except SyntaxFault Stmt :=
  if target.isPlace then makeStmt location (.augAssign target op value)
  else .error (.augAssignTo target.describe)

-- Each clause is what the condition before it falls back on.
def chain (orelse : List Stmt) : List Clause → Except SyntaxFault (List Stmt)
  | [] => .ok orelse
  | c :: cs => do
    let rest ← chain orelse cs
    return [← makeStmt c.location (.ifElse c.test c.body rest)]

/-! ### Expressions -/

-- The nonterminals for expressions, from the loosest to the tightest.
inductive Level where
  | expression
  | family (f : Family)
  | negation
  | comparison
  | factor
  | power
  | awaited
  | primary
  | atom

-- What the operators of a family join.
def operand : Family → Level
  | .or => .family .and
  | .and => .negation
  | .sum => .family .product
  | .product => .factor

inductive Symbol where
  | level (l : Level)
  -- Any number of comparison operators, each with what it compares to.
  | comparisons
  | argument
  | entry
  | parameter
  -- Items between commas; a comma may end them.
  | comma (item : Symbol)

-- What the actions build from a nonterminal.
abbrev Symbol.Value : Symbol → Type
  | level _ => Expr
  | comparisons => List (CompareOp × Expr)
  | argument => Argument
  | entry => Expr × Expr
  | parameter => Param
  | comma item => List item.Value

-- An operator that joins what a family joins.
structure Link (f : Family) where
  token : Located
  joint : Joint
  joint_eq : f.joint? token.token = some joint

structure Comparator where
  op : CompareOp
  words : List Located
  spelled : words.map (·.token) = op.tokens

inductive Derivation : Symbol → Type
  -- Expression
  | conditional (body : Derivation (.level (.family .or))) (if_ : Span)
      (test : Derivation (.level (.family .or))) (else_ : Span)
      (orelse : Derivation (.level .expression)) : Derivation (.level .expression)
  | unconditional (e : Derivation (.level (.family .or))) : Derivation (.level .expression)
  -- OrTest, AndTest, ArithExpr, Term
  | joined {f : Family} (left : Derivation (.level (.family f))) (link : Link f)
      (right : Derivation (.level (operand f))) : Derivation (.level (.family f))
  | single {f : Family} (e : Derivation (.level (operand f))) : Derivation (.level (.family f))
  -- NotTest
  | not (not_ : Span) (e : Derivation (.level .negation)) : Derivation (.level .negation)
  | affirmed (e : Derivation (.level .comparison)) : Derivation (.level .negation)
  -- Comparison
  | compared (left : Derivation (.level (.family .sum))) (op : Comparator)
      (right : Derivation (.level (.family .sum))) (rest : Derivation .comparisons) :
      Derivation (.level .comparison)
  | uncompared (e : Derivation (.level (.family .sum))) : Derivation (.level .comparison)
  | noComparisons : Derivation .comparisons
  | comparison (op : Comparator) (right : Derivation (.level (.family .sum)))
      (rest : Derivation .comparisons) : Derivation .comparisons
  -- Factor
  | minus (sign : Span) (e : Derivation (.level .factor)) : Derivation (.level .factor)
  | plus (sign : Span) (e : Derivation (.level .factor)) : Derivation (.level .factor)
  | unsigned (e : Derivation (.level .power)) : Derivation (.level .factor)
  -- Power
  | power (base : Derivation (.level .awaited)) (op : Span)
      (exponent : Derivation (.level .factor)) : Derivation (.level .power)
  | unraised (e : Derivation (.level .awaited)) : Derivation (.level .power)
  -- AwaitPrimary
  | await (await_ : Span) (e : Derivation (.level .primary)) : Derivation (.level .awaited)
  | unawaited (e : Derivation (.level .primary)) : Derivation (.level .awaited)
  -- Primary
  | member (value : Derivation (.level .primary)) (dot : Span) (attr : Name) :
      Derivation (.level .primary)
  | call (func : Derivation (.level .primary)) (opening : Span)
      (args : Derivation (.comma .argument)) (closing : Span) : Derivation (.level .primary)
  | subscript (value : Derivation (.level .primary)) (opening : Span)
      (index : Derivation (.level .expression)) (closing : Span) : Derivation (.level .primary)
  | plain (e : Derivation (.level .atom)) : Derivation (.level .primary)
  -- CallArgument
  | positional (e : Derivation (.level .expression)) : Derivation .argument
  | keyword (target : Derivation (.level .expression)) (assign : Span)
      (value : Derivation (.level .expression)) : Derivation .argument
  -- Atom
  | name (n : Name) : Derivation (.level .atom)
  | int (value : Int64) (span : Span) : Derivation (.level .atom)
  | float (value : Float) (span : Span) : Derivation (.level .atom)
  | strings (first : String × Span) (rest : List (String × Span)) : Derivation (.level .atom)
  | true_ (span : Span) : Derivation (.level .atom)
  | false_ (span : Span) : Derivation (.level .atom)
  | none_ (span : Span) : Derivation (.level .atom)
  | enclosed (opening : Span) (e : Derivation (.level .expression)) (closing : Span) :
      Derivation (.level .atom)
  | unit (opening closing : Span) : Derivation (.level .atom)
  | tuple (opening : Span) (first : Derivation (.level .expression)) (comma : Span)
      (rest : Derivation (.comma (.level .expression))) (closing : Span) :
      Derivation (.level .atom)
  | list (opening : Span) (items : Derivation (.comma (.level .expression))) (closing : Span) :
      Derivation (.level .atom)
  | dict (opening : Span) (entries : Derivation (.comma .entry)) (closing : Span) :
      Derivation (.level .atom)
  -- DictEntry
  | entry (key : Derivation (.level .expression)) (colon : Span)
      (value : Derivation (.level .expression)) : Derivation .entry
  -- Parameter
  | required (name : Name) : Derivation .parameter
  | optional (name : Name) (assign : Span) (default : Derivation (.level .expression)) :
      Derivation .parameter
  -- Comma
  | noItems {item : Symbol} : Derivation (.comma item)
  | lastItem {item : Symbol} (e : Derivation item) : Derivation (.comma item)
  | item {item : Symbol} (e : Derivation item) (comma : Span) (rest : Derivation (.comma item)) :
      Derivation (.comma item)

abbrev Expression := Derivation (.level .expression)

def stringToken (s : String × Span) : Located := ⟨.str s.1, s.2⟩

namespace Derivation

@[simp] def tokens : {s : Symbol} → Derivation s → List Located
  | _, conditional body if_ test else_ orelse =>
    body.tokens ++ word .if_ if_ :: (test.tokens ++ word .else_ else_ :: orelse.tokens)
  | _, unconditional e => e.tokens
  | _, joined left link right => left.tokens ++ link.token :: right.tokens
  | _, single e => e.tokens
  | _, not not_ e => word .not_ not_ :: e.tokens
  | _, affirmed e => e.tokens
  | _, compared left op right rest => left.tokens ++ (op.words ++ (right.tokens ++ rest.tokens))
  | _, uncompared e => e.tokens
  | _, noComparisons => []
  | _, comparison op right rest => op.words ++ (right.tokens ++ rest.tokens)
  | _, minus span e => sign .minus span :: e.tokens
  | _, plus span e => sign .plus span :: e.tokens
  | _, unsigned e => e.tokens
  | _, power base op exponent => base.tokens ++ sign .doubleStar op :: exponent.tokens
  | _, unraised e => e.tokens
  | _, await await_ e => word .await_ await_ :: e.tokens
  | _, unawaited e => e.tokens
  | _, member value dot attr => value.tokens ++ [sign .dot dot, attr.token]
  | _, call func opening args closing =>
    func.tokens ++ sign .lparen opening :: (args.tokens ++ [sign .rparen closing])
  | _, subscript value opening index closing =>
    value.tokens ++ sign .lbracket opening :: (index.tokens ++ [sign .rbracket closing])
  | _, plain e => e.tokens
  | _, positional e => e.tokens
  | _, keyword target assign value => target.tokens ++ sign .assign assign :: value.tokens
  | _, name n => [n.token]
  | _, int value span => [⟨.int value, span⟩]
  | _, float value span => [⟨.float value, span⟩]
  | _, strings first rest => stringToken first :: rest.map stringToken
  | _, true_ span => [word .true_ span]
  | _, false_ span => [word .false_ span]
  | _, none_ span => [word .none_ span]
  | _, enclosed opening e closing =>
    sign .lparen opening :: (e.tokens ++ [sign .rparen closing])
  | _, unit opening closing => [sign .lparen opening, sign .rparen closing]
  | _, tuple opening first comma rest closing =>
    sign .lparen opening
      :: (first.tokens ++ sign .comma comma :: (rest.tokens ++ [sign .rparen closing]))
  | _, list opening items closing =>
    sign .lbracket opening :: (items.tokens ++ [sign .rbracket closing])
  | _, dict opening entries closing =>
    sign .lbrace opening :: (entries.tokens ++ [sign .rbrace closing])
  | _, entry key colon value => key.tokens ++ sign .colon colon :: value.tokens
  | _, required n => [n.token]
  | _, optional n assign default => n.token :: sign .assign assign :: default.tokens
  | _, noItems => []
  | _, lastItem e => e.tokens
  | _, item e comma rest => e.tokens ++ sign .comma comma :: rest.tokens

def place {s : Symbol} (d : Derivation s) : Location := placeOf d.tokens

@[simp] def act : {s : Symbol} → Derivation s → Except SyntaxFault s.Value
  | _, d@(conditional body _ test _ orelse) => do
    let body ← body.act
    let test ← test.act
    let orelse ← orelse.act
    makeExpr d.place (.conditional test body orelse)
  | _, unconditional e => e.act
  | _, d@(joined left link right) => do
    let left ← left.act
    let right ← right.act
    makeExpr d.place (link.joint.form left right)
  | _, single e => e.act
  | _, d@(not _ e) => do makeExpr d.place (.unary .not (← e.act))
  | _, affirmed e => e.act
  | _, d@(compared left op right rest) => do
    let left ← left.act
    let right ← right.act
    let rest ← rest.act
    makeExpr d.place (.compare left ((op.op, right) :: rest))
  | _, uncompared e => e.act
  | _, noComparisons => return []
  | _, comparison op right rest => do
    let right ← right.act
    let rest ← rest.act
    return (op.op, right) :: rest
  | _, d@(minus _ e) => do makeExpr d.place (.unary .neg (← e.act))
  | _, d@(plus _ e) => do makeExpr d.place (.unary .pos (← e.act))
  | _, unsigned e => e.act
  | _, d@(power base _ exponent) => do
    let base ← base.act
    let exponent ← exponent.act
    makeExpr d.place (.binary .pow base exponent)
  | _, unraised e => e.act
  | _, d@(await _ e) => do makeExpr d.place (.await (← e.act))
  | _, unawaited e => e.act
  | _, d@(member value _ attr) => do makeExpr d.place (.member (← value.act) attr.text)
  | _, d@(call func _ args _) => do
    let func ← func.act
    let given ← args.act
    makeCall d.place func given
  | _, d@(subscript value _ index _) => do
    let value ← value.act
    let index ← index.act
    makeExpr d.place (.subscript value index)
  | _, plain e => e.act
  | _, positional e => do return Argument.positional (← e.act)
  | _, keyword target _ value => do
    let target ← target.act
    let value ← value.act
    makeKeyword target value
  | _, d@(name n) => makeExpr d.place (.name n.text)
  | _, d@(int value _) => makeExpr d.place (.int value)
  | _, d@(float value _) => makeExpr d.place (.float value)
  | _, d@(strings first rest) => makeExpr d.place (.str (String.join (first.1 :: rest.map (·.1))))
  | _, d@(true_ _) => makeExpr d.place (.bool true)
  | _, d@(false_ _) => makeExpr d.place (.bool false)
  | _, d@(none_ _) => makeExpr d.place .none
  | _, enclosed _ e _ => e.act
  | _, d@(unit _ _) => makeExpr d.place (.tuple [])
  | _, d@(tuple _ first _ rest _) => do
    let first ← first.act
    let rest ← rest.act
    makeExpr d.place (.tuple (first :: rest))
  | _, d@(list _ items _) => do makeExpr d.place (.list (← items.act))
  | _, d@(dict _ entries _) => do makeExpr d.place (.dict (← entries.act))
  | _, entry key _ value => do
    let key ← key.act
    let value ← value.act
    return (key, value)
  | _, required n => return ⟨n.text, none⟩
  | _, optional n _ default => do return ⟨n.text, some (← default.act)⟩
  | _, noItems => return []
  | _, lastItem e => do return [← e.act]
  | _, item e _ rest => do
    let e ← e.act
    let rest ← rest.act
    return e :: rest

end Derivation

/-! ### Simple statements -/

inductive TestList where
  | single (e : Expression)
  | tuple (first : Expression) (comma : Span) (rest : Derivation (.comma (.level .expression)))

namespace TestList

def tokens : TestList → List Located
  | single e => e.tokens
  | tuple first comma rest => first.tokens ++ sign .comma comma :: rest.tokens

-- No items are no tokens, and those stand where the next token starts.
def stop (next : Nat) : TestList → Nat
  | tuple _ _ .noItems => next
  | t => stopOf t.tokens

def act (next : Nat) : TestList → Except SyntaxFault Expr
  | single e => e.act
  | t@(tuple first _ rest) => do
    let first ← first.act
    let rest ← rest.act
    makeExpr (.between (startOf t.tokens) (t.stop next)) (.tuple (first :: rest))

end TestList

-- Expressions behind equals signs.
def assignedTokens (rest : List (Span × TestList)) : List Located :=
  rest.flatMap fun p => sign .assign p.1 :: p.2.tokens

def nextAssigned (next : Nat) (rest : List (Span × TestList)) : Nat :=
  (rest.head?.map (·.1.start)).getD next

def actAssigned (next : Nat) : List (Span × TestList) → Except SyntaxFault (List Expr)
  | [] => return []
  | p :: rest => do
    let e ← p.2.act (nextAssigned next rest)
    let es ← actAssigned next rest
    return e :: es

structure AugOp where
  token : Located
  op : BinaryOp
  op_eq : token.token.augmented? = some op

structure DottedName where
  first : Name
  rest : List (Span × Name)

namespace DottedName

def tokens (d : DottedName) : List Located :=
  d.first.token :: d.rest.flatMap fun p => [sign .dot p.1, p.2.token]

def path (d : DottedName) : List String := d.first.text :: d.rest.map (·.2.text)

end DottedName

structure ImportAlias where
  name : DottedName
  asname : Option (Span × Name)

namespace ImportAlias

def tokens (a : ImportAlias) : List Located :=
  a.name.tokens ++ a.asname.toList.flatMap fun p => [word .as_ p.1, p.2.token]

def value (a : ImportAlias) : Alias := ⟨a.name.path, a.asname.map (·.2.text)⟩

end ImportAlias

structure ImportAliases where
  first : ImportAlias
  rest : List (Span × ImportAlias)

namespace ImportAliases

def tokens (as : ImportAliases) : List Located :=
  as.first.tokens ++ as.rest.flatMap fun p => sign .comma p.1 :: p.2.tokens

def values (as : ImportAliases) : List Alias := as.first.value :: as.rest.map (·.2.value)

end ImportAliases

inductive SmallStatement where
  | assignment (first : TestList) (rest : List (Span × TestList))
  | augmented (target : Expression) (op : AugOp) (value : TestList)
  | pass (pass_ : Span)
  | breakLoop (break_ : Span)
  | continueLoop (continue_ : Span)
  | ret (return_ : Span) (value : Option TestList)
  | raise (raise_ : Span) (exc : Option Expression)
  | imports (import_ : Span) (names : ImportAliases)
  | importFrom (from_ : Span) (path : DottedName) (import_ : Span) (names : ImportAliases)

namespace SmallStatement

def tokens : SmallStatement → List Located
  | assignment first rest => first.tokens ++ assignedTokens rest
  | augmented target op value => target.tokens ++ op.token :: value.tokens
  | pass span => [word .pass_ span]
  | breakLoop span => [word .break_ span]
  | continueLoop span => [word .continue_ span]
  | ret span value => word .return_ span :: value.toList.flatMap TestList.tokens
  | raise span exc => word .raise_ span :: exc.toList.flatMap Derivation.tokens
  | imports span names => word .import_ span :: names.tokens
  | importFrom from_ path import_ names =>
    word .from_ from_ :: (path.tokens ++ word .import_ import_ :: names.tokens)

-- A statement ends where its last part does.
def stop (next : Nat) : SmallStatement → Nat
  | assignment first rest => ((rest.getLast?.map (·.2)).getD first).stop next
  | augmented _ _ value => value.stop next
  | ret _ (some value) => value.stop next
  | s => stopOf s.tokens

def place (next : Nat) (s : SmallStatement) : Location :=
  .between (startOf s.tokens) (s.stop next)

def act (next : Nat) : SmallStatement → Except SyntaxFault Stmt
  | s@(assignment first rest) => do
    let first ← first.act (nextAssigned next rest)
    let rest ← actAssigned next rest
    makeAssignment (s.place next) first rest
  | s@(augmented target op value) => do
    let target ← target.act
    let value ← value.act next
    makeAugmented (s.place next) target op.op value
  | s@(pass _) => makeStmt (s.place next) .pass
  | s@(breakLoop _) => makeStmt (s.place next) .breakLoop
  | s@(continueLoop _) => makeStmt (s.place next) .continueLoop
  | s@(ret _ value) => do
    let value ← value.mapM (TestList.act next)
    makeStmt (s.place next) (.ret value)
  | s@(raise _ exc) => do
    let exc ← exc.mapM Derivation.act
    makeStmt (s.place next) (.raise exc)
  | s@(imports _ names) => makeStmt (s.place next) (.imports names.values)
  | s@(importFrom _ path _ names) => makeStmt (s.place next) (.importFrom path.path names.values)

end SmallStatement

-- Statements with semicolons before them.
def smallTokens (rest : List (Span × SmallStatement)) : List Located :=
  rest.flatMap fun p => sign .semicolon p.1 :: p.2.tokens

-- The statements of a line, the last of them before a token that starts at `next`.
def actSmalls (next : Nat) (s : SmallStatement) :
    List (Span × SmallStatement) → Except SyntaxFault (List Stmt)
  | [] => do return [← s.act next]
  | p :: rest => do
    let s ← s.act p.1.start
    let ss ← actSmalls next p.2 rest
    return s :: ss

structure SimpleStatements where
  first : SmallStatement
  rest : List (Span × SmallStatement)
  semicolon : Option Span
  newline : Span

namespace SimpleStatements

def ending (s : SimpleStatements) : List Located :=
  s.semicolon.toList.map (sign .semicolon) ++ [⟨.newline, s.newline⟩]

def tokens (s : SimpleStatements) : List Located :=
  s.first.tokens ++ (smallTokens s.rest ++ s.ending)

def act (s : SimpleStatements) : Except SyntaxFault (List Stmt) :=
  actSmalls (startOf s.ending) s.first s.rest

end SimpleStatements

/-! ### Compound statements -/

def Name.act (n : Name) : Except SyntaxFault Expr := makeExpr (placeOf [n.token]) (.name n.text)

inductive ForTarget where
  | single (n : Name)
  | tuple (first : Name) (comma : Span) (second : Name) (rest : List (Span × Name))

namespace ForTarget

def tokens : ForTarget → List Located
  | single n => [n.token]
  | tuple first comma second rest =>
    first.token :: sign .comma comma :: second.token
      :: rest.flatMap fun p => [sign .comma p.1, p.2.token]

def act : ForTarget → Except SyntaxFault Expr
  | single n => n.act
  | t@(tuple first _ second rest) => do
    let items ← (first :: second :: rest.map (·.2)).mapM Name.act
    makeExpr (placeOf t.tokens) (.tuple items)

end ForTarget

inductive StmtSymbol where
  | statement
  | compound
  | suite
  -- Any number of statements.
  | statements
  -- Any number of further conditions.
  | clauses
  | orelse

abbrev StmtSymbol.Value : StmtSymbol → Type
  | compound => Stmt
  | clauses => List Clause
  | _ => List Stmt

inductive StmtDerivation : StmtSymbol → Type
  -- Statement
  | simple (s : SimpleStatements) : StmtDerivation .statement
  | compound (s : StmtDerivation .compound) : StmtDerivation .statement
  -- IfStatement, WhileStatement, ForStatement, FunctionDef
  | conditional (if_ : Span) (test : Expression) (colon : Span) (body : StmtDerivation .suite)
      (clauses : StmtDerivation .clauses) (orelse : StmtDerivation .orelse) :
      StmtDerivation .compound
  | whileLoop (while_ : Span) (test : Expression) (colon : Span) (body : StmtDerivation .suite) :
      StmtDerivation .compound
  | forLoop (for_ : Span) (target : ForTarget) (in_ : Span) (iter : Expression) (colon : Span)
      (body : StmtDerivation .suite) : StmtDerivation .compound
  | define (async_ : Option Span) (def_ : Span) (name : Name) (opening : Span)
      (params : Derivation (.comma .parameter)) (closing colon : Span)
      (body : StmtDerivation .suite) : StmtDerivation .compound
  -- Suite
  | line (s : SimpleStatements) : StmtDerivation .suite
  | block (newline indent : Span) (first : StmtDerivation .statement)
      (rest : StmtDerivation .statements) (dedent : Span) : StmtDerivation .suite
  | noStatements : StmtDerivation .statements
  | more (first : StmtDerivation .statement) (rest : StmtDerivation .statements) :
      StmtDerivation .statements
  -- Elif
  | noClauses : StmtDerivation .clauses
  | clause (elif_ : Span) (test : Expression) (colon : Span) (body : StmtDerivation .suite)
      (rest : StmtDerivation .clauses) : StmtDerivation .clauses
  -- ElseClause
  | nothingElse : StmtDerivation .orelse
  | otherwise (else_ colon : Span) (body : StmtDerivation .suite) : StmtDerivation .orelse

abbrev Program := StmtDerivation .statements

namespace StmtDerivation

@[simp] def tokens : {s : StmtSymbol} → StmtDerivation s → List Located
  | _, simple s => s.tokens
  | _, compound s => s.tokens
  | _, conditional if_ test colon body clauses orelse =>
    word .if_ if_ :: (test.tokens ++ sign .colon colon
      :: (body.tokens ++ (clauses.tokens ++ orelse.tokens)))
  | _, whileLoop while_ test colon body =>
    word .while_ while_ :: (test.tokens ++ sign .colon colon :: body.tokens)
  | _, forLoop for_ target in_ iter colon body =>
    word .for_ for_ :: (target.tokens ++ word .in_ in_
      :: (iter.tokens ++ sign .colon colon :: body.tokens))
  | _, define async_ def_ name opening params closing colon body =>
    async_.toList.map (word .async_) ++ word .def_ def_ :: name.token :: sign .lparen opening
      :: (params.tokens ++ sign .rparen closing :: sign .colon colon :: body.tokens)
  | _, line s => s.tokens
  | _, block newline indent first rest dedent =>
    ⟨.newline, newline⟩ :: ⟨.indent, indent⟩
      :: (first.tokens ++ (rest.tokens ++ [⟨.dedent, dedent⟩]))
  | _, noStatements => []
  | _, more first rest => first.tokens ++ rest.tokens
  | _, noClauses => []
  | _, clause elif_ test colon body rest =>
    (word .elif_ elif_ :: (test.tokens ++ sign .colon colon :: body.tokens)) ++ rest.tokens
  | _, nothingElse => []
  | _, otherwise else_ colon body => word .else_ else_ :: sign .colon colon :: body.tokens

def place {s : StmtSymbol} (d : StmtDerivation s) : Location := placeOf d.tokens

@[simp] def act : {s : StmtSymbol} → StmtDerivation s → Except SyntaxFault s.Value
  | _, simple s => s.act
  | _, compound s => do return [← s.act]
  | _, d@(conditional _ test _ body clauses orelse) => do
    let test ← test.act
    let body ← body.act
    let cs ← clauses.act
    let orelse ← orelse.act
    makeStmt d.place (.ifElse test body (← chain orelse cs))
  | _, d@(whileLoop _ test _ body) => do
    let test ← test.act
    let body ← body.act
    makeStmt d.place (.whileLoop test body)
  | _, d@(forLoop _ target _ iter _ body) => do
    let target ← target.act
    let iter ← iter.act
    let body ← body.act
    makeStmt d.place (.forEach target iter body)
  | _, d@(define async_ _ name _ params _ _ body) => do
    let params ← params.act
    let body ← body.act
    makeStmt d.place (.define name.text params body async_.isSome)
  | _, line s => s.act
  | _, block _ _ first rest _ => do
    let first ← first.act
    let rest ← rest.act
    return first ++ rest
  | _, noStatements => return []
  | _, more first rest => do
    let first ← first.act
    let rest ← rest.act
    return first ++ rest
  | _, noClauses => return []
  | _, clause elif_ test colon body rest => do
    let place := placeOf (word .elif_ elif_ :: (test.tokens ++ sign .colon colon :: body.tokens))
    let test ← test.act
    let body ← body.act
    let rest ← rest.act
    return ⟨place, test, body⟩ :: rest
  | _, nothingElse => return []
  | _, otherwise _ _ body => body.act

end StmtDerivation

/-! ### Tokens of what is derived -/

def kinds (ts : List Located) : List Token := ts.map (·.token)

@[simp] theorem kinds_nil : kinds [] = [] := rfl

@[simp] theorem kinds_cons (t : Located) (ts : List Located) :
    kinds (t :: ts) = t.token :: kinds ts := rfl

@[simp] theorem kinds_append (ts us : List Located) : kinds (ts ++ us) = kinds ts ++ kinds us :=
  List.map_append

def Level.strength : Level → Nat
  | expression => Strength.test
  | family f => f.strength
  | negation => Strength.not
  | comparison => Strength.comparison
  | factor => Strength.sign
  | power => Strength.power
  | awaited => Strength.await
  | primary => Strength.atom
  | atom => Strength.atom + 1

/-! ### First tokens -/

-- What a nonterminal begins with.
def Symbol.OpenedBy : Symbol → List Token → Prop
  | level l, ts => Opens l.strength ts
  | argument, ts | entry, ts => Opens Strength.test ts
  | parameter, ts => ∃ s us, ts = .name s :: us
  | _, _ => True

theorem opens_cons {k : Nat} {t : Located} (ht : t.token.opens k) (ts : List Located) :
    Opens k (kinds (t :: ts)) :=
  ⟨t.token, kinds ts, rfl, ht⟩

theorem opens_append {k l : Nat} {ts : List Located} (h : Opens l (kinds ts)) (hk : k ≤ l)
    (us : List Located) : Opens k (kinds (ts ++ us)) := by
  rw [kinds_append]
  exact (h.mono hk).append _

theorem openedBy_tokens {s : Symbol} (d : Derivation s) : s.OpenedBy (kinds d.tokens) := by
  induction d
  case conditional ih _ _ => exact opens_append ih (by decide) _
  case unconditional ih => exact Opens.mono ih (by decide)
  case joined ih _ => exact opens_append ih le_rfl _
  case single f _ ih => cases f <;> exact Opens.mono ih (by decide)
  case not => exact opens_cons rfl _
  case affirmed ih => exact Opens.mono ih (by decide)
  case compared ih _ _ => exact opens_append ih (by decide) _
  case uncompared ih => exact Opens.mono ih (by decide)
  case minus | plus => exact opens_cons rfl _
  case unsigned ih => exact Opens.mono ih (by decide)
  case power ih _ => exact opens_append ih (by decide) _
  case unraised ih => exact Opens.mono ih (by decide)
  case await => exact opens_cons rfl _
  case unawaited ih => exact Opens.mono ih (by decide)
  case member ih => exact opens_append ih le_rfl _
  case call ih _ => exact opens_append ih le_rfl _
  case subscript ih _ => exact opens_append ih le_rfl _
  case plain ih => exact Opens.mono ih (by decide)
  case positional ih => exact ih
  case keyword ih _ => exact opens_append ih le_rfl _
  case entry ih _ => exact opens_append ih le_rfl _
  case required n => exact ⟨n.text, [], rfl⟩
  case optional n _ _ _ => exact ⟨n.text, _, rfl⟩
  case noComparisons | comparison | noItems | lastItem | item => trivial
  all_goals exact opens_cons rfl _

theorem opens_tokens {l : Level} (d : Derivation (.level l)) : Opens l.strength (kinds d.tokens) :=
  openedBy_tokens d

theorem tokens_ne_nil {l : Level} (d : Derivation (.level l)) : d.tokens ≠ [] := by
  obtain ⟨t, ts, h, _⟩ := opens_tokens d
  intro hnil
  rw [hnil] at h
  cases h

end NoteCell.Grammar
