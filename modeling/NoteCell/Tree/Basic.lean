/-!
Syntax trees of cells. A node is its shape over its children together with what is known about it:
an id unique in its tree, the place it came from, and the depth of the tree below it. Passes that
treat all shapes alike go through `children`, `map` and `traverse`, which visit the children in the
order in which they are numbered.
-/
namespace NoteCell

-- The bytes a node came from. Either end may be unknown on a node made after reading.
structure Location where
  start : Option Nat
  stop : Option Nat
deriving DecidableEq, Repr

namespace Location

def unknown : Location := ⟨none, none⟩

def between (start stop : Nat) : Location := ⟨some start, some stop⟩

def isComplete (l : Location) : Bool := l.start.isSome && l.stop.isSome

def orElse (l m : Location) : Location := ⟨l.start.or m.start, l.stop.or m.stop⟩

end Location

structure NodeInfo where
  id : Nat
  location : Location
  nesting : Nat
deriving DecidableEq, Repr

inductive BinaryOp where
  | add | sub | mul | div | floorDiv | mod | pow
deriving DecidableEq, Repr

def BinaryOp.text : BinaryOp → String
  | add => "+"
  | sub => "-"
  | mul => "*"
  | div => "/"
  | floorDiv => "//"
  | mod => "%"
  | pow => "**"

inductive UnaryOp where
  | neg | pos | not
deriving DecidableEq, Repr

inductive LogicalOp where
  | and | or
deriving DecidableEq, Repr

inductive CompareOp where
  | eq | notEq | less | lessEq | greater | greaterEq | isIn | notIn | is | isNot
deriving DecidableEq, Repr

def CompareOp.text : CompareOp → String
  | eq => "=="
  | notEq => "!="
  | less => "<"
  | lessEq => "<="
  | greater => ">"
  | greaterEq => ">="
  | isIn => "in"
  | notIn => "not in"
  | is => "is"
  | isNot => "is not"

/-! ### Expressions -/

inductive ExprForm (α : Type) where
  | name (s : String)
  | int (n : Int64)
  | float (x : Float)
  | str (s : String)
  | bool (b : Bool)
  | none
  | list (items : List α)
  | tuple (items : List α)
  | dict (entries : List (α × α))
  | binary (op : BinaryOp) (left right : α)
  | unary (op : UnaryOp) (operand : α)
  | logical (op : LogicalOp) (left right : α)
  -- `left op₀ c₀ op₁ c₁ …`
  | compare (left : α) (rest : List (CompareOp × α))
  | conditional (test body orelse : α)
  | call (func : α) (args : List α) (keywords : List (String × α))
  | member (value : α) (attr : String)
  | subscript (value index : α)
  | await (value : α)
deriving DecidableEq

inductive Expr where
  | node (info : NodeInfo) (form : ExprForm Expr)

namespace ExprForm

variable {α β : Type}

def children : ExprForm α → List α
  | name _ | int _ | float _ | str _ | bool _ | none => []
  | list items | tuple items => items
  | dict entries => entries.flatMap fun (k, v) => [k, v]
  | binary _ left right | logical _ left right => [left, right]
  | unary _ operand => [operand]
  | compare left rest => left :: rest.map (·.2)
  | conditional test body orelse => [test, body, orelse]
  | call func args keywords => func :: (args ++ keywords.map (·.2))
  | member value _ => [value]
  | subscript value index => [value, index]
  | await value => [value]

def map (f : α → β) : ExprForm α → ExprForm β
  | name s => .name s
  | int n => .int n
  | float x => .float x
  | str s => .str s
  | bool b => .bool b
  | none => .none
  | list items => .list (items.map f)
  | tuple items => .tuple (items.map f)
  | dict entries => .dict (entries.map fun (k, v) => (f k, f v))
  | binary op left right => .binary op (f left) (f right)
  | unary op operand => .unary op (f operand)
  | logical op left right => .logical op (f left) (f right)
  | compare left rest => .compare (f left) (rest.map fun (op, e) => (op, f e))
  | conditional test body orelse => .conditional (f test) (f body) (f orelse)
  | call func args keywords =>
    .call (f func) (args.map f) (keywords.map fun (s, e) => (s, f e))
  | member value attr => .member (f value) attr
  | subscript value index => .subscript (f value) (f index)
  | await value => .await (f value)

variable {m : Type → Type} [Monad m]

def traverse (f : α → m β) : ExprForm α → m (ExprForm β)
  | name s => return .name s
  | int n => return .int n
  | float x => return .float x
  | str s => return .str s
  | bool b => return .bool b
  | none => return .none
  | list items => return .list (← items.mapM f)
  | tuple items => return .tuple (← items.mapM f)
  | dict entries => return .dict (← entries.mapM fun (k, v) => return (← f k, ← f v))
  | binary op left right => return .binary op (← f left) (← f right)
  | unary op operand => return .unary op (← f operand)
  | logical op left right => return .logical op (← f left) (← f right)
  | compare left rest =>
    return .compare (← f left) (← rest.mapM fun (op, e) => return (op, ← f e))
  | conditional test body orelse => return .conditional (← f test) (← f body) (← f orelse)
  | call func args keywords =>
    return .call (← f func) (← args.mapM f) (← keywords.mapM fun (s, e) => return (s, ← f e))
  | member value attr => return .member (← f value) attr
  | subscript value index => return .subscript (← f value) (← f index)
  | await value => return .await (← f value)

theorem children_map (f : α → β) (form : ExprForm α) :
    (form.map f).children = form.children.map f := by
  cases form <;> simp [map, children, List.flatMap, List.map_flatten, Function.comp_def]

-- The same shape over children that know they are its children.
def attach (form : ExprForm α) : ExprForm { a // a ∈ form.children } :=
  match form with
  | name s => .name s
  | int n => .int n
  | float x => .float x
  | str s => .str s
  | bool b => .bool b
  | none => .none
  | list items => .list (items.attach.map fun ⟨a, h⟩ => ⟨a, h⟩)
  | tuple items => .tuple (items.attach.map fun ⟨a, h⟩ => ⟨a, h⟩)
  | dict entries =>
    .dict (entries.attach.map fun ⟨(k, v), h⟩ =>
      (⟨k, by simp only [children, List.mem_flatMap]; exact ⟨(k, v), h, by simp⟩⟩,
        ⟨v, by simp only [children, List.mem_flatMap]; exact ⟨(k, v), h, by simp⟩⟩))
  | binary op left right => .binary op ⟨left, by simp [children]⟩ ⟨right, by simp [children]⟩
  | unary op operand => .unary op ⟨operand, by simp [children]⟩
  | logical op left right => .logical op ⟨left, by simp [children]⟩ ⟨right, by simp [children]⟩
  | compare left rest =>
    .compare ⟨left, by simp [children]⟩ (rest.attach.map fun ⟨(op, e), h⟩ =>
      (op, ⟨e, List.mem_cons_of_mem _ (List.mem_map_of_mem h)⟩))
  | conditional test body orelse =>
    .conditional ⟨test, by simp [children]⟩ ⟨body, by simp [children]⟩
      ⟨orelse, by simp [children]⟩
  | call func args keywords =>
    .call ⟨func, by simp [children]⟩ (args.attach.map fun ⟨a, h⟩ =>
      ⟨a, List.mem_cons_of_mem _ (List.mem_append_left _ h)⟩)
      (keywords.attach.map fun ⟨(s, e), h⟩ =>
        (s, ⟨e, List.mem_cons_of_mem _ (List.mem_append_right _ (List.mem_map_of_mem h))⟩))
  | member value attr => .member ⟨value, by simp [children]⟩ attr
  | subscript value index => .subscript ⟨value, by simp [children]⟩ ⟨index, by simp [children]⟩
  | await value => .await ⟨value, by simp [children]⟩

theorem map_attach (f : α → β) (form : ExprForm α) :
    form.attach.map (fun a => f a.1) = form.map f := by
  cases form
  case list | tuple | dict | compare =>
    simp only [attach, map, List.map_map]
    congr 1
    exact List.ext_getElem (by simp) (by simp)
  case call =>
    simp only [attach, map, List.map_map]
    congr 1 <;> exact List.ext_getElem (by simp) (by simp)
  all_goals rfl

end ExprForm

namespace Expr

def info : Expr → NodeInfo
  | node info _ => info

def form : Expr → ExprForm Expr
  | node _ form => form

def children (e : Expr) : List Expr := e.form.children

theorem sizeOf_lt_of_mem {info : NodeInfo} {form : ExprForm Expr} {c : Expr}
    (h : c ∈ form.children) : sizeOf c < sizeOf (node info form) := by
  have : sizeOf c < sizeOf form := by
    cases form <;> simp only [ExprForm.children, List.not_mem_nil, List.mem_cons, or_false,
      List.mem_flatMap, List.mem_map, List.mem_append, Prod.exists, exists_eq_right,
      ExprForm.list.sizeOf_spec, ExprForm.tuple.sizeOf_spec, ExprForm.dict.sizeOf_spec,
      ExprForm.binary.sizeOf_spec, ExprForm.unary.sizeOf_spec, ExprForm.logical.sizeOf_spec,
      ExprForm.compare.sizeOf_spec, ExprForm.conditional.sizeOf_spec, ExprForm.call.sizeOf_spec,
      ExprForm.member.sizeOf_spec, ExprForm.subscript.sizeOf_spec,
      ExprForm.await.sizeOf_spec] at h ⊢
    case list => have := List.sizeOf_lt_of_mem h; omega
    case tuple => have := List.sizeOf_lt_of_mem h; omega
    case dict =>
      obtain ⟨k, v, hm, h⟩ := h
      have := List.sizeOf_lt_of_mem hm
      simp only [Prod.mk.sizeOf_spec] at this
      rcases h with rfl | rfl <;> omega
    case compare =>
      rcases h with rfl | ⟨op, hm⟩
      · omega
      · have := List.sizeOf_lt_of_mem hm
        simp only [Prod.mk.sizeOf_spec] at this
        omega
    case call =>
      rcases h with rfl | hm | ⟨s, hm⟩
      · omega
      · have := List.sizeOf_lt_of_mem hm; omega
      · have := List.sizeOf_lt_of_mem hm
        simp only [Prod.mk.sizeOf_spec] at this
        omega
    case conditional => rcases h with rfl | rfl | rfl <;> omega
    all_goals (rcases h with rfl | rfl <;> omega)
  simp only [node.sizeOf_spec]
  omega

-- Whoever shows a property of a node from that of its children shows it of all expressions.
theorem childrenInduction {P : Expr → Prop}
    (h : ∀ info form, (∀ c ∈ form.children, P c) → P (node info form)) : ∀ e, P e
  | node info form => h info form fun c _hc => childrenInduction h c
termination_by e => sizeOf e
decreasing_by exact sizeOf_lt_of_mem _hc

-- An expression and all below it, each before its children.
def nodes : Expr → List Expr
  | node info form => node info form :: form.children.attach.flatMap fun ⟨c, _h⟩ => nodes c
termination_by e => sizeOf e
decreasing_by exact sizeOf_lt_of_mem _h

-- The depth of a tree over the given children.
def nestingOver (children : List Nat) : Nat :=
  1 + children.foldl max 0

-- A node with its depth, not yet numbered.
def build (form : ExprForm Expr) (location : Location) : Expr :=
  node ⟨0, location, nestingOver (form.children.map (·.info.nesting))⟩ form

-- The name that a call calls, if it calls a bare name.
def callTarget? : Expr → Option String
  | node _ (.call (node _ (.name s)) _ _) => some s
  | _ => none

-- What messages call an expression that stands where a target should.
def describe (e : Expr) : String :=
  match e.form with
  | .name _ => "name"
  | .int _ | .float _ | .str _ | .bool _ | .none => "literal"
  | .list _ => "list"
  | .tuple _ => "tuple"
  | .dict _ => "dict literal"
  | .binary .. | .unary .. | .logical .. => "expression"
  | .compare .. => "comparison"
  | .conditional .. => "conditional expression"
  | .call .. => "function call"
  | .member .. => "attribute"
  | .subscript .. => "subscript"
  | .await _ => "await expression"

end Expr

/-! ### Statements -/

structure Param where
  name : String
  default? : Option Expr

-- `a.b as asname` of an import.
structure Alias where
  path : List String
  asname : Option String
deriving DecidableEq, Repr

def dotted (path : List String) : String := ".".intercalate path

inductive StmtForm (σ : Type) where
  | expr (e : Expr)
  | assign (targets : List Expr) (value : Expr)
  | augAssign (target : Expr) (op : BinaryOp) (value : Expr)
  -- A further condition is a conditional alone in `orelse`.
  | ifElse (test : Expr) (body orelse : List σ)
  | whileLoop (test : Expr) (body : List σ)
  | forEach (target iter : Expr) (body : List σ)
  | define (name : String) (params : List Param) (body : List σ) (isAsync : Bool)
  | ret (value : Option Expr)
  | raise (exc : Option Expr)
  | imports (names : List Alias)
  | importFrom (path : List String) (names : List Alias)
  | pass
  | breakLoop
  | continueLoop

inductive Stmt where
  | node (info : NodeInfo) (form : StmtForm Stmt)

namespace StmtForm

variable {σ τ : Type}

def exprs : StmtForm σ → List Expr
  | expr e => [e]
  | assign targets value => value :: targets
  | augAssign target _ value => [target, value]
  | ifElse test _ _ | whileLoop test _ => [test]
  | forEach target iter _ => [iter, target]
  | define _ params _ _ => params.filterMap (·.default?)
  | ret value | raise value => value.toList
  | imports _ | importFrom _ _ | pass | breakLoop | continueLoop => []

def stmts : StmtForm σ → List σ
  | ifElse _ body orelse => body ++ orelse
  | whileLoop _ body | forEach _ _ body | define _ _ body _ => body
  | _ => []

def map (f : Expr → Expr) (g : σ → τ) : StmtForm σ → StmtForm τ
  | expr e => .expr (f e)
  | assign targets value => .assign (targets.map f) (f value)
  | augAssign target op value => .augAssign (f target) op (f value)
  | ifElse test body orelse => .ifElse (f test) (body.map g) (orelse.map g)
  | whileLoop test body => .whileLoop (f test) (body.map g)
  | forEach target iter body => .forEach (f target) (f iter) (body.map g)
  | define name params body isAsync =>
    .define name (params.map fun p => ⟨p.name, p.default?.map f⟩) (body.map g) isAsync
  | ret value => .ret (value.map f)
  | raise exc => .raise (exc.map f)
  | imports names => .imports names
  | importFrom path names => .importFrom path names
  | pass => .pass
  | breakLoop => .breakLoop
  | continueLoop => .continueLoop

variable {m : Type → Type} [Monad m]

def traverseOption (f : Expr → m Expr) : Option Expr → m (Option Expr)
  | some e => return some (← f e)
  | none => return none

def traverse (f : Expr → m Expr) (g : σ → m τ) : StmtForm σ → m (StmtForm τ)
  | expr e => return .expr (← f e)
  | assign targets value => do
    let value ← f value
    return .assign (← targets.mapM f) value
  | augAssign target op value => return .augAssign (← f target) op (← f value)
  | ifElse test body orelse => return .ifElse (← f test) (← body.mapM g) (← orelse.mapM g)
  | whileLoop test body => return .whileLoop (← f test) (← body.mapM g)
  | forEach target iter body => do
    let iter ← f iter
    return .forEach (← f target) iter (← body.mapM g)
  | define name params body isAsync => do
    let params ← params.mapM fun p => return ⟨p.name, ← traverseOption f p.default?⟩
    return .define name params (← body.mapM g) isAsync
  | ret value => return .ret (← traverseOption f value)
  | raise exc => return .raise (← traverseOption f exc)
  | imports names => return .imports names
  | importFrom path names => return .importFrom path names
  | pass => return .pass
  | breakLoop => return .breakLoop
  | continueLoop => return .continueLoop

theorem stmts_map (f : Expr → Expr) (g : σ → τ) (form : StmtForm σ) :
    (form.map f g).stmts = form.stmts.map g := by
  cases form <;> simp [map, stmts]

-- The same shape over statements that know they are its statements.
def attach (form : StmtForm σ) : StmtForm { s // s ∈ form.stmts } :=
  match form with
  | expr e => .expr e
  | assign targets value => .assign targets value
  | augAssign target op value => .augAssign target op value
  | ifElse test body orelse =>
    .ifElse test (body.attach.map fun ⟨s, h⟩ => ⟨s, List.mem_append_left _ h⟩)
      (orelse.attach.map fun ⟨s, h⟩ => ⟨s, List.mem_append_right _ h⟩)
  | whileLoop test body => .whileLoop test body.attach
  | forEach target iter body => .forEach target iter body.attach
  | define name params body isAsync => .define name params body.attach isAsync
  | ret value => .ret value
  | raise exc => .raise exc
  | imports names => .imports names
  | importFrom path names => .importFrom path names
  | pass => .pass
  | breakLoop => .breakLoop
  | continueLoop => .continueLoop

end StmtForm

namespace Stmt

def info : Stmt → NodeInfo
  | node info _ => info

def form : Stmt → StmtForm Stmt
  | node _ form => form

def exprs (s : Stmt) : List Expr := s.form.exprs

def stmts (s : Stmt) : List Stmt := s.form.stmts

theorem sizeOf_lt_of_mem {info : NodeInfo} {form : StmtForm Stmt} {s : Stmt}
    (h : s ∈ form.stmts) : sizeOf s < sizeOf (node info form) := by
  have : sizeOf s < sizeOf form := by
    cases form <;> simp only [StmtForm.stmts, List.not_mem_nil, List.mem_append,
      StmtForm.ifElse.sizeOf_spec, StmtForm.whileLoop.sizeOf_spec, StmtForm.forEach.sizeOf_spec,
      StmtForm.define.sizeOf_spec] at h ⊢
    case ifElse => rcases h with h | h <;> (have lt := List.sizeOf_lt_of_mem h; omega)
    all_goals (have lt := List.sizeOf_lt_of_mem h; omega)
  simp only [node.sizeOf_spec]
  omega

-- Whoever shows a property of a statement from that of those inside it shows it of all.
theorem stmtsInduction {P : Stmt → Prop}
    (h : ∀ info form, (∀ s ∈ form.stmts, P s) → P (node info form)) : ∀ s, P s
  | node info form => h info form fun s _hs => stmtsInduction h s
termination_by s => sizeOf s
decreasing_by exact sizeOf_lt_of_mem _hs

-- A node with its depth, counting statements and expressions, not yet numbered.
def build (form : StmtForm Stmt) (location : Location) : Stmt :=
  node ⟨0, location, Expr.nestingOver
    (form.exprs.map (·.info.nesting) ++ form.stmts.map (·.info.nesting))⟩ form

end Stmt

/-! ### Nodes of either kind -/

inductive Node where
  | stmt (s : Stmt)
  | expr (e : Expr)

namespace Node

def info : Node → NodeInfo
  | stmt s => s.info
  | expr e => e.info

def children : Node → List Node
  | stmt s => s.exprs.map expr ++ s.stmts.map stmt
  | expr e => e.children.map expr

end Node

-- A statement and all below it, each before its children, expressions before statements.
def Stmt.nodes : Stmt → List Node
  | node info form =>
    .stmt (node info form) :: ((form.exprs.flatMap Expr.nodes).map .expr
      ++ form.stmts.attach.flatMap fun ⟨s, _h⟩ => nodes s)
termination_by s => sizeOf s
decreasing_by exact Stmt.sizeOf_lt_of_mem _h

-- The tree of one source. Ids from `nextId` on are free.
structure Cell where
  body : List Stmt
  nextId : Nat

def Cell.nodes (c : Cell) : List Node := c.body.flatMap Stmt.nodes

end NoteCell
