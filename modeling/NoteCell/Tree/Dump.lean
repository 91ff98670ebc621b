import NoteCell.Decimal.FloatText
import NoteCell.Text.Dump
import NoteCell.Text.Quoted
import NoteCell.Tree.Basic

/-!
Syntax trees for the eye, with everything that is known about each node.
-/
namespace NoteCell

namespace Dump

def number (n : Nat) : Dump := atom (toString n)

def string (s : String) : Dump := atom (Escaped.text s)

end Dump

def BinaryOp.kind : BinaryOp → String
  | add => "Add"
  | sub => "Sub"
  | mul => "Mul"
  | div => "Div"
  | floorDiv => "FloorDiv"
  | mod => "Mod"
  | pow => "Pow"

def UnaryOp.kind : UnaryOp → String
  | neg => "Neg"
  | pos => "Pos"
  | not => "Not"

def LogicalOp.kind : LogicalOp → String
  | and => "And"
  | or => "Or"

def CompareOp.kind : CompareOp → String
  | eq => "Eq"
  | notEq => "NotEq"
  | less => "Lt"
  | lessEq => "LtE"
  | greater => "Gt"
  | greaterEq => "GtE"
  | isIn => "In"
  | notIn => "NotIn"
  | is => "Is"
  | isNot => "IsNot"

def Location.dump (l : Location) : Dump :=
  .record "Location" [("start", .option (l.start.map .number)),
    ("end", .option (l.stop.map .number))]

def NodeInfo.dump (info : NodeInfo) (node : String) (kind : Dump) : Dump :=
  .record node [("id", .wrapped "NodeId" [.number info.id]), ("location", info.location.dump),
    ("kind", kind), ("nesting", .number info.nesting)]

-- A shape whose children have been laid out already.
def ExprForm.dump : ExprForm Dump → Dump
  | name s => .wrapped "Name" [.string s]
  | int n => .wrapped "Int" [.atom (toString n.toInt)]
  | float x => .wrapped "Float" [.atom (Decimal.dumpStyle.text x)]
  | str s => .wrapped "Str" [.string s]
  | bool b => .wrapped "Bool" [.bool b]
  | none => .atom "NoneLit"
  | list items => .wrapped "List" [.list items]
  | tuple items => .wrapped "Tuple" [.list items]
  | dict entries => .wrapped "Dict" [.list (entries.map fun (k, v) => .wrapped "" [k, v])]
  | binary op left right =>
    .record "Binary" [("left", left), ("op", .atom op.kind), ("right", right)]
  | unary op operand => .record "Unary" [("op", .atom op.kind), ("operand", operand)]
  | logical op left right =>
    .record "Logical" [("op", .atom op.kind), ("left", left), ("right", right)]
  | compare left rest =>
    .record "Compare" [("left", left), ("ops", .list (rest.map fun (op, _) => .atom op.kind)),
      ("comparators", .list (rest.map (·.2)))]
  | conditional test body orelse =>
    .record "IfExp" [("test", test), ("body", body), ("orelse", orelse)]
  | call func args keywords =>
    .record "Call" [("func", func), ("args", .list args),
      ("keywords", .list (keywords.map fun (s, v) =>
        .record "Keyword" [("name", .string s), ("value", v)]))]
  | member value attr => .record "Attribute" [("value", value), ("attr", .string attr)]
  | subscript value index => .record "Subscript" [("value", value), ("index", index)]
  | await value => .wrapped "Await" [value]

def Expr.dump : Expr → Dump
  | node info form => info.dump "Expr" (form.attach.map fun ⟨c, _h⟩ => dump c).dump
termination_by e => sizeOf e
decreasing_by exact Expr.sizeOf_lt_of_mem _h

def Param.dump (p : Param) : Dump :=
  .record "Param" [("name", .string p.name), ("default", .option (p.default?.map Expr.dump))]

def Alias.dump (a : Alias) : Dump :=
  .record "Alias" [("name", .string (dotted a.path)), ("asname", .option (a.asname.map .string))]

def StmtForm.dump : StmtForm Dump → Dump
  | expr e => .wrapped "Expr" [e.dump]
  | assign targets value =>
    .record "Assign" [("targets", .list (targets.map Expr.dump)), ("value", value.dump)]
  | augAssign target op value =>
    .record "AugAssign" [("target", target.dump), ("op", .atom op.kind), ("value", value.dump)]
  | ifElse test body orelse =>
    .record "If" [("test", test.dump), ("body", .list body), ("orelse", .list orelse)]
  | whileLoop test body => .record "While" [("test", test.dump), ("body", .list body)]
  | forEach target iter body =>
    .record "For" [("target", target.dump), ("iter", iter.dump), ("body", .list body)]
  | define name params body isAsync =>
    .record "FunctionDef" [("name", .string name), ("params", .list (params.map Param.dump)),
      ("body", .list body), ("is_async", .bool isAsync)]
  | ret value => .wrapped "Return" [.option (value.map Expr.dump)]
  | raise exc => .wrapped "Raise" [.option (exc.map Expr.dump)]
  | imports names => .wrapped "Import" [.list (names.map Alias.dump)]
  | importFrom path names =>
    .record "ImportFrom" [("module", .string (dotted path)),
      ("names", .list (names.map Alias.dump))]
  | pass => .atom "Pass"
  | breakLoop => .atom "Break"
  | continueLoop => .atom "Continue"

def Stmt.dump : Stmt → Dump
  | node info form => info.dump "Stmt" (form.attach.map id fun ⟨s, _h⟩ => dump s).dump
termination_by s => sizeOf s
decreasing_by exact Stmt.sizeOf_lt_of_mem _h

def Cell.dump (c : Cell) : Dump :=
  .record "Module" [("body", .list (c.body.map Stmt.dump)), ("next_id", .number c.nextId)]

end NoteCell
