import ArrayFusion.Json.Basic
import ArrayFusion.Syntax.Exp

/-!
# Programs as JSON

A record is an object with its fields in a fixed order.  A constructor without arguments is its name
as a string; one with arguments is an object whose only field has that name: its value is the
argument itself if there is one, an array of several, or a record where the arguments have names.
-/

namespace ArrayFusion

/-- A position as a record. -/
def Pos.toJson (p : Pos) : Json := .obj [("line", .int p.line), ("column", .int p.column)]

/-- A span as the record of its ends. -/
def Span.toJson (s : Span) : Json := .obj [("start", s.start.toJson), ("end", s.stop.toJson)]

/-- A name as a record. -/
def Name.toJson (x : Name) : Json := .obj [("base", .str x.base), ("tag", .int x.tag)]

mutual

/-- A type by its constructor. -/
def Ty.toJson : Ty → Json
  | .int => .str "Int"
  | .real => .str "Real"
  | .bool => .str "Bool"
  | .char => .str "Char"
  | .tuple ts => .tagged "Tuple" (.arr (Ty.toJsonAll ts))
  | .array t => .tagged "Array" t.toJson

/-- The types of a list. -/
def Ty.toJsonAll : List Ty → List Json
  | [] => []
  | t :: ts => t.toJson :: Ty.toJsonAll ts

end

/-- An identifier as a record. -/
def Ident.toJson (x : Ident) : Json := .obj [("name", x.name.toJson), ("ty", x.ty.toJson)]

/-- Several identifiers as an array. -/
def Ident.listToJson (xs : List Ident) : Json := .ofList Ident.toJson xs

/-- A pattern as a record with one field. -/
def Pattern.toJson (p : Pattern) : Json := .obj [("idents", Ident.listToJson p)]

/-- A literal by its type. -/
def Literal.toJson : Literal → Json
  | .int n => .tagged "Int" (.int n.toInt)
  | .real x => .tagged "Real" (.real x)
  | .bool b => .tagged "Bool" (.bool b)
  | .char c => .tagged "Char" (.str c.toString)

/-- The name of a binary operator. -/
def BinaryOp.tag : BinaryOp → String
  | .plus => "Plus"
  | .minus => "Minus"
  | .times => "Times"
  | .divide => "Divide"
  | .mod => "Mod"
  | .equal => "Equal"
  | .notEqual => "NotEqual"
  | .less => "Less"
  | .leq => "Leq"
  | .greater => "Greater"
  | .geq => "Geq"
  | .logAnd => "LogAnd"
  | .logOr => "LogOr"
  | .min => "Min"
  | .max => "Max"

/-- The name of a unary operator. -/
def UnaryOp.tag : UnaryOp → String
  | .not => "Not"
  | .negate => "Negate"
  | .iota => "Iota"
  | .size => "Size"
  | .transpose => "Transpose"

/-- The name of a kind of combinator. -/
def Combinator.Kind.tag : Combinator.Kind → String
  | .map => "Map"
  | .reduce => "Reduce"
  | .scan => "Scan"
  | .filter => "Filter"
  | .redomap => "Redomap"

mutual

/-- An expression by its constructor. -/
def Exp.toJson : Exp → Json
  | .lit v s => .tagged "Literal" (.arr [v.toJson, s.toJson])
  | .var x s => .tagged "Var" (.arr [x.toJson, s.toJson])
  | .tuple es s => .tagged "TupLit" (.arr [.arr (Exp.toJsonAll es), s.toJson])
  | .array es t s => .tagged "ArrayLit" (.arr [.arr (Exp.toJsonAll es), t.toJson, s.toJson])
  | .binary op a b t s =>
    .tagged "BinOp" (.arr [.str op.tag, a.toJson, b.toJson, t.toJson, s.toJson])
  | .unary op e s => .tagged op.tag (.arr [e.toJson, s.toJson])
  | .cond c a b t s => .tagged "If" (.arr [c.toJson, a.toJson, b.toJson, t.toJson, s.toJson])
  | .call f es t s =>
    .tagged "Apply" (.arr [.str f, .arr (Exp.toJsonAll es), t.toJson, s.toJson])
  | .letIn p r b s => .tagged "LetPat" (.arr [p.toJson, r.toJson, b.toJson, s.toJson])
  | .update x y is v b s =>
    .tagged "LetWith" (.obj [("dest", x.toJson), ("src", y.toJson),
      ("idxs", .arr (Exp.toJsonAll is)), ("value", v.toJson), ("body", b.toJson),
      ("span", s.toJson)])
  | .index x is s => .tagged "Index" (.arr [x.toJson, .arr (Exp.toJsonAll is), s.toJson])
  | .replicate n v s => .tagged "Replicate" (.arr [n.toJson, v.toJson, s.toJson])
  | .loop p is i n b r s =>
    .tagged "DoLoop" (.obj [("merge", p.toJson), ("init", .arr (Exp.toJsonAll is)),
      ("ivar", i.toJson), ("bound", n.toJson), ("body", b.toJson), ("rest", r.toJson),
      ("span", s.toJson)])
  | .soac op es cs s =>
    .tagged op.kind.tag (.arr (op.toJsonParts ++
      [.arr (Exp.toJsonAll es), Ident.listToJson cs, s.toJson]))

/-- The expressions of a list. -/
def Exp.toJsonAll : List Exp → List Json
  | [] => []
  | e :: es => e.toJson :: Exp.toJsonAll es

/-- A lambda as a record. -/
def Lambda.toJson : Lambda → Json
  | ⟨ps, b, ts⟩ =>
    .obj [("params", Ident.listToJson ps), ("body", b.toJson),
      ("ret_types", .arr (Ty.toJsonAll ts))]

/-- The lambdas of a combinator, and the array of its neutral elements if it is a fold. -/
def Combinator.toJsonParts : Combinator → List Json
  | .map f => [f.toJson]
  | .reduce f ne => [f.toJson, .arr (Exp.toJsonAll ne)]
  | .scan f ne => [f.toJson, .arr (Exp.toJsonAll ne)]
  | .filter p => [p.toJson]
  | .redomap f g ne => [f.toJson, g.toJson, .arr (Exp.toJsonAll ne)]

end

/-- A function as a record. -/
def FunDef.toJson (f : FunDef) : Json :=
  .obj [("name", .str f.name), ("params", Ident.listToJson f.params), ("ret_type", f.ret.toJson),
    ("body", f.body.toJson), ("span", f.span.toJson)]

/-- A program as a record with one field. -/
def Program.toJson (p : Program) : Json := .obj [("funs", .ofList FunDef.toJson p.funs)]

end ArrayFusion
