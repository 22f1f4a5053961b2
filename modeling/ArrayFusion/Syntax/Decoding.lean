import ArrayFusion.Json.Decode
import ArrayFusion.Syntax.Encoding

/-!
# Programs read from JSON

The reader accepts what `Program.toJson` and its companions write.  It is also content with fields
in another order and with fields it does not know, and it reads an integer token where a float is
wanted.  Everything else is refused: a field that is missing or given twice, a number out of range,
an unknown constructor, an array of the wrong length.

Two constructors of expressions have named arguments.  An `ArgumentForm` says whether these may also
be listed in their order.
-/

namespace ArrayFusion

open Json (record?)

/-- How the arguments of a constructor that names them may be written. -/
inductive ArgumentForm where
  /-- As an object. -/
  | named
  /-- As an object, or as the array of the arguments in their order. -/
  | listed

/-- Reads a position. -/
def Pos.ofJson? (j : Json) : Option Pos := do
  match ← j.record? ["line", "column"] with
  | [line, column] => return ⟨← line.nat32?, ← column.nat32?⟩
  | _ => none

/-- Reads a span. -/
def Span.ofJson? (j : Json) : Option Span := do
  match ← j.record? ["start", "end"] with
  | [start, stop] => return ⟨← Pos.ofJson? start, ← Pos.ofJson? stop⟩
  | _ => none

/-- Reads a name. -/
def Name.ofJson? (j : Json) : Option Name := do
  match ← j.record? ["base", "tag"] with
  | [base, tag] => return ⟨← base.str?, ← tag.nat32?⟩
  | _ => none

/-- The types that are written as a name alone. -/
def Ty.scalar? : String → Option Ty
  | "Int" => some .int
  | "Real" => some .real
  | "Bool" => some .bool
  | "Char" => some .char
  | _ => none

mutual

/-- Reads a type. -/
def Ty.ofJson? : Json → Option Ty
  | .str s => Ty.scalar? s
  | .obj [(tag, payload)] =>
    if tag = "Tuple" then (Ty.components? payload).map .tuple
    else if tag = "Array" then (Ty.ofJson? payload).map .array
    else
      match payload with
      | .null => Ty.scalar? tag
      | _ => none
  | _ => none

/-- Reads the components of a tuple type. -/
def Ty.components? : Json → Option (List Ty)
  | .arr items => Ty.ofJsonAll? items
  | _ => none

/-- Reads each type of a list. -/
def Ty.ofJsonAll? : List Json → Option (List Ty)
  | [] => some []
  | j :: js => do
    let t ← Ty.ofJson? j
    return t :: (← Ty.ofJsonAll? js)

end

/-- Reads an identifier. -/
def Ident.ofJson? (j : Json) : Option Ident := do
  match ← j.record? ["name", "ty"] with
  | [name, ty] => return ⟨← Name.ofJson? name, ← Ty.ofJson? ty⟩
  | _ => none

/-- Reads an array of identifiers. -/
def Ident.list? (j : Json) : Option (List Ident) := j.list? Ident.ofJson?

/-- Reads a pattern. -/
def Pattern.ofJson? (j : Json) : Option Pattern := do
  match ← j.record? ["idents"] with
  | [idents] => Ident.list? idents
  | _ => none

/-- Reads a literal. -/
def Literal.ofJson? : Json → Option Literal
  | .obj [(tag, payload)] =>
    if tag = "Int" then payload.int64?.map .int
    else if tag = "Real" then payload.float?.map .real
    else if tag = "Bool" then payload.bool?.map .bool
    else if tag = "Char" then payload.char?.map .char
    else none
  | _ => none

/-- The binary operator of a name. -/
def BinaryOp.ofTag? : String → Option BinaryOp
  | "Plus" => some .plus
  | "Minus" => some .minus
  | "Times" => some .times
  | "Divide" => some .divide
  | "Mod" => some .mod
  | "Equal" => some .equal
  | "NotEqual" => some .notEqual
  | "Less" => some .less
  | "Leq" => some .leq
  | "Greater" => some .greater
  | "Geq" => some .geq
  | "LogAnd" => some .logAnd
  | "LogOr" => some .logOr
  | "Min" => some .min
  | "Max" => some .max
  | _ => none

/-- Reads a binary operator. -/
def BinaryOp.ofJson? (j : Json) : Option BinaryOp := j.constant?.bind BinaryOp.ofTag?

/-- The constructors of expressions, as they are told apart in JSON. -/
inductive Exp.Tag where
  | lit
  | var
  | tuple
  | array
  | binary
  | unary (op : UnaryOp)
  | cond
  | call
  | letIn
  | update
  | index
  | replicate
  | loop
  | soac (kind : Combinator.Kind)

/-- The constructor of a name. -/
def Exp.Tag.ofString? : String → Option Exp.Tag
  | "Literal" => some .lit
  | "Var" => some .var
  | "TupLit" => some .tuple
  | "ArrayLit" => some .array
  | "BinOp" => some .binary
  | "Not" => some (.unary .not)
  | "Negate" => some (.unary .negate)
  | "If" => some .cond
  | "Apply" => some .call
  | "LetPat" => some .letIn
  | "LetWith" => some .update
  | "Index" => some .index
  | "Iota" => some (.unary .iota)
  | "Size" => some (.unary .size)
  | "Replicate" => some .replicate
  | "Transpose" => some (.unary .transpose)
  | "DoLoop" => some .loop
  | "Map" => some (.soac .map)
  | "Reduce" => some (.soac .reduce)
  | "Scan" => some (.soac .scan)
  | "Filter" => some (.soac .filter)
  | "Redomap" => some (.soac .redomap)
  | _ => none

/-- The value that a record gives to a key, read by `f`. -/
def fieldBy? {α : Type} (f : Json → Option α) (key : String) (fields : List (String × Json)) :
    Option α :=
  (Json.onlyField? key fields).bind f

mutual

/-- Reads an expression. -/
def Exp.ofJson? (form : ArgumentForm) : Json → Option Exp
  | .obj [(tag, payload)] =>
    match Exp.Tag.ofString? tag with
    | none => none
    | some t => Exp.ofPayload? form t payload
  | _ => none

/-- Reads the arguments of a constructor. -/
def Exp.ofPayload? (form : ArgumentForm) : Exp.Tag → Json → Option Exp
  | .lit, .arr [v, s] => do return .lit (← Literal.ofJson? v) (← Span.ofJson? s)
  | .var, .arr [x, s] => do return .var (← Ident.ofJson? x) (← Span.ofJson? s)
  | .tuple, .arr [es, s] => do return .tuple (← Exp.list? form es) (← Span.ofJson? s)
  | .array, .arr [es, t, s] => do
    return .array (← Exp.list? form es) (← Ty.ofJson? t) (← Span.ofJson? s)
  | .binary, .arr [op, a, b, t, s] => do
    return .binary (← BinaryOp.ofJson? op) (← Exp.ofJson? form a) (← Exp.ofJson? form b)
      (← Ty.ofJson? t) (← Span.ofJson? s)
  | .unary op, .arr [e, s] => do return .unary op (← Exp.ofJson? form e) (← Span.ofJson? s)
  | .cond, .arr [c, a, b, t, s] => do
    return .cond (← Exp.ofJson? form c) (← Exp.ofJson? form a) (← Exp.ofJson? form b)
      (← Ty.ofJson? t) (← Span.ofJson? s)
  | .call, .arr [f, es, t, s] => do
    return .call (← f.str?) (← Exp.list? form es) (← Ty.ofJson? t) (← Span.ofJson? s)
  | .letIn, .arr [p, r, b, s] => do
    return .letIn (← Pattern.ofJson? p) (← Exp.ofJson? form r) (← Exp.ofJson? form b)
      (← Span.ofJson? s)
  | .update, .obj fields => do
    return .update (← fieldBy? Ident.ofJson? "dest" fields) (← fieldBy? Ident.ofJson? "src" fields)
      (← Exp.listField? form "idxs" fields) (← Exp.field? form "value" fields)
      (← Exp.field? form "body" fields) (← fieldBy? Span.ofJson? "span" fields)
  | .update, .arr [x, y, is, v, b, s] =>
    match form with
    | .named => none
    | .listed => do
      return .update (← Ident.ofJson? x) (← Ident.ofJson? y) (← Exp.list? form is)
        (← Exp.ofJson? form v) (← Exp.ofJson? form b) (← Span.ofJson? s)
  | .index, .arr [x, is, s] => do
    return .index (← Ident.ofJson? x) (← Exp.list? form is) (← Span.ofJson? s)
  | .replicate, .arr [n, v, s] => do
    return .replicate (← Exp.ofJson? form n) (← Exp.ofJson? form v) (← Span.ofJson? s)
  | .loop, .obj fields => do
    return .loop (← fieldBy? Pattern.ofJson? "merge" fields) (← Exp.listField? form "init" fields)
      (← fieldBy? Ident.ofJson? "ivar" fields) (← Exp.field? form "bound" fields)
      (← Exp.field? form "body" fields) (← Exp.field? form "rest" fields)
      (← fieldBy? Span.ofJson? "span" fields)
  | .loop, .arr [p, is, i, n, b, r, s] =>
    match form with
    | .named => none
    | .listed => do
      return .loop (← Pattern.ofJson? p) (← Exp.list? form is) (← Ident.ofJson? i)
        (← Exp.ofJson? form n) (← Exp.ofJson? form b) (← Exp.ofJson? form r) (← Span.ofJson? s)
  | .soac .map, .arr [f, es, cs, s] => do
    return .soac (.map (← Lambda.ofJson? form f)) (← Exp.list? form es) (← Ident.list? cs)
      (← Span.ofJson? s)
  | .soac .filter, .arr [f, es, cs, s] => do
    return .soac (.filter (← Lambda.ofJson? form f)) (← Exp.list? form es) (← Ident.list? cs)
      (← Span.ofJson? s)
  | .soac .reduce, .arr [f, ne, es, cs, s] => do
    return .soac (.reduce (← Lambda.ofJson? form f) (← Exp.list? form ne)) (← Exp.list? form es)
      (← Ident.list? cs) (← Span.ofJson? s)
  | .soac .scan, .arr [f, ne, es, cs, s] => do
    return .soac (.scan (← Lambda.ofJson? form f) (← Exp.list? form ne)) (← Exp.list? form es)
      (← Ident.list? cs) (← Span.ofJson? s)
  | .soac .redomap, .arr [f, g, ne, es, cs, s] => do
    return .soac
      (.redomap (← Lambda.ofJson? form f) (← Lambda.ofJson? form g) (← Exp.list? form ne))
      (← Exp.list? form es) (← Ident.list? cs) (← Span.ofJson? s)
  | _, _ => none

/-- Reads an array of expressions. -/
def Exp.list? (form : ArgumentForm) : Json → Option (List Exp)
  | .arr items => Exp.ofJsonAll? form items
  | _ => none

/-- Reads each expression of a list. -/
def Exp.ofJsonAll? (form : ArgumentForm) : List Json → Option (List Exp)
  | [] => some []
  | j :: js => do
    let e ← Exp.ofJson? form j
    return e :: (← Exp.ofJsonAll? form js)

/-- Reads the expression that some fields give to a key. -/
def Exp.field? (form : ArgumentForm) (key : String) : List (String × Json) → Option Exp
  | [] => none
  | (k, j) :: rest =>
    if k == key then
      if rest.any (·.1 == key) then none else Exp.ofJson? form j
    else Exp.field? form key rest

/-- Reads the array of expressions that some fields give to a key. -/
def Exp.listField? (form : ArgumentForm) (key : String) : List (String × Json) → Option (List Exp)
  | [] => none
  | (k, j) :: rest =>
    if k == key then
      if rest.any (·.1 == key) then none else Exp.list? form j
    else Exp.listField? form key rest

/-- Reads a lambda. -/
def Lambda.ofJson? (form : ArgumentForm) : Json → Option Lambda
  | .obj fields => do
    return ⟨← fieldBy? Ident.list? "params" fields, ← Exp.field? form "body" fields,
      ← fieldBy? Ty.components? "ret_types" fields⟩
  | .arr [ps, b, ts] => do
    return ⟨← Ident.list? ps, ← Exp.ofJson? form b, ← Ty.components? ts⟩
  | _ => none

end

/-- Reads a function. -/
def FunDef.ofJson? (form : ArgumentForm) (j : Json) : Option FunDef := do
  match ← j.record? ["name", "params", "ret_type", "body", "span"] with
  | [name, params, ret, body, span] =>
    return ⟨← name.str?, ← Ident.list? params, ← Ty.ofJson? ret, ← Exp.ofJson? form body,
      ← Span.ofJson? span⟩
  | _ => none

/-- Reads a program. -/
def Program.ofJson? (form : ArgumentForm) (j : Json) : Option Program := do
  match ← j.record? ["funs"] with
  | [funs] => return ⟨← funs.list? (FunDef.ofJson? form)⟩
  | _ => none

end ArrayFusion
