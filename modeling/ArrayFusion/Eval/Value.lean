import ArrayFusion.Eval.Error
import ArrayFusion.Json.Decode

/-!
# Values

A value is a scalar, a tuple or an array; an array of two dimensions is an array of arrays.  Several
results are one value, a tuple unless there is exactly one.
-/

namespace ArrayFusion

/-- A value. -/
inductive Value where
  | int (n : Int64)
  | real (x : Float)
  | bool (b : Bool)
  | char (c : Char)
  | tuple (vs : List Value)
  | array (vs : List Value)
deriving Inhabited

namespace Value

/-- The value of a constant. -/
def ofLiteral : Literal → Value
  | .int n => .int n
  | .real x => .real x
  | .bool b => .bool b
  | .char c => .char c

/-- An array of integers. -/
def intArray (ns : List Int64) : Value := .array (ns.map .int)

/-- What kind of value it is. -/
def kind : Value → Kind
  | .int _ => .int
  | .real _ => .real
  | .bool _ => .bool
  | .char _ => .char
  | .tuple _ => .tuple
  | .array _ => .array

mutual

/-- Are the two values equal?  Floats are compared as numbers: the two zeros are equal, and what is
not a number equals nothing. -/
def beq : Value → Value → Bool
  | .int n, .int m => n == m
  | .real x, .real y => x == y
  | .bool a, .bool b => a == b
  | .char c, .char d => c == d
  | .tuple vs, .tuple ws => beqAll vs ws
  | .array vs, .array ws => beqAll vs ws
  | _, _ => false

/-- Are the two lists of values equal? -/
def beqAll : List Value → List Value → Bool
  | [], [] => true
  | v :: vs, w :: ws => beq v w && beqAll vs ws
  | _, _ => false

end

instance : BEq Value := ⟨beq⟩

/-- Several results as one value: the only one, or else a tuple of them. -/
def ofResults : List Value → Value
  | [v] => v
  | vs => .tuple vs

/-- A value as `arity` results. -/
def results (arity : Nat) (v : Value) : Except EvalError (List Value) :=
  if arity = 1 then .ok [v]
  else
    match v with
    | .tuple vs =>
      if vs.length = arity then .ok vs else .error (.wrongKind (.tupleOf arity) (.one .tuple))
    | v => .error (.wrongKind (.tupleOf arity) (.one v.kind))

/-- The integer that a value is. -/
def toInt : Value → Except EvalError Int64
  | .int n => .ok n
  | v => .error (.wrongKind .int (.one v.kind))

/-- The truth value that a value is. -/
def toBool : Value → Except EvalError Bool
  | .bool b => .ok b
  | v => .error (.wrongKind .bool (.one v.kind))

/-- The rows of an array. -/
def toArray : Value → Except EvalError (List Value)
  | .array vs => .ok vs
  | v => .error (.wrongKind .array (.one v.kind))

mutual

/-- A tuple is written in parentheses, an array in brackets, a scalar like a literal. -/
def text : Value → String
  | .int n => toString n.toInt
  | .real x => realText x
  | .bool b => boolText b
  | .char c => Text.quotedChar c
  | .tuple vs => "(" ++ Text.commaSep (texts vs) ++ ")"
  | .array vs => "[" ++ Text.commaSep (texts vs) ++ "]"

/-- The texts of a list of values. -/
def texts : List Value → List String
  | [] => []
  | v :: vs => v.text :: texts vs

end

mutual

/-- A value as JSON, by its kind. -/
def toJson : Value → Json
  | .int n => .tagged "Int" (.int n.toInt)
  | .real x => .tagged "Real" (.real x)
  | .bool b => .tagged "Bool" (.bool b)
  | .char c => .tagged "Char" (.str c.toString)
  | .tuple vs => .tagged "Tuple" (.arr (toJsonAll vs))
  | .array vs => .tagged "Array" (.arr (toJsonAll vs))

/-- The values of a list. -/
def toJsonAll : List Value → List Json
  | [] => []
  | v :: vs => v.toJson :: toJsonAll vs

end

mutual

/-- Reads a value from JSON. -/
def ofJson? : Json → Option Value
  | .obj [(tag, payload)] =>
    if tag = "Int" then payload.int64?.map .int
    else if tag = "Real" then payload.float?.map .real
    else if tag = "Bool" then payload.bool?.map .bool
    else if tag = "Char" then payload.char?.map .char
    else if tag = "Tuple" then (list? payload).map .tuple
    else if tag = "Array" then (list? payload).map .array
    else none
  | _ => none

/-- Reads an array of values. -/
def list? : Json → Option (List Value)
  | .arr items => ofJsonAll? items
  | _ => none

/-- Reads each value of a list. -/
def ofJsonAll? : List Json → Option (List Value)
  | [] => some []
  | j :: js => do
    let v ← ofJson? j
    return v :: (← ofJsonAll? js)

end

end Value

end ArrayFusion
