import ArrayFusion.Syntax.Operator

/-!
# Evaluation errors

What can go wrong in an evaluation is an `EvalError`, which says why; its wording is in
`EvalError.message`.
-/

namespace ArrayFusion

/-- The kinds of values. -/
inductive Value.Kind where
  | int
  | real
  | bool
  | char
  | tuple
  | array
deriving DecidableEq

/-- The name of a kind of values. -/
def Value.Kind.text : Value.Kind → String
  | .int => "int"
  | .real => "real"
  | .bool => "bool"
  | .char => "char"
  | .tuple => "tuple"
  | .array => "array"

/-- What was wanted where a value of another kind was found. -/
inductive Wanted where
  | int
  | bool
  | array
  | number
  | tupleOf (n : Nat)
  | comparable
  | operandsFor (op : BinaryOp)
deriving DecidableEq

/-- The words for what was wanted. -/
def Wanted.text : Wanted → String
  | .int => "int"
  | .bool => "bool"
  | .array => "array"
  | .number => "number"
  | .tupleOf n => s!"tuple of {n}"
  | .comparable => "comparable scalars"
  | .operandsFor op => s!"operands for {op.text}"

/-- What was found: one value, or the two operands of an operator. -/
inductive Found where
  | one (k : Value.Kind)
  | two (k l : Value.Kind)
deriving DecidableEq

/-- The words for what was found. -/
def Found.text : Found → String
  | .one k => k.text
  | .two k l => s!"{k.text} and {l.text}"

/-- How arrays can fail to fit together. -/
inductive Misfit where
  /-- Arguments of a combinator have different lengths. -/
  | lengths (first other : Nat)
  /-- The rows of an array to be transposed have different lengths. -/
  | ragged
deriving DecidableEq

/-- The words for arrays that do not fit together. -/
def Misfit.text : Misfit → String
  | .lengths n m => s!"inputs of length {n} and {m}"
  | .ragged => "ragged array in transpose"

/-- Why an evaluation failed. -/
inductive EvalError where
  | unboundVariable (x : Name)
  | unknownFunction (fn : String)
  | wrongKind (wanted : Wanted) (found : Found)
  | wrongArity (expected got : Nat)
  | shapeMismatch (misfit : Misfit)
  | indexOutOfBounds (index : Int64) (length : Nat)
  | divisionByZero
  | stackOverflow
deriving DecidableEq

/-- The wording of an evaluation error. -/
def EvalError.message : EvalError → String
  | .unboundVariable x => s!"unbound variable: {x.text}"
  | .unknownFunction f => s!"unknown function: {f}"
  | .wrongKind wanted found => s!"type error: expected {wanted.text}, got {found.text}"
  | .wrongArity expected got => s!"arity mismatch: expected {expected} arguments, got {got}"
  | .shapeMismatch misfit => s!"shape mismatch: {misfit.text}"
  | .indexOutOfBounds i n => s!"index {i.toInt} out of bounds for array of length {n}"
  | .divisionByZero => "division by zero"
  | .stackOverflow => "stack overflow: maximum call depth exceeded"

end ArrayFusion
