import ArrayFusion.Syntax.Ty
import ArrayFusion.Decimal.Layout

/-!
# Literals and operators
-/

namespace ArrayFusion

/-- A constant of a scalar type.  Integers have 64 bits. -/
inductive Literal where
  | int (n : Int64)
  | real (x : Float)
  | bool (b : Bool)
  | char (c : Char)
deriving DecidableEq

/-- Floats between `10 ^ -4` and `10 ^ 16` are written positionally, and the larger of two equally
near decimals is taken. -/
def realLayout : Decimal.Layout := ⟨-4, 16, false, .up⟩

/-- The text of a float in programs and values. -/
def realText (x : Float) : String := Decimal.ofFloat realLayout x

/-- The text of a truth value. -/
def boolText (b : Bool) : String := if b then "true" else "false"

namespace Literal

/-- The type of a constant. -/
def ty : Literal → Ty
  | .int _ => .int
  | .real _ => .real
  | .bool _ => .bool
  | .char _ => .char

/-- The text of a constant; a character stands between single quotes. -/
def text : Literal → String
  | .int n => toString n.toInt
  | .real x => realText x
  | .bool b => boolText b
  | .char c => Text.quotedChar c

end Literal

/-- An operator between two operands. -/
inductive BinaryOp where
  | plus
  | minus
  | times
  | divide
  | mod
  | equal
  | notEqual
  | less
  | leq
  | greater
  | geq
  | logAnd
  | logOr
  | min
  | max
deriving DecidableEq

/-- The sign of an operator; the two that are functions stand between grave accents. -/
def BinaryOp.text : BinaryOp → String
  | .plus => "+"
  | .minus => "-"
  | .times => "*"
  | .divide => "/"
  | .mod => "%"
  | .equal => "=="
  | .notEqual => "!="
  | .less => "<"
  | .leq => "<="
  | .greater => ">"
  | .geq => ">="
  | .logAnd => "&&"
  | .logOr => "||"
  | .min => "\x60min\x60"
  | .max => "\x60max\x60"

/-- An operator with one operand: the two negations, and three that deal with arrays. -/
inductive UnaryOp where
  | not
  | negate
  /-- The array of the integers from 0 up to, but without, the operand. -/
  | iota
  /-- The length of an array. -/
  | size
  /-- An array of arrays with its two outer dimensions exchanged. -/
  | transpose
deriving DecidableEq

end ArrayFusion
