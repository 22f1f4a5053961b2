import ArrayFusion.Eval.Arrays

/-!
# What the operators compute

Integers have 64 bits and wrap around; their division goes toward zero, and the remainder takes the
sign of the dividend.  Division by the integer 0 is the only operation on two operands of the right
kind that fails, and a comparison with a float that is not a number.  Equality is defined on any two
values.
-/

namespace ArrayFusion

/-- The remainder of a division of floats that goes toward zero.  It is exact: with both operands as
multiples of one power of two it is the remainder of their integer parts, and it takes the sign of
the dividend. -/
def remainder (x y : Float) : Float :=
  if x.isNaN || y.isNaN || x.isInf || y == 0 then 0.0 / 0.0
  else if y.isInf || x == 0 then x
  else
    let a := Decimal.Binary.ofBits x.toBits
    let b := Decimal.Binary.ofBits y.toBits
    let e := min a.exponent b.exponent
    let m := a.mantissa * Decimal.twoTo (a.exponent - e)
    let n := b.mantissa * Decimal.twoTo (b.exponent - e)
    let r := (Float.ofNat (m % n)).scaleB e
    if x < 0 then -r else r

/-- The smaller of two floats; of two equal ones the second, so that two zeros give the sign of the
second, and never one that is not a number if the other is. -/
def lesser (x y : Float) : Float := if y.isNaN || x < y then x else y

/-- The larger of two floats; of two equal ones the second, so that two zeros give the sign of the
second, and never one that is not a number if the other is. -/
def greater (x y : Float) : Float := if y.isNaN || y < x then x else y

namespace Value

/-- The order of two scalars of one kind.  Floats that are not numbers have none. -/
def compare? : Value → Value → Option Ordering
  | .int n, .int m => some (if n < m then .lt else if n = m then .eq else .gt)
  | .real x, .real y =>
    if x < y then some .lt else if x == y then some .eq else if y < x then some .gt else none
  | .char c, .char d => some (compare c.toNat d.toNat)
  | .bool a, .bool b => some (compare a.toNat b.toNat)
  | _, _ => none

/-- The outcome of a comparison whose verdict on the order is `verdict`. -/
def comparison (verdict : Ordering → Bool) (v w : Value) : Except EvalError Value :=
  match v.compare? w with
  | some o => .ok (.bool (verdict o))
  | none => .error (.wrongKind .comparable (.two v.kind w.kind))

/-- An arithmetical operation with one meaning on integers and one on floats. -/
def arithmetic (op : BinaryOp) (onInt : Int64 → Int64 → Except EvalError Int64)
    (onReal : Float → Float → Float) (v w : Value) : Except EvalError Value :=
  match v, w with
  | .int n, .int m => (onInt n m).map .int
  | .real x, .real y => .ok (.real (onReal x y))
  | v, w => .error (.wrongKind (.operandsFor op) (.two v.kind w.kind))

/-- An operation on truth values. -/
def logical (op : BinaryOp) (f : Bool → Bool → Bool) (v w : Value) : Except EvalError Value :=
  match v, w with
  | .bool a, .bool b => .ok (.bool (f a b))
  | v, w => .error (.wrongKind (.operandsFor op) (.two v.kind w.kind))

/-- A division of integers, which fails for the divisor 0. -/
def divided (f : Int64 → Int64 → Int64) (n m : Int64) : Except EvalError Int64 :=
  if m = 0 then .error .divisionByZero else .ok (f n m)

/-- Applies a binary operator. -/
def binary (op : BinaryOp) (v w : Value) : Except EvalError Value :=
  match op with
  | .plus => arithmetic op (fun n m => .ok (n + m)) (· + ·) v w
  | .minus => arithmetic op (fun n m => .ok (n - m)) (· - ·) v w
  | .times => arithmetic op (fun n m => .ok (n * m)) (· * ·) v w
  | .divide => arithmetic op (divided (· / ·)) (· / ·) v w
  | .mod => arithmetic op (divided (· % ·)) remainder v w
  | .min => arithmetic op (fun n m => .ok (if m < n then m else n)) lesser v w
  | .max => arithmetic op (fun n m => .ok (if n < m then m else n)) greater v w
  | .logAnd => logical op and v w
  | .logOr => logical op or v w
  | .equal => .ok (.bool (v == w))
  | .notEqual => .ok (.bool (v != w))
  | .less => comparison (· == .lt) v w
  | .leq => comparison (· != .gt) v w
  | .greater => comparison (· == .gt) v w
  | .geq => comparison (· != .lt) v w

/-- The value with the opposite sign. -/
def negate : Value → Except EvalError Value
  | .int n => .ok (.int (-n))
  | .real x => .ok (.real (-x))
  | v => .error (.wrongKind .number (.one v.kind))

/-- Applies a unary operator. -/
def unary (op : UnaryOp) (v : Value) : Except EvalError Value :=
  match op with
  | .not => v.toBool.map fun b => .bool (!b)
  | .negate => v.negate
  | .iota => v.toInt.map iota
  | .size => v.size
  | .transpose => v.transpose

end Value

end ArrayFusion
