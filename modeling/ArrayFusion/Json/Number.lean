import ArrayFusion.Json.Basic

/-!
# Numbers in JSON texts

A number token is a sign, an integer part without superfluous zeros, and possibly a fraction and an
exponent.  A token of digits alone is an integer when it fits into 64 bits.  Any other token is a
float, and is unreadable when the number is larger than every float.

A `Rounding` says which float that is.  `nearest` takes the float nearest to the number.  `scaled`
computes with floats: it rounds the digits that fit into 64 bits and multiplies or divides by a
power of ten, so that the result may be off by a few units in the last place.  The two agree when
the digits make up a number of at most 53 bits and the power of ten is at most `10 ^ 22`, since then
both factors are exact.
-/

namespace ArrayFusion.Json

/-- How the float of a number token is computed. -/
inductive Rounding where
  /-- Rounding once, to the nearest float. -/
  | nearest
  /-- Rounding the leading digits and scaling the result by a power of ten. -/
  | scaled
deriving DecidableEq

/-- The parts of a number token. -/
structure NumberToken where
  negative : Bool
  whole : List Nat
  fraction : Option (List Nat)
  exponent : Option Int

namespace NumberToken

/-- The value of a sequence of decimal digits. -/
def ofDigits (ds : List Nat) : Nat := ds.foldl (fun n d => n * 10 + d) 0

/-- The float nearest to `n · 10 ^ e`, unless that is too large.  Numbers of more than 310 digits
are too large, and those below `10 ^ -330` are nearest to zero. -/
def nearest? (n : Nat) (e : Int) : Option Float :=
  -- far outside the range of the floats the power of ten need not be computed
  let magnitude : Int := (Nat.toDigits 10 n).length + e
  if n = 0 || magnitude < -330 then some 0.0
  else if 310 < magnitude then none
  else
    let x := Float.ofScientific n (e < 0) e.natAbs
    if x.isInf then none else some x

/-- Appends digits to the number `n` as long as it fits into 64 bits.  The second component is the
number of digits that are left over. -/
def appendDigits (n : Nat) : List Nat → Nat × Nat
  | [] => (n, 0)
  | d :: ds =>
    if n * 10 + d < UInt64.size then appendDigits (n * 10 + d) ds else (n, ds.length + 1)

/-- What has been appended fits into 64 bits, if the number did before. -/
theorem appendDigits_lt {n : Nat} {ds : List Nat} (h : n < UInt64.size) :
    (appendDigits n ds).1 < UInt64.size := by
  fun_induction appendDigits n ds with
  | case1 => exact h
  | case2 n d ds hd ih => exact ih hd
  | case3 => exact h

/-- The largest power of ten that is a float. -/
def maxPower : Nat := 308

/-- The power `10 ^ e`, rounded, for `e ≤ maxPower`. -/
def powerOfTen (e : Nat) : Float := Float.ofScientific 1 false e

/-- The quotient `x / 10 ^ e`, in as many steps as powers of ten are needed. -/
def divideByPower (x : Float) (e : Nat) : Float :=
  if e ≤ maxPower then x / powerOfTen e
  else if x == 0.0 then x
  else divideByPower (x / powerOfTen maxPower) (e - maxPower)
termination_by e
decreasing_by simp only [maxPower] at *; omega

/-- The float of `n`, multiplied by `10 ^ e`, unless that is too large. -/
def scale? (n : Nat) : Int → Option Float
  | .ofNat e =>
    -- rounded here once, and by the product or the quotient once more
    let x := n.toUInt64.toFloat
    if e ≤ maxPower then
      let y := x * powerOfTen e
      if y.isInf then none else some y
    else if n = 0 then some x
    else none
  | .negSucc e => some (divideByPower n.toUInt64.toFloat (e + 1))

/-- The float of a number without sign. -/
def magnitude? (r : Rounding) (whole fraction : List Nat) (exponent : Int) : Option Float :=
  match r with
  | .nearest => nearest? (ofDigits (whole ++ fraction)) (exponent - fraction.length)
  | .scaled =>
    let (n, dropped) := appendDigits 0 whole
    let (n, cut) := appendDigits n fraction
    scale? n (dropped - (fraction.length - cut : Nat) + exponent)

/-- Reads the token as a float. -/
def toFloat? (r : Rounding) (t : NumberToken) : Option Float :=
  (magnitude? r t.whole (t.fraction.getD []) (t.exponent.getD 0)).map fun x =>
    if t.negative then -x else x

/-- The value of a token.  Minus zero is a float, since no integer is like it. -/
def toJson (r : Rounding) (t : NumberToken) : Json :=
  let n : Int := if t.negative then -ofDigits t.whole else ofDigits t.whole
  -- a fraction or an exponent makes a float even of a whole number
  if t.fraction.isNone && t.exponent.isNone && isMachineInt n && !(t.negative && n = 0) then .int n
  else
    match t.toFloat? r with
    | some x => .real x
    | none => .unreadable

end NumberToken

end ArrayFusion.Json
