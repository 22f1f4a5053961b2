import ArrayFusion.Decimal.Shortest

/-!
# Decimals as text

A decimal is written positionally (`0.00015`, `1500.0`) when its first digit stands within the
bounds of a `Layout`, and with an exponent (`1.5e-7`, `1e16` or `1e+16`) otherwise.
`Decimal.ofFloat` writes a float: its shortest decimal in the given layout, with a sign, and names
for what is not finite.
-/

namespace ArrayFusion

namespace Decimal

/-- How floats are written: positionally from `10 ^ least` up to, but without, `10 ^ bound`; with a
plus in front of a positive exponent if `signedExponent` holds; and with ties between equally near
decimals resolved by `tie`. -/
structure Layout where
  least : Int
  bound : Int
  signedExponent : Bool
  tie : Tie

/-- The significant digits, without the zeros at the end, and the power of ten of the first one. -/
def significant (d : Decimal) : List Char × Int :=
  let ds := Nat.toDigits 10 d.digits
  -- trailing zeros are counted by the exponent
  let kept := (ds.reverse.dropWhile (· == '0')).reverse
  (kept, d.exponent + ds.length - 1)

/-- Digits with the point after the first `n` of them, filled with zeros on either side.  There is
always a digit on both sides of the point. -/
def positional (ds : List Char) (n : Int) : List Char :=
  if n ≤ 0 then '0' :: '.' :: List.replicate (-n).toNat '0' ++ ds
  else
    let k := n.toNat
    let whole := ds.take k ++ List.replicate (k - ds.length) '0'
    match ds.drop k with
    | [] => whole ++ ['.', '0']
    | rest => whole ++ '.' :: rest

/-- Digits in scientific form: one digit before the point, no point after a lone digit, and the
exponent, with a plus if it is positive and to be `signed`. -/
def scientific (signed : Bool) (ds : List Char) (e : Int) : List Char :=
  let mantissa := match ds with
    | [] => []
    | [d] => [d]
    | d :: rest => d :: '.' :: rest
  let sign := if signed && 0 ≤ e then ['+'] else []
  mantissa ++ 'e' :: sign ++ (toString e).toList

/-- The text of a positive decimal. -/
def text (l : Layout) (d : Decimal) : String :=
  let (ds, e) := d.significant
  String.ofList
    (if l.least ≤ e && e < l.bound then positional ds (e + 1) else scientific l.signedExponent ds e)

/-- The text of a float.  Zero keeps its sign, a number that is not a number has none. -/
def ofFloat (l : Layout) (x : Float) : String :=
  if x.isNaN then "NaN"
  else
    let sign := if x.toBits >>> 63 == 1 then "-" else ""
    let magnitude :=
      if x.isInf then "inf"
      else if x == 0 then "0.0"
      else (shortest l.tie x).text l
    sign ++ magnitude

end Decimal

end ArrayFusion
