/-!
# The shortest decimal that reads back

A finite nonzero `Float` is `± m · 2 ^ q`.  All reals of an interval around it round to it, so it
can be written with any decimal of that interval.  `shortest` takes the decimal
`digits · 10 ^ exponent` with the fewest digits, and of several with as few the one nearest to the
number; between two equally near ones a `Tie` decides.

The search runs over the decimal grids `10 ^ exponent`, the coarsest first.  If a point of a grid
lies in the interval, so does one of the two grid points next to the number, so two candidates per
grid are enough.  Everything is computed exactly, in natural numbers.
-/

namespace ArrayFusion

/-- The nonnegative number `digits · 10 ^ exponent`. -/
structure Decimal where
  digits : Nat
  exponent : Int
deriving DecidableEq, Inhabited

namespace Decimal

/-- Which of two equally near decimals is taken. -/
inductive Tie where
  /-- The larger one. -/
  | up
  /-- The one whose last digit is even. -/
  | even

/-- `10 ^ n` for `n ≥ 0`, and 1 otherwise. -/
def tenTo (n : Int) : Nat := Nat.pow 10 n.toNat

/-- `2 ^ n` for `n ≥ 0`, and 1 otherwise. -/
def twoTo (n : Int) : Nat := Nat.pow 2 n.toNat

/-- A positive binary number `mantissa · 2 ^ exponent`.  `isBoundary` holds when the next smaller
number is only half as far away as the next larger one. -/
structure Binary where
  mantissa : Nat
  exponent : Int
  isBoundary : Bool

/-- The absolute value of a finite number, read off its 64 bits. -/
def Binary.ofBits (bits : UInt64) : Binary :=
  let fraction := (bits &&& 0xFFFFFFFFFFFFF).toNat
  let biased := ((bits >>> 52) &&& 0x7FF).toNat
  -- the subnormal numbers have no leading one
  if biased = 0 then ⟨fraction, -1074, false⟩
  else ⟨fraction + twoTo 52, biased - 1075, fraction == 0 && biased > 1⟩

/-- The point of the grid `10 ^ g` that is to be written for `b`, if one of its two neighbours on
that grid rounds to it.  With the denominators cleared, `b` is `4 m · u` and its interval goes from
`4 m · u - below` to `4 m · u + 2 u`, the ends included for an even mantissa. -/
def onGrid? (tie : Tie) (b : Binary) (g : Int) : Option Nat :=
  let u := twoTo (b.exponent - 2) * tenTo (-g)
  -- one of the two powers of ten is 1, and so is one of the two powers of two
  let cell := tenTo g * twoTo (2 - b.exponent)
  let value := 4 * b.mantissa * u
  let least := value - (if b.isBoundary then u else 2 * u)
  let most := value + 2 * u
  let closed := b.mantissa % 2 == 0
  let inside (n : Nat) : Bool :=
    if closed then least ≤ n && n ≤ most else least < n && n < most
  let low := value / cell
  let high := low + 1
  match inside (low * cell), inside (high * cell) with
  | true, true =>
    -- both neighbours round to the number, so the nearer one is written
    match compare (value - low * cell) (high * cell - value), tie with
    | .lt, _ => some low
    | .gt, _ => some high
    | .eq, .up => some high
    | .eq, .even => some (if low % 2 == 0 then low else high)
  | true, false => some low
  | false, true => some high
  | false, false => none

/-- The first of the grids `10 ^ g`, `10 ^ (g - 1)`, … that has a point for `b`, with that point. -/
def search (tie : Tie) (b : Binary) : Nat → Int → Decimal
  | 0, g => ⟨b.mantissa * twoTo b.exponent, g⟩
  | steps + 1, g =>
    match onGrid? tie b g with
    | some n => ⟨n, g⟩
    | none => search tie b steps (g - 1)

/-- The shortest decimal that rounds to `|x|`, for a finite `x ≠ 0`.  The first grid tried is at
least as coarse as the number itself; 17 digits always suffice, so 24 grids do. -/
def shortest (tie : Tie) (x : Float) : Decimal :=
  let b := Binary.ofBits x.toBits
  search tie b 24 (((b.mantissa.log2 + b.exponent) * 1233) / 4096 + 2)

end Decimal

end ArrayFusion
