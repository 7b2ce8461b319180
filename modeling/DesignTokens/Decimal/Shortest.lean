import DesignTokens.Decimal.Binary

/-!
# Shortest decimals

The decimal with the fewest digits that reads back as a given double-precision number, and among
those the one nearest to it. `shortest` tries the grids of 1, 2, … significant digits in turn: if
any decimal of a grid lies in the interval of numbers that round to the value, then so does one of
the two neighbours of the value on that grid.
-/

namespace DesignTokens.Decimal

/-- `a * 10 ^ i` compared with `b * 2 ^ j`, exactly. -/
def comparePowers (a : Nat) (i : Int) (b : Nat) (j : Int) : Ordering :=
  compare (a * Nat.pow 10 i.toNat * Nat.pow 2 (-j).toNat)
    (b * Nat.pow 2 j.toNat * Nat.pow 10 (-i).toNat)

/-- The open or closed interval of numbers that round to a value, in units of `2 ^ exponent`: a
quarter of the unit of the value. -/
structure RoundingInterval where
  low : Nat
  value : Nat
  high : Nat
  exponent : Int
  closed : Bool

/-- The interval of numbers that round to `significand * 2 ^ exponent`. Below a power of two the
numbers lie twice as dense. -/
def RoundingInterval.around (significand : Nat) (exponent : Int) : RoundingInterval :=
  let dense := significand = Nat.pow 2 52 ∧ Binary64.leastExponent < exponent
  { low := 4 * significand - (if dense then 1 else 2)
    value := 4 * significand
    high := 4 * significand + 2
    exponent := exponent - 2
    closed := significand % 2 = 0 }

/-- Whether `n * 10 ^ i` lies in the interval. -/
def RoundingInterval.holds (r : RoundingInterval) (n : Nat) (i : Int) : Bool :=
  match comparePowers n i r.low r.exponent, comparePowers n i r.high r.exponent with
  | .gt, .lt => true
  | .eq, _ => r.closed
  | _, .eq => r.closed
  | _, _ => false

/-- The multiple of `10 ^ i` that is nearest to the value of the interval, of the neighbours that
lie in it. -/
def RoundingInterval.onGrid? (r : RoundingInterval) (i : Int) : Option Nat :=
  let num := r.value * Nat.pow 2 r.exponent.toNat * Nat.pow 10 (-i).toNat
  let den := Nat.pow 2 (-r.exponent).toNat * Nat.pow 10 i.toNat
  let below := num / den
  match r.holds below i, r.holds (below + 1) i with
  | true, true => some (Binary64.roundQuotient num den)
  | true, false => some below
  | false, true => some (below + 1)
  | false, false => none

/-- The number of digits before the point of a positive quotient, or minus the number of zeros
behind it: the least `k` with `num / den < 10 ^ k`. The estimate from the lengths of the two
numbers is at most one too small. -/
def pointPosition (num den : Nat) : Int :=
  let estimate : Int := (digits num).length - ((digits den).length : Int)
  if num * Nat.pow 10 (-estimate).toNat < den * Nat.pow 10 estimate.toNat then estimate
  else estimate + 1

/-- The first grid of at most 17 significant digits with a point in the interval; `17 - fuel` is
the number of digits tried before. -/
def RoundingInterval.search (r : RoundingInterval) (point : Int) : Nat → Nat × Int
  | 0 => (r.value, r.exponent)
  | fuel + 1 =>
    let i := point - (17 - fuel : Nat)
    match r.onGrid? i with
    | some n => (n, i)
    | none => r.search point fuel

/-- Move the trailing zeros of a coefficient into the exponent, at most `fuel` of them. -/
def dropZeros : Nat → Nat → Int → Nat × Int
  | 0, n, i => (n, i)
  | fuel + 1, n, i => if n ≠ 0 ∧ n % 10 = 0 then dropZeros fuel (n / 10) (i + 1) else (n, i)

/-- The shortest decimal of the positive value `significand * 2 ^ exponent`: a coefficient without
trailing zeros, and a power of ten. -/
def shortest (significand : Nat) (exponent : Int) : Nat × Int :=
  let point :=
    pointPosition (significand * Nat.pow 2 exponent.toNat) (Nat.pow 2 (-exponent).toNat)
  let (n, i) := (RoundingInterval.around significand exponent).search point 17
  dropZeros 17 n i

end DesignTokens.Decimal
