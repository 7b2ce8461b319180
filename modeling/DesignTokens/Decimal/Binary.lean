import DesignTokens.Decimal.Basic

/-!
# Double-precision numbers

The values of the 64-bit binary floating-point format, each in one form only: a finite value is
`significand * 2 ^ exponent`, where the significand has 53 bits unless the exponent is the least
one. `ofDecimal` rounds a decimal to the nearest value, with ties to the even significand.
-/

namespace DesignTokens

/-- A double-precision number. Not-a-number is one value: its payload is not kept. -/
inductive Binary64 where
  | nan
  | infinity (negative : Bool)
  | finite (negative : Bool) (significand : Nat) (exponent : Int)
  deriving DecidableEq, Repr

namespace Binary64

/-- The exponent of the numbers next to zero. -/
def leastExponent : Int := -1074

/-- The exponent of the largest finite numbers. -/
def greatestExponent : Int := 971

/-- Zero with a sign. -/
def zero (negative : Bool) : Binary64 :=
  .finite negative 0 leastExponent

/-- The quotient of two natural numbers, rounded to the nearest, ties to the even one. -/
def roundQuotient (num den : Nat) : Nat :=
  let q := num / den
  let twice := 2 * (num % den)
  if den < twice ∨ (twice = den ∧ q % 2 = 1) then q + 1 else q

/-- The quotient `num / den` measured in units of `2 ^ exponent`, rounded to the nearest. -/
def significandAt (num den : Nat) (exponent : Int) : Nat :=
  roundQuotient (num * Nat.pow 2 (-exponent).toNat) (den * Nat.pow 2 exponent.toNat)

/-- The least exponent at which the quotient `num / den` has no more than 53 bits before the
point. -/
def exponentFor (num den : Nat) : Int :=
  let estimate : Int := (Nat.log2 num : Int) - Nat.log2 den - 53
  let fits (e : Int) : Bool := num * Nat.pow 2 (-e).toNat < Nat.pow 2 53 * (den * Nat.pow 2 e.toNat)
  max leastExponent (if fits estimate then estimate else estimate + 1)

/-- The double-precision number nearest to a positive quotient. -/
def ofQuotient (negative : Bool) (num den : Nat) : Binary64 :=
  let exponent := exponentFor num den
  let significand := significandAt num den exponent
  let (significand, exponent) :=
    if significand = Nat.pow 2 53 then (Nat.pow 2 52, exponent + 1) else (significand, exponent)
  if significand = 0 then zero negative
  else if greatestExponent < exponent then .infinity negative
  else .finite negative significand exponent

/-- The double-precision number nearest to a decimal. Far outside the range of the format the
answer follows from the magnitude alone, and the power of ten is not computed. -/
def ofDecimal (d : Decimal) : Binary64 :=
  let magnitude : Int := (Decimal.digits d.coefficient).length + d.exponent
  if d.coefficient = 0 ∨ magnitude < -400 then zero d.negative
  else if 400 < magnitude then .infinity d.negative
  else
    ofQuotient d.negative (d.coefficient * Nat.pow 10 d.exponent.toNat)
      (Nat.pow 10 (-d.exponent).toNat)

/-- Whether a number is neither infinite nor not-a-number. -/
def isFinite : Binary64 → Bool
  | finite .. => true
  | _ => false

/-- Numerical equality, except that not-a-number equals itself: the two zeros are equal. -/
def same (x y : Binary64) : Bool :=
  match x, y with
  | .finite _ 0 _, .finite _ 0 _ => true
  | _, _ => x == y

/-- Read a decimal, or one of the words `nan`, `inf` and `infinity` in letters of either case with
an optional sign. -/
def read? (text : List Char) : Option Binary64 :=
  let (negative, word) := Decimal.splitSign text
  let word := String.ofList (word.map Char.toLower)
  if word = "nan" then some .nan
  else if word = "inf" ∨ word = "infinity" then some (.infinity negative)
  else (Decimal.read? text).map ofDecimal

end Binary64

end DesignTokens
