import DesignTokens.Decimal.Shortest

/-!
# Notations for floating-point numbers

A `FloatStyle` says how the shortest digits of a number are laid out: which numbers are written
positionally and which with an exponent, and the words for the special values.
-/

namespace DesignTokens

open Decimal

/-- How floating-point numbers are written. -/
structure FloatStyle where
  /-- A number with digits `d` and its point behind the first `p` of them is written without an
  exponent if `least < p ≤ greatest`; without bounds, always. -/
  positional : Option (Int × Int)
  /-- Whether a whole number written positionally ends in `.0`. -/
  wholePoint : Bool
  /-- Whether a positive exponent gets a plus sign. -/
  exponentPlus : Bool
  nan : String
  infinity : String
  negativeInfinity : String

namespace FloatStyle

/-- Digits with the point behind the first `point` of them, filled up with zeros. -/
def positionalText (style : FloatStyle) (ds : List Char) (point : Int) : List Char :=
  if point ≤ 0 then '0' :: '.' :: List.replicate (-point).toNat '0' ++ ds
  else
    let n := point.toNat
    if n < ds.length then ds.take n ++ '.' :: ds.drop n
    else
      ds ++ List.replicate (n - ds.length) '0' ++ (if style.wholePoint then ['.', '0'] else [])

/-- Digits with the point behind the first of them and an exponent. -/
def scientificText (style : FloatStyle) (ds : List Char) (point : Int) : List Char :=
  let mantissa := match ds with
    | d :: e :: rest => d :: '.' :: e :: rest
    | _ => ds
  let plus := if style.exponentPlus ∧ 1 ≤ point then ['+'] else []
  mantissa ++ 'e' :: plus ++ intText (point - 1)

/-- A finite number without its sign. -/
def magnitudeText (style : FloatStyle) (significand : Nat) (exponent : Int) : List Char :=
  if significand = 0 then '0' :: (if style.wholePoint then ['.', '0'] else [])
  else
    let (n, i) := shortest significand exponent
    let ds := digits n
    let point : Int := ds.length + i
    match style.positional with
    | none => style.positionalText ds point
    | some (least, greatest) =>
      if least < point ∧ point ≤ greatest then style.positionalText ds point
      else style.scientificText ds point

/-- A number in this style. -/
def text (style : FloatStyle) : Binary64 → List Char
  | .nan => style.nan.toList
  | .infinity negative =>
    (if negative then style.negativeInfinity else style.infinity).toList
  | .finite negative significand exponent =>
    (if negative then ['-'] else []) ++ style.magnitudeText significand exponent

end FloatStyle

end DesignTokens
