import DesignTokens.Decimal.Notation

/-!
# Numbers of a token source

A number in a token source is an integer or a floating-point number, and the two kinds stay apart:
`1` and `1.0` are different numbers with different texts.
-/

namespace DesignTokens

/-- A number of a token source. -/
inductive Number where
  | int (n : Int)
  | float (x : Binary64)
  deriving DecidableEq, Repr

namespace Number

/-- Floating-point numbers have a point or an exponent, which tells them from integers; the
special values are written as the document language spells them. -/
def floatStyle : FloatStyle where
  positional := some (-5, 16)
  wholePoint := true
  exponentPlus := false
  nan := ".nan"
  infinity := ".inf"
  negativeInfinity := "-.inf"

/-- The text of a number. -/
def text : Number → List Char
  | int n => Decimal.intText n
  | float x => floatStyle.text x

/-- Equality of numbers of one kind: the two zeros are the same, and so is not-a-number with
itself. -/
def same : Number → Number → Bool
  | int m, int n => m == n
  | float x, float y => x.same y
  | _, _ => false

end Number

end DesignTokens
