import DesignTokens.Decimal.Notation
import DesignTokens.Table

/-!
# Settings

The values that the settings of a project are made of. Where a text is expected, a number or a
truth value stands for its text (`text?`); nothing else does.
-/

namespace DesignTokens

/-- A value in the settings of a project. -/
inductive Setting where
  | nil
  | bool (b : Bool)
  | int (n : Int)
  | float (x : Binary64)
  | text (s : String)
  | list (items : List Setting)
  | table (entries : List (String × Setting))
  deriving Inhabited

namespace Setting

/-- Numbers are written in full, without an exponent, and a whole number has no point. -/
def floatStyle : FloatStyle where
  positional := none
  wholePoint := false
  exponentPlus := false
  nan := "NaN"
  infinity := "inf"
  negativeInfinity := "-inf"

/-- The text that a setting is or stands for. -/
def text? : Setting → Option String
  | text s => some s
  | bool b => some (if b then "true" else "false")
  | int n => some (String.ofList (Decimal.intText n))
  | float x => some (String.ofList (floatStyle.text x))
  | nil => none
  | list _ => none
  | table _ => none

end Setting

end DesignTokens
