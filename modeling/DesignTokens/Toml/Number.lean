import DesignTokens.Decimal.Binary
import DesignTokens.Settings.Setting
import DesignTokens.Toml.Quoted

/-!
# Numbers

An integer is written in base ten with an optional sign, or in base sixteen, eight or two behind
`0x`, `0o` or `0b`. A floating-point number has a fraction, an exponent or both. Between two digits
there may be an underscore, and a whole part of more than one digit does not begin with zero.
-/

namespace DesignTokens.Toml.Number

/-- Whether a character is a digit of a base up to sixteen. -/
def isDigitOf (base : Nat) (c : Char) : Bool :=
  Quoted.isHexDigit c && decide (Decimal.digitValue c < base)

/-- Read digits with single underscores between them; `zeros` says whether the first of several
digits may be zero. -/
def digits? (base : Nat) (zeros : Bool) (cs : List Char) : Option (List Char × List Char) :=
  let belongs := fun c => isDigitOf base c || c == '_'
  let groups := (cs.takeWhile belongs).splitOnP (· == '_')
  let ds := groups.flatten
  if groups.any List.isEmpty then none
  else if !zeros && decide (1 < ds.length) && ds.head? == some '0' then none
  else some (ds, cs.dropWhile belongs)

/-- An integer that fits 64 bits. -/
def integer? (n : Int) : Option Setting :=
  if -Int.pow 2 63 ≤ n ∧ n < Int.pow 2 63 then some (.int n) else none

/-- Read an integer in a base, without a sign. -/
def inBase? (base : Nat) (cs : List Char) : Option (Setting × List Char) := do
  let (ds, rest) ← digits? base true cs
  let n ← integer? (Decimal.ofDigits base ds)
  some (n, rest)

/-- Read the fraction, if there is one. -/
def fraction? : List Char → Option (List Char × List Char)
  | '.' :: cs => digits? 10 true cs
  | cs => some ([], cs)

/-- Read the exponent, if there is one. -/
def exponent? : List Char → Option (Int × List Char)
  | c :: cs =>
    if c == 'e' || c == 'E' then do
      let (negative, cs) := Decimal.splitSign cs
      let (ds, rest) ← digits? 10 true cs
      let n : Int := Decimal.ofDigits 10 ds
      some (if negative then -n else n, rest)
    else some (0, c :: cs)
  | [] => some (0, [])

/-- Read digits, a fraction and an exponent. Without the last two it is an integer. -/
def decimal? (negative : Bool) (cs : List Char) : Option (Setting × List Char) := do
  let (whole, afterWhole) ← digits? 10 false cs
  let (fraction, afterFraction) ← fraction? afterWhole
  let (exponent, rest) ← exponent? afterFraction
  if rest.length = afterWhole.length then
    let n : Int := Decimal.ofDigits 10 whole
    let value ← integer? (if negative then -n else n)
    some (value, rest)
  else
    let x := Binary64.ofDecimal
      ⟨negative, Decimal.ofDigits 10 (whole ++ fraction), exponent - fraction.length⟩
    if x.isFinite then some (.float x, rest) else none

/-- Read a number that has its minus sign behind it, if any. -/
def magnitude? (negative : Bool) : List Char → Option (Setting × List Char)
  | 'i' :: 'n' :: 'f' :: rest => some (.float (.infinity negative), rest)
  | 'n' :: 'a' :: 'n' :: rest => some (.float .nan, rest)
  | cs => decimal? negative cs

/-- Read a number without a plus sign. -/
def unplussed? : List Char → Option (Setting × List Char)
  | '0' :: 'x' :: cs => inBase? 16 cs
  | '0' :: 'o' :: cs => inBase? 8 cs
  | '0' :: 'b' :: cs => inBase? 2 cs
  | '-' :: cs => magnitude? true cs
  | cs => magnitude? false cs

/-- Read a number. A plus sign may stand before any of them. -/
def read? : List Char → Option (Setting × List Char)
  | '+' :: cs => unplussed? cs
  | cs => unplussed? cs

end DesignTokens.Toml.Number
