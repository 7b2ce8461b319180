import DesignTokens.Yaml.Value

/-!
# The types of scalars

A plain scalar without a tag is null, a truth value, a number or a text, whichever its characters
fit first. A tag of the core schema demands one type.

Integers beyond 64 bits are refused as long as they fit into 128 bits, and become floating-point
numbers beyond that. Digits behind a leading zero are a text, for they would be read differently by
different readers.
-/

namespace DesignTokens.Yaml.Scalar

/-- Read one of the words for null. -/
def isNull (cs : List Char) : Bool :=
  ["null", "Null", "NULL", "~"].contains (String.ofList cs)

/-- Read one of the words for a truth value. -/
def bool? (cs : List Char) : Option Bool :=
  let word := String.ofList cs
  if ["true", "True", "TRUE"].contains word then some true
  else if ["false", "False", "FALSE"].contains word then some false
  else none

/-- Whether a character is a digit in a base of at most 16. -/
def isDigitOf (base : Nat) (c : Char) : Bool :=
  (c.isDigit || ('a' ≤ c && c ≤ 'f') || ('A' ≤ c && c ≤ 'F')) && Decimal.digitValue c < base

/-- Read a number in a base. -/
def natural? (base : Nat) (cs : List Char) : Option Nat :=
  if !cs.isEmpty && cs.all (isDigitOf base) then some (Decimal.ofDigits base cs) else none

/-- Read a number behind the mark for its base. -/
def basedNatural? : List Char → Option Nat
  | '0' :: 'x' :: cs => natural? 16 cs
  | '0' :: 'o' :: cs => natural? 8 cs
  | '0' :: 'b' :: cs => natural? 2 cs
  | _ => none

/-- Whether a text is a zero and further digits, behind at most one sign. -/
def isZeroLed (cs : List Char) : Bool :=
  match (Decimal.splitSign cs).2 with
  | '0' :: c :: rest => (c :: rest).all Char.isDigit
  | _ => false

/-- Read an integer: a decimal or based number behind at most one sign. -/
def int? (cs : List Char) : Option Int :=
  let (negative, body) := Decimal.splitSign cs
  let magnitude := match basedNatural? body with
    | some n => some n
    | none => if isZeroLed cs then none else natural? 10 body
  magnitude.map fun n => if negative then -n else n

/-- Read a floating-point number: a decimal of finite value, or one of the words for the special
values. Only infinity takes a sign. -/
def float? (cs : List Char) : Option Binary64 :=
  let word := String.ofList cs
  if [".inf", ".Inf", ".INF", "+.inf", "+.Inf", "+.INF"].contains word then
    some (.infinity false)
  else if ["-.inf", "-.Inf", "-.INF"].contains word then some (.infinity true)
  else if [".nan", ".NaN", ".NAN"].contains word then some .nan
  else ((Decimal.read? cs).map Binary64.ofDecimal).filter (·.isFinite)

/-- Whether an integer fits into 64 bits, with or without a sign. -/
def fitsWord (n : Int) : Bool :=
  -Int.pow 2 63 ≤ n && n < Int.pow 2 64

/-- Whether an integer fits into 128 bits, with or without a sign. -/
def fitsDoubleWord (n : Int) : Bool :=
  -Int.pow 2 127 ≤ n && n < Int.pow 2 128

/-- The value of an integer that is small enough to be read as one; `none` if it is refused. -/
def ofInt? (n : Int) : Option Value :=
  if fitsWord n then some (.number (.int n)) else none

/-- The value of a plain scalar without a tag; `none` if it is refused. -/
def ofPlain? (cs : List Char) : Option Value :=
  if cs.isEmpty || isNull cs then some .null
  else match bool? cs with
  | some b => some (.bool b)
  | none =>
    match (int? cs).filter fitsDoubleWord with
    | some n => ofInt? n
    | none =>
      match if isZeroLed cs then none else float? cs with
      | some x => some (.number (.float x))
      | none => some (.text (String.ofList cs))

/-- The bytes of a tag of the core schema. -/
def coreTag (name : String) : List UInt8 :=
  ("tag:yaml.org,2002:" ++ name).toUTF8.toList

/-- The value of a scalar, with its tag unless that is disregarded; `none` if it is refused. A
scalar with a tag that is neither of the core schema nor begins with an exclamation mark is a
text. -/
def value? (tag : Option (List UInt8)) (cs : List Char) (plain : Bool) : Option Value :=
  let untyped := if plain then ofPlain? cs else some (.text (String.ofList cs))
  match tag with
  | none => untyped
  | some t =>
    if t = coreTag "bool" then (bool? cs).map .bool
    else if t = coreTag "int" then ((int? cs).filter fitsDoubleWord).bind ofInt?
    else if t = coreTag "float" then (float? cs).map fun x => .number (.float x)
    else if t = coreTag "null" then (if isNull cs then some .null else none)
    else if t.head? = some '!'.toUInt8 then untyped
    else some (.text (String.ofList cs))

end DesignTokens.Yaml.Scalar
