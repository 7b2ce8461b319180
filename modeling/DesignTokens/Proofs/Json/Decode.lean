import DesignTokens.Decimal.Basic
import Mathlib.Algebra.Field.Rat

/-!
# Reading JSON

A decoder for the JSON grammar, and nothing beyond it: no comma behind the last item, no leading
zeros, no control characters within strings, no half of a surrogate pair, and no text behind the
value. Objects keep their members in order, and numbers are exact.

Every reader takes the text from where it stands and gives what it has read and the rest. Values
are nested, and `fuel` bounds the depth and the number of items; the length of the text is always
enough, because every item takes a character at least.
-/

namespace DesignTokens

/-- The number that a decimal is. -/
def Decimal.value (d : Decimal) : ℚ :=
  (if d.negative then -1 else 1) * d.coefficient * 10 ^ d.exponent

namespace Json

/-- What a JSON document denotes. -/
inductive Datum where
  | null
  | bool (b : Bool)
  | number (q : ℚ)
  | string (s : String)
  | array (items : List Datum)
  | object (members : List (String × Datum))

/-- The characters that may stand between tokens. -/
def isSpace (c : Char) : Bool :=
  c = ' ' || c = '\t' || c = '\n' || c = '\r'

/-- The text from its next token on. -/
def skip (text : List Char) : List Char :=
  text.dropWhile isSpace

/-! ## Strings -/

/-- The digits of base sixteen. -/
def isHexDigit (c : Char) : Bool :=
  c.isDigit || ('a' ≤ c && c ≤ 'f') || ('A' ≤ c && c ≤ 'F')

/-- The number of an escape with hexadecimal digits. -/
def hex? (digits : List Char) : Option Nat :=
  if digits.all isHexDigit then some (Decimal.ofDigits 16 digits) else none

/-- The character of an escape with one letter. -/
def escaped? : Char → Option Char
  | '"' => some '"'
  | '\\' => some '\\'
  | '/' => some '/'
  | 'b' => some '\x08'
  | 'f' => some '\x0c'
  | 'n' => some '\n'
  | 'r' => some '\r'
  | 't' => some '\t'
  | _ => none

/-- The code units of a string up to its closing quotation mark. A character that is not escaped is
one unit, and an escape with hexadecimal digits may be half of a character. -/
def units? : List Char → Option (List Nat × List Char)
  | [] => none
  | c :: cs =>
    if c = '"' then some ([], cs)
    else if c = '\\' then
      match cs with
      | 'u' :: h₁ :: h₂ :: h₃ :: h₄ :: rest =>
        (hex? [h₁, h₂, h₃, h₄]).bind fun u => (units? rest).map fun r => (u :: r.1, r.2)
      | e :: rest => (escaped? e).bind fun d => (units? rest).map fun r => (d.toNat :: r.1, r.2)
      | [] => none
    else if c.toNat < 0x20 then none
    else (units? cs).map fun r => (c.toNat :: r.1, r.2)

/-- The first half of a surrogate pair. -/
def isHighSurrogate (u : Nat) : Bool :=
  0xD800 ≤ u && u < 0xDC00

/-- The second half of a surrogate pair. -/
def isLowSurrogate (u : Nat) : Bool :=
  0xDC00 ≤ u && u < 0xE000

/-- The characters of code units, where the halves of pairs belong together. -/
def chars? : List Nat → Option (List Char)
  | [] => some []
  | u :: us =>
    if isHighSurrogate u then
      match us with
      | v :: rest =>
        if isLowSurrogate v then
          (chars? rest).map fun cs =>
            Char.ofNat (0x10000 + (u - 0xD800) * 0x400 + (v - 0xDC00)) :: cs
        else none
      | [] => none
    else if isLowSurrogate u then none
    else (chars? us).map fun cs => Char.ofNat u :: cs

/-- A string behind its opening quotation mark. -/
def string? (text : List Char) : Option (String × List Char) :=
  (units? text).bind fun r => (chars? r.1).map fun cs => (String.ofList cs, r.2)

-- two escapes that are one character
example : string? "\\ud83d\\ude00\"".toList = some ("😀", []) := by decide +kernel

/-! ## Numbers -/

/-- The digits before the point: a zero alone, or digits that do not begin with one. -/
def whole? : List Char → Option (List Char × List Char)
  | [] => none
  | c :: cs =>
    if c = '0' then some (['0'], cs)
    else if c.isDigit then some ((c :: cs).takeWhile Char.isDigit, (c :: cs).dropWhile Char.isDigit)
    else none

/-- The digits behind the point, where there must be one. -/
def digits? (text : List Char) : Option (List Char × List Char) :=
  if (text.takeWhile Char.isDigit).isEmpty then none
  else some (text.takeWhile Char.isDigit, text.dropWhile Char.isDigit)

/-- The digits behind the point, if there is a point. -/
def fraction? : List Char → Option (List Char × List Char)
  | '.' :: cs => digits? cs
  | cs => some ([], cs)

/-- The exponent, if there is one. -/
def exponent? : List Char → Option (Int × List Char)
  | [] => some (0, [])
  | e :: cs =>
    if e = 'e' || e = 'E' then
      (digits? (Decimal.splitSign cs).2).map fun r =>
        (if (Decimal.splitSign cs).1 then -(Decimal.ofDigits 10 r.1 : Int)
          else Decimal.ofDigits 10 r.1, r.2)
    else some (0, e :: cs)

/-- A number without its sign. -/
def magnitude? (negative : Bool) (text : List Char) : Option (Decimal × List Char) :=
  (whole? text).bind fun whole => (fraction? whole.2).bind fun fraction =>
    (exponent? fraction.2).map fun exponent =>
      (⟨negative, Decimal.ofDigits 10 (whole.1 ++ fraction.1), exponent.1 - fraction.1.length⟩,
        exponent.2)

/-- A number. -/
def number? : List Char → Option (Decimal × List Char)
  | '-' :: cs => magnitude? true cs
  | cs => magnitude? false cs

/-! ## Values -/

mutual

/-- A value, behind spaces. -/
def value? : Nat → List Char → Option (Datum × List Char)
  | 0, _ => none
  | fuel + 1, text =>
    match skip text with
    | [] => none
    | c :: cs =>
      if c = '-' || c.isDigit then (number? (c :: cs)).map fun r => (.number r.1.value, r.2)
      else if c = '"' then (string? cs).map fun r => (.string r.1, r.2)
      else if c = '[' then
        match skip cs with
        | ']' :: rest => some (.array [], rest)
        | _ => (items? fuel cs).map fun r => (.array r.1, r.2)
      else if c = '{' then
        match skip cs with
        | '}' :: rest => some (.object [], rest)
        | _ => (members? fuel cs).map fun r => (.object r.1, r.2)
      else
        match c :: cs with
        | 't' :: 'r' :: 'u' :: 'e' :: rest => some (.bool true, rest)
        | 'f' :: 'a' :: 'l' :: 's' :: 'e' :: rest => some (.bool false, rest)
        | 'n' :: 'u' :: 'l' :: 'l' :: rest => some (.null, rest)
        | _ => none

/-- Values with commas between them, one at least, and the bracket that closes them. -/
def items? : Nat → List Char → Option (List Datum × List Char)
  | 0, _ => none
  | fuel + 1, text =>
    (value? fuel text).bind fun item =>
      match skip item.2 with
      | ',' :: rest => (items? fuel rest).map fun r => (item.1 :: r.1, r.2)
      | ']' :: rest => some ([item.1], rest)
      | _ => none

/-- Keyed values with commas between them, one at least, and the bracket that closes them. -/
def members? : Nat → List Char → Option (List (String × Datum) × List Char)
  | 0, _ => none
  | fuel + 1, text =>
    match skip text with
    | '"' :: cs =>
      (string? cs).bind fun key =>
        match skip key.2 with
        | ':' :: cs =>
          (value? fuel cs).bind fun item =>
            match skip item.2 with
            | ',' :: rest => (members? fuel rest).map fun r => ((key.1, item.1) :: r.1, r.2)
            | '}' :: rest => some ([(key.1, item.1)], rest)
            | _ => none
        | _ => none
    | _ => none

end

/-- What a document denotes: one value, with nothing but spaces around it. -/
def decode? (text : List Char) : Option Datum :=
  (value? (text.length + 1) text).bind fun r => if (skip r.2).isEmpty then some r.1 else none

end Json

end DesignTokens
