import DesignTokens.Decimal.Basic

/-!
# Dates and times

A date, a time, or both together with an optional offset from universal time. `DateTime.text` writes
it in one form: a `T` before the time, no zeros at the end of a fraction, and no fraction of more
than nine digits.
-/

namespace DesignTokens.Toml

/-- A day of the calendar; the length of the month is not looked at. -/
structure Date where
  year : Nat
  month : Nat
  day : Nat
  deriving DecidableEq, Repr

/-- A time of day with the digits of a fraction of a second. -/
structure Time where
  hour : Nat
  minute : Nat
  second : Nat
  fraction : List Char
  deriving DecidableEq, Repr

/-- The distance from universal time. -/
inductive Offset where
  | none
  | zero
  | shift (negative : Bool) (hours minutes : Nat)
  deriving DecidableEq, Repr

/-- What a date or time in a document says. -/
inductive DateTime where
  | date (date : Date)
  | time (time : Time)
  | both (date : Date) (time : Time) (offset : Offset)
  deriving DecidableEq, Repr

namespace DateTime

/-! ## Reading -/

/-- Read exactly `n` digits. -/
def digits? (n : Nat) (cs : List Char) : Option (Nat × List Char) :=
  let ds := cs.take n
  if ds.length = n ∧ ds.all Char.isDigit then some (Decimal.ofDigits 10 ds, cs.drop n) else none

/-- Read a given character. -/
def sign? (c : Char) : List Char → Option (List Char)
  | [] => none
  | d :: cs => if d = c then some cs else none

/-- Read a date. -/
def date? (cs : List Char) : Option (Date × List Char) := do
  let (year, cs) ← digits? 4 cs
  let (month, cs) ← digits? 2 (← sign? '-' cs)
  let (day, cs) ← digits? 2 (← sign? '-' cs)
  if 1 ≤ month ∧ month ≤ 12 ∧ 1 ≤ day ∧ day ≤ 31 then some (⟨year, month, day⟩, cs) else none

/-- Drop the zeros at the end of digits, and all digits from the tenth on. -/
def significant (ds : List Char) : List Char :=
  ((ds.take 9).reverse.dropWhile (· == '0')).reverse

/-- Read a fraction of a second, if there is one. -/
def fraction? : List Char → Option (List Char × List Char)
  | '.' :: cs =>
    match cs.takeWhile Char.isDigit with
    | [] => none
    | ds => some (significant ds, cs.dropWhile Char.isDigit)
  | cs => some ([], cs)

/-- Read a time. An hour 24 is allowed, a second 60 is not. -/
def time? (cs : List Char) : Option (Time × List Char) := do
  let (hour, cs) ← digits? 2 cs
  let (minute, cs) ← digits? 2 (← sign? ':' cs)
  let (second, cs) ← digits? 2 (← sign? ':' cs)
  let (fraction, cs) ← fraction? cs
  if hour ≤ 24 ∧ minute ≤ 59 ∧ second ≤ 59 then some (⟨hour, minute, second, fraction⟩, cs)
  else none

/-- Read an offset, if there is one. -/
def offset? : List Char → Option (Offset × List Char)
  | 'Z' :: cs => some (.zero, cs)
  | 'z' :: cs => some (.zero, cs)
  | c :: cs =>
    if c == '+' || c == '-' then do
      let (hours, cs) ← digits? 2 cs
      let (minutes, cs) ← digits? 2 (← sign? ':' cs)
      some (.shift (c == '-') hours minutes, cs)
    else some (.none, c :: cs)
  | [] => some (.none, [])

/-- What follows a date if a time belongs to it: the time behind a `T`, or behind a single space
that has a digit behind it. -/
def behindDate? : List Char → Option (List Char)
  | 'T' :: cs => some cs
  | 't' :: cs => some cs
  | ' ' :: d :: cs => if d.isDigit then some (d :: cs) else none
  | _ => none

/-- Whether `n` digits and a given character come first. -/
def beginsWith (n : Nat) (c : Char) (cs : List Char) : Bool :=
  ((digits? n cs).bind fun r => sign? c r.2).isSome

/-- Whether a date begins here, and not a number. -/
def beginsDate (cs : List Char) : Bool :=
  beginsWith 4 '-' cs

/-- Whether a time begins here, and not a number. -/
def beginsTime (cs : List Char) : Bool :=
  beginsWith 2 ':' cs

/-- Read a date, a time or both. -/
def read? (cs : List Char) : Option (DateTime × List Char) :=
  if beginsDate cs then do
    let (d, cs) ← date? cs
    match behindDate? cs with
    | none => some (.date d, cs)
    | some cs =>
      let (t, cs) ← time? cs
      let (offset, cs) ← offset? cs
      some (.both d t offset, cs)
  else do
    let (t, cs) ← time? cs
    some (.time t, cs)

/-! ## Writing -/

/-- A number filled up to `n` digits. -/
def filled (n k : Nat) : List Char :=
  let ds := Decimal.digits k
  List.replicate (n - ds.length) '0' ++ ds

/-- The text of a date. -/
def dateText (d : Date) : List Char :=
  filled 4 d.year ++ '-' :: filled 2 d.month ++ '-' :: filled 2 d.day

/-- The text of a time. -/
def timeText (t : Time) : List Char :=
  filled 2 t.hour ++ ':' :: filled 2 t.minute ++ ':' :: filled 2 t.second
    ++ (if t.fraction.isEmpty then [] else '.' :: t.fraction)

/-- The text of an offset; a shift of no hours has a plus sign. -/
def offsetText : Offset → List Char
  | .none => []
  | .zero => ['Z']
  | .shift negative hours minutes =>
    (if negative ∧ hours ≠ 0 then '-' else '+') :: filled 2 hours ++ ':' :: filled 2 minutes

/-- The text of a date, a time or both. -/
def text : DateTime → List Char
  | date d => dateText d
  | time t => timeText t
  | both d t offset => dateText d ++ 'T' :: timeText t ++ offsetText offset

end DateTime

end DesignTokens.Toml
