/-!
# Glob patterns

A glob pattern stands for a set of texts. A star stands for any run of bytes without a slash, a
question mark for one such byte, brackets for one byte of a set, braces for one of several
patterns, and two stars between slashes for any number of directories.

Patterns work on bytes: a character beyond ASCII between brackets stands for its bytes one by one.
-/

namespace DesignTokens.Glob

/-- A part of a pattern. -/
inductive Part where
  | literal (bytes : List UInt8)
  | anyByte
  | anyRun
  /-- Two stars at the beginning: any number of directories, each with its slash. -/
  | leadingDirectories
  /-- Two stars between slashes: any number of directories with a slash at both ends. -/
  | innerDirectories
  /-- Two stars at the end, behind a slash: whatever is in the directory. -/
  | allBelow
  | oneOf (negated : Bool) (ranges : List (UInt8 × UInt8))
  | choice (options : List (List Part))
  deriving Repr

/-- A pattern. -/
abbrev Pattern := List Part

namespace Pattern

/-- The bytes of a character. -/
def charBytes (c : Char) : List UInt8 :=
  (String.singleton c).toUTF8.toList

/-- A range of characters as ranges of bytes. Only the last byte of the first character and the
first byte of the last one span a range. -/
def rangeBytes (low high : Char) : List (UInt8 × UInt8) :=
  let single (b : UInt8) := (b, b)
  if low = high then (charBytes low).map single
  else
    match (charBytes low).reverse, charBytes high with
    | last :: before, first :: after =>
      before.reverse.map single ++ (last, first) :: after.map single
    | _, _ => []

/-- Read the set between brackets. `ranges` holds what has been read, last one first; `open_` tells
that a dash has come and the last range awaits its end. A bracket or a dash that comes first stands
for itself. -/
def ranges? (first open_ : Bool) (ranges : List (Char × Char)) :
    List Char → Option (List (Char × Char) × List Char)
  | [] => none
  | c :: rest =>
    if c = ']' ∧ !first then
      some ((if open_ then ('-', '-') :: ranges else ranges).reverse, rest)
    else if c = '-' ∧ !first ∧ !open_ then ranges? false true ranges rest
    else if open_ then
      match ranges with
      | (low, _) :: before =>
        if c < low then none else ranges? false false ((low, c) :: before) rest
      | [] => none
    else ranges? false false ((c, c) :: ranges) rest

/-- Read brackets behind the opening one. -/
def brackets? (text : List Char) : Option (Part × List Char) := do
  let (negated, body) := match text with
    | '!' :: rest => (true, rest)
    | '^' :: rest => (true, rest)
    | _ => (false, text)
  let (ranges, rest) ← ranges? true false [] body
  some (.oneOf negated (ranges.flatMap fun r => rangeBytes r.1 r.2), rest)

/-- A pattern while it is read: the options of the braces that are open, the current one first,
each with its last part first, and for each open brace the number of options before it. -/
structure Reading where
  current : List Part := []
  earlier : List (List Part) := []
  opened : List Nat := []

namespace Reading

/-- Whether braces are open. -/
def inBraces (r : Reading) : Bool :=
  !r.earlier.isEmpty

/-- Add parts. -/
def push (r : Reading) (parts : List Part) : Reading :=
  { r with current := parts.reverse ++ r.current }

/-- Begin another option. -/
def nextOption (r : Reading) : Reading :=
  { r with current := [], earlier := r.current :: r.earlier }

/-- Open braces. -/
def openBraces (r : Reading) : Reading :=
  { r.nextOption with opened := (r.earlier.length + 1) :: r.opened }

/-- Close braces. -/
def closeBraces? (r : Reading) : Option Reading :=
  match r.opened with
  | [] => none
  | n :: opened =>
    let count := r.earlier.length + 1 - n
    let options := ((r.current :: r.earlier).take count).map List.reverse
    match (r.current :: r.earlier).drop count with
    | outer :: earlier => some ⟨.choice options.reverse :: outer, earlier, opened⟩
    | [] => none

/-- Add what two stars stand for, which have a character or none before them and the given text
behind them. The result tells whether the slash behind them belongs to them. -/
def pushStars (r : Reading) (before : Option Char) (rest : List Char) : Reading × Bool :=
  let behind := rest.head?
  if r.current.isEmpty then
    if behind = none ∨ behind = some '/' then (r.push [.leadingDirectories], true)
    else (r.push [.anyRun, .anyRun], false)
  else
    let starts := before = some '/'
      ∨ (r.inBraces ∧ (before = some ',' ∨ before = some '{'))
    let ends := behind = none ∨ (r.inBraces ∧ (behind = some ',' ∨ behind = some '}'))
    if starts ∧ (ends ∨ behind = some '/') then
      let part := match r.current with
        | .leadingDirectories :: _ => .leadingDirectories
        | .allBelow :: _ => .allBelow
        | _ => if ends then .allBelow else .innerDirectories
      ({ r with current := part :: r.current.tail }, !ends)
    else (r.push [.anyRun, .anyRun], false)

end Reading

/-- Read a pattern. `before` is the character before the text; every step takes at least one
character, so the text bounds the number of steps. -/
def read? : List Char → Option Char → Reading → List Char → Option Pattern
  | _, _, r, [] => if r.inBraces then none else some r.current.reverse
  | [], _, _, _ :: _ => none
  | _ :: fuel, before, r, c :: rest =>
    match c with
    | '?' => read? fuel (some c) (r.push [.anyByte]) rest
    | '*' =>
      match rest with
      | '*' :: rest =>
        let (r, slash) := r.pushStars before rest
        match slash, rest with
        | true, '/' :: rest => read? fuel (some '/') r rest
        | _, rest => read? fuel (some '*') r rest
      | rest => read? fuel (some c) (r.push [.anyRun]) rest
    | '[' => do
      let (part, rest) ← brackets? rest
      read? fuel (some ']') (r.push [part]) rest
    | '{' => read? fuel (some c) r.openBraces rest
    | '}' => do read? fuel (some c) (← r.closeBraces?) rest
    | ',' =>
      let r := if r.inBraces then r.nextOption else r.push [.literal (charBytes c)]
      read? fuel (some c) r rest
    | '\\' =>
      match rest with
      | [] => none
      | c :: rest => read? fuel (some c) (r.push [.literal (charBytes c)]) rest
    | c => read? fuel (some c) (r.push [.literal (charBytes c)]) rest

/-- The pattern that a text writes, if its brackets and braces are closed and its ranges go
upwards. -/
def ofText? (text : List Char) : Option Pattern :=
  read? text none {} text

/-- Whether a pattern is nothing but braces around nothing. -/
def isVoid : Pattern → Bool
  | [] => true
  | .choice options :: rest => allVoid options && isVoid rest
  | _ :: _ => false
where
  /-- Whether all options are void. -/
  allVoid : List (List Part) → Bool
    | [] => true
    | option :: rest => isVoid option && allVoid rest

end Pattern

/-! ## Matching

A part is matched at the beginning of a text, and gives all texts that may remain behind it. -/

/-- The byte that separates names. -/
def slash : UInt8 := '/'.toUInt8

/-- A text and what remains of it behind each of its bytes up to the first slash. -/
def afterRun : List UInt8 → List (List UInt8)
  | [] => [[]]
  | b :: rest => if b = slash then [b :: rest] else (b :: rest) :: afterRun rest

/-- What remains of a text behind each of its slashes. -/
def afterSlashes : List UInt8 → List (List UInt8)
  | [] => []
  | b :: rest => if b = slash then rest :: afterSlashes rest else afterSlashes rest

/-- The ends of a text, the text itself and the empty text included. -/
def ends : List UInt8 → List (List UInt8)
  | [] => [[]]
  | b :: rest => (b :: rest) :: ends rest

mutual

/-- What may remain of a text behind a part. -/
def Part.rests : Part → List UInt8 → List (List UInt8)
  | .literal bytes, text =>
    if bytes.isPrefixOf text then [text.drop bytes.length] else []
  | .anyByte, b :: rest => if b = slash then [] else [rest]
  | .anyByte, [] => []
  | .anyRun, text => afterRun text
  | .leadingDirectories, text => text :: afterSlashes text
  | .innerDirectories, b :: rest => if b = slash then rest :: afterSlashes rest else []
  | .innerDirectories, [] => []
  | .allBelow, b :: rest => if b = slash then ends rest else []
  | .allBelow, [] => []
  | .oneOf negated ranges, b :: rest =>
    if (ranges.any fun r => decide (r.1 ≤ b ∧ b ≤ r.2)) = negated then [] else [rest]
  | .oneOf .., [] => []
  | .choice options, text =>
    if Pattern.isVoid.allVoid options then [text] else Part.optionRests options text

/-- What may remain of a text behind a pattern. -/
def Part.patternRests : List Part → List UInt8 → List (List UInt8)
  | [], text => [text]
  | part :: parts, text => ((part.rests text).flatMap (Part.patternRests parts)).eraseDups

/-- What may remain of a text behind one of several patterns. Void ones do not count. -/
def Part.optionRests : List (List Part) → List UInt8 → List (List UInt8)
  | [], _ => []
  | option :: options, text =>
    (if Pattern.isVoid option then [] else Part.patternRests option text)
      ++ Part.optionRests options text

end

namespace Pattern

/-- Whether a text is in the set of a pattern. Two stars alone stand for every text. -/
def holds (pattern : Pattern) (text : List UInt8) : Bool :=
  match pattern with
  | [.leadingDirectories] => true
  | _ => (Part.patternRests pattern text).contains []

end Pattern

end DesignTokens.Glob
