import DesignTokens.Yaml.Gap

/-!
# Quoted scalars

Between single quotation marks only a doubled mark is special. Between double quotation marks a
backslash begins an escape; before a line break it removes the break.
-/

namespace DesignTokens.Yaml.Quoted

/-- The character that a letter behind a backslash stands for. -/
def namedEscape? : Char → Option Char
  | '0' => some '\x00'
  | 'a' => some '\x07'
  | 'b' => some '\x08'
  | 't' => some '\t'
  | '\t' => some '\t'
  | 'n' => some '\n'
  | 'v' => some '\x0b'
  | 'f' => some '\x0c'
  | 'r' => some '\r'
  | 'e' => some '\x1b'
  | ' ' => some ' '
  | '"' => some '"'
  | '/' => some '/'
  | '\\' => some '\\'
  | 'N' => some '\u0085'
  | '_' => some '\u00a0'
  | 'L' => some '\u2028'
  | 'P' => some '\u2029'
  | _ => none

/-- How many hexadecimal digits follow a letter behind a backslash. -/
def codeLength? : Char → Option Nat
  | 'x' => some 2
  | 'u' => some 4
  | 'U' => some 8
  | _ => none

/-- The character with a code point, unless it is a surrogate or out of range. -/
def charOfCode? (n : Nat) : Option Char :=
  if n.isValidChar then some (Char.ofNat n) else none

/-- Read an escape at its backslash. -/
def escape? (c : Cursor) : Option (Char × Cursor) := do
  let letter ← c.peekAt 1
  match namedEscape? letter with
  | some char => some (char, c.skip 2)
  | none =>
    let n ← codeLength? letter
    let ds := (c.rest.drop 2).take n
    if ds.length = n then
      let char ← charOfCode? (← hexNumber? ds)
      some (char, c.skip (2 + n))
    else none

/-- Where a run of characters between quotation marks ends. -/
inductive Stop where
  | quote
  | gap
  | escapedBreak
  deriving DecidableEq

/-- Read characters up to the closing mark, a gap or an escaped line break. `taken` holds the
characters so far, last one first. -/
def run? (mark : Char) : List Char → List Char → Cursor → Option (List Char × Stop × Cursor)
  | [], _, _ => none
  | _ :: fuel, taken, c =>
    match c.peek with
    | none => none
    | some char =>
      if isBlank char || isBreak char then some (taken, .gap, c)
      else if char = mark then
        if mark = '\'' ∧ c.peekAt 1 = some '\'' then run? mark fuel ('\'' :: taken) (c.skip 2)
        else some (taken, .quote, c)
      else if mark = '"' ∧ char = '\\' then
        if (c.peekAt 1).any isBreak then some (taken, .escapedBreak, c.skip.skipBreak)
        else do
          let (char, c) ← escape? c
          run? mark fuel (char :: taken) c
      else run? mark fuel (char :: taken) c.skip

/-- Read runs with gaps between them. No line may begin with a document marker. -/
def body? (mark : Char) : List Char → List Char → Cursor → Option (List Char × Cursor)
  | [], _, _ => none
  | _ :: fuel, taken, c =>
    if c.atDocumentMarker then none
    else do
      let (taken, stop, c) ← run? mark c.rest taken c
      match stop with
      | .quote => some (taken, c.skip)
      | _ =>
        let start : Gap := if stop = .escapedBreak then { firstBreak := some [] } else {}
        let (g, c) ← c.gap? 0 start
        body? mark fuel (g.text.reverse ++ taken) c

/-- Read a quoted scalar at its opening mark. -/
def read? (c : Cursor) : Option (List Char × Cursor) := do
  let mark ← c.peek
  let (taken, c) ← body? mark c.rest [] c.skip
  some (taken.reverse, c)

end DesignTokens.Yaml.Quoted
