import DesignTokens.Yaml.Cursor

/-!
# Block scalars

A block scalar is introduced by a bar, which keeps its line breaks, or by an angle bracket, which
folds them. Its lines are indented, to a depth that the header gives or that the first line shows.
The header also says what happens to the line breaks at its end.
-/

namespace DesignTokens.Yaml.Block

/-- What happens to the line breaks at the end of a block scalar. -/
inductive Chomping where
  | strip
  | clip
  | keep
  deriving DecidableEq

/-- What stands in the header of a block scalar behind its first character. -/
structure Header where
  chomping : Chomping := .clip
  /-- How much deeper than its parent the scalar is indented, if the header says so. -/
  indentation : Option Nat := none

/-- Read a sign for the end of the scalar. -/
def chomping? (c : Cursor) : Option (Chomping × Cursor) :=
  match c.peek with
  | some '+' => some (.keep, c.skip)
  | some '-' => some (.strip, c.skip)
  | _ => none

/-- Read a digit for the indentation; zero is not allowed. -/
def indentation? (c : Cursor) : Option (Option Nat × Cursor) :=
  match c.peek with
  | some char =>
    if char == '0' then none
    else if char.isDigit then some (some (char.toNat - '0'.toNat), c.skip)
    else some (none, c)
  | none => some (none, c)

/-- Read a header up to the end of its line. -/
def header? (c : Cursor) : Option (Header × Cursor) := do
  match chomping? c with
  | some (chomping, c) =>
    let (indentation, c) ← indentation? c
    some (⟨chomping, indentation⟩, ← c.finishLine?)
  | none =>
    let (indentation, c) ← indentation? c
    match if indentation.isSome then chomping? c else none with
    | some (chomping, c) => some (⟨chomping, indentation⟩, ← c.finishLine?)
    | none => some (⟨.clip, indentation⟩, ← c.finishLine?)

/-- Read empty lines and the indentation of the line behind them. `indent` is the depth of the
scalar if it is known; `deepest` is the greatest depth met. The result holds what the breaks
contribute, the greatest depth and the new place. -/
def emptyLines? (indent : Option Nat) :
    List Char → List Char → Nat → Cursor → Option (List Char × Nat × Cursor)
  | [], breaks, deepest, c => some (breaks, max deepest c.column, c)
  | _ :: fuel, breaks, deepest, c =>
    let spaces := (c.rest.takeWhile (· == ' ')).length
    let c := c.skip (match indent with
      | some n => min spaces (n - c.column)
      | none => spaces)
    let deepest := max deepest c.column
    if c.sees '\t' && indent.all (c.column < ·) then none
    else if c.peek.any isBreak then
      let (contribution, c) := c.takeBreak
      emptyLines? indent fuel (breaks ++ contribution) deepest c
    else some (breaks, deepest, c)

/-- What separates a line from the one before it. In a folded scalar a single break between two
lines that do not begin with a blank becomes a space, and of several breaks one is dropped. -/
def separation (folded wasBlank isBlank : Bool) (first more : List Char) : List Char :=
  if folded && first == ['\n'] && !wasBlank && !isBlank then
    (if more.isEmpty then [' '] else more)
  else first ++ more

/-- Read the lines of a scalar that is indented to `indent`. `taken` holds the text so far, last
character first, `first` and `more` what the breaks since the last line contribute. -/
def lines? (folded : Bool) (indent : Nat) :
    List Char → List Char → Bool → List Char → List Char → Cursor →
      Option (List Char × List Char × List Char × Cursor)
  | [], taken, _, first, more, c => some (taken, first, more, c)
  | _ :: fuel, taken, wasBlank, first, more, c =>
    if c.column = indent ∧ !c.rest.isEmpty then do
      let startsBlank := c.peek.any isBlank
      let (line, c) := c.span fun char => !isBreak char
      let taken :=
        line.reverse ++ (separation folded wasBlank startsBlank first more).reverse ++ taken
      let (first, c) := c.takeBreak
      let (more, _, c) ← emptyLines? (some indent) c.rest [] 0 c
      lines? folded indent fuel taken startsBlank first more c
    else some (taken, first, more, c)

/-- Read a block scalar at its first character. `parent` is the indentation of the collection that
it stands in, minus one if there is none. -/
def read? (parent : Int) (c : Cursor) : Option (List Char × Cursor) := do
  let folded := c.sees '>'
  let (header, c) ← header? c.skip
  let known := header.indentation.map fun n => (max parent 0).toNat + n
  let (more, deepest, c) ← emptyLines? known c.rest [] 0 c
  let indent := known.getD (max deepest (max (parent + 1) 1).toNat)
  let (taken, first, more, c) ← lines? folded indent c.rest [] false [] more c
  let ending := match header.chomping with
    | .strip => []
    | .clip => first
    | .keep => first ++ more
  some (taken.reverse ++ ending, c)

end DesignTokens.Yaml.Block
