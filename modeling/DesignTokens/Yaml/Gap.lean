import DesignTokens.Yaml.Cursor

/-!
# Gaps within scalars

What separates two runs of characters of a scalar that may span lines. Blanks within a line are
kept. Blanks around a line break are dropped, a single break becomes a space, and of several breaks
the first one is dropped.
-/

namespace DesignTokens.Yaml

/-- The separation between two runs of characters. -/
structure Gap where
  /-- The blanks within a line. -/
  blanks : List Char := []
  /-- What the first break contributes, if the gap spans lines; an escaped break contributes
  nothing. -/
  firstBreak : Option (List Char) := none
  /-- What the further breaks contribute. -/
  moreBreaks : List Char := []

namespace Gap

/-- Whether the gap spans lines. -/
def spansLines (g : Gap) : Bool :=
  g.firstBreak.isSome

/-- What the gap contributes to the scalar. -/
def text (g : Gap) : List Char :=
  match g.firstBreak with
  | none => g.blanks
  | some first =>
    if first = ['\n'] then (if g.moreBreaks.isEmpty then [' '] else g.moreBreaks)
    else first ++ g.moreBreaks

/-- Add a blank: it counts only before the first break. -/
def addBlank (g : Gap) (c : Char) : Gap :=
  if g.spansLines then g else { g with blanks := g.blanks ++ [c] }

/-- Add what a break contributes. -/
def addBreak (g : Gap) (contribution : List Char) : Gap :=
  if g.spansLines then { g with moreBreaks := g.moreBreaks ++ contribution }
  else { g with blanks := [], firstBreak := some contribution }

/-- Read blanks and breaks. In the lines behind the first break no tab may stand before the column
`indent`. The text at the cursor, given once more, bounds the number of steps. -/
def read? (indent : Int) : List Char → Gap → Cursor → Option (Gap × Cursor)
  | [], g, c => some (g, c)
  | _ :: fuel, g, c =>
    match c.peek with
    | none => some (g, c)
    | some char =>
      if isBlank char then
        if g.spansLines ∧ char = '\t' ∧ (c.column : Int) < indent then none
        else read? indent fuel (g.addBlank char) c.skip
      else if isBreak char then
        let (contribution, next) := c.takeBreak
        read? indent fuel (g.addBreak contribution) next
      else some (g, c)

end Gap

/-- Read the gap at a cursor. -/
def Cursor.gap? (c : Cursor) (indent : Int) (start : Gap) : Option (Gap × Cursor) :=
  Gap.read? indent c.rest start c

end DesignTokens.Yaml
