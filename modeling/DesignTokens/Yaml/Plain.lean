import DesignTokens.Yaml.Gap

/-!
# Plain scalars

A plain scalar has no quotation marks. It ends at a colon before a gap, at a comment, at a line that
is not indented deeply enough or begins with a document marker, and within flow collections also at
the characters that structure them.
-/

namespace DesignTokens.Yaml.Plain

/-- Whether a character structures a flow collection. -/
def isFlowIndicator (c : Char) : Bool :=
  c == ',' || c == '[' || c == ']' || c == '{' || c == '}'

/-- Whether a plain scalar ends before a character, which has another one or none behind it. -/
def endsAt (flow : Bool) (char : Char) (next : Option Char) : Bool :=
  (char == ':' && isGap next) || (flow && isFlowIndicator char)

/-- Whether a character is a colon that no plain scalar of a flow collection may have before the
character behind it. -/
def isStrayColon (flow : Bool) (char : Char) (next : Option Char) : Bool :=
  flow && char == ':' && next.any fun c => c == '?' || isFlowIndicator c

/-- The characters up to a gap or to the end of the scalar. -/
def run? (flow : Bool) : List Char → Option (List Char)
  | [] => some []
  | char :: rest =>
    if isBlank char || isBreak char then some []
    else if isStrayColon flow char rest.head? then none
    else if endsAt flow char rest.head? then some []
    else (run? flow rest).map (char :: ·)

/-- Read runs with gaps between them. `taken` holds the characters so far, last one first, and `g`
the gap behind them. The result tells whether a line break follows the scalar. -/
def body? (flow : Bool) (indent : Int) :
    List Char → List Char → Gap → Cursor → Option (List Char × Bool × Cursor)
  | [], taken, g, c => some (taken, g.spansLines, c)
  | _ :: fuel, taken, g, c =>
    if c.atDocumentMarker || c.sees '#' then some (taken, g.spansLines, c)
    else do
      let run ← run? flow c.rest
      let c := c.skip run.length
      let (taken, g) :=
        if run.isEmpty then (taken, g) else (run.reverse ++ g.text.reverse ++ taken, {})
      if c.peek.any fun char => isBlank char || isBreak char then
        let (g, c) ← c.gap? indent g
        if !flow && (c.column : Int) < indent then some (taken, g.spansLines, c)
        else body? flow indent fuel taken g c
      else some (taken, g.spansLines, c)

/-- Read a plain scalar: its text, whether a line break follows it, and the place behind it and
behind the gap that follows. Its further lines are indented at least to `indent`. -/
def read? (flow : Bool) (indent : Int) (c : Cursor) : Option (List Char × Bool × Cursor) := do
  let (taken, broken, c) ← body? flow indent c.rest [] {} c
  some (taken.reverse, broken, c)

end DesignTokens.Yaml.Plain
