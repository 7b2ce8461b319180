/-!
# Lines

A text is a nonempty sequence of lines with one break character between each two of them. Every
carriage return and every line feed is a break of its own, so the pair of the two encloses an empty
line. `mapLines` changes the lines and keeps the breaks.
-/

namespace DesignTokens.Text

/-- Whether a character ends a line. -/
def isBreak (c : Char) : Bool :=
  c == '\n' || c == '\r'

/-- The pieces between the breaks of a text; there is one more of them than there are breaks. -/
def lines (text : List Char) : List (List Char) :=
  text.splitOnP isBreak

/-- The breaks of a text, in order. -/
def breaks (text : List Char) : List Char :=
  text.filter isBreak

/-- The text with the given lines and, between them, the given breaks. -/
def joinLines : List (List Char) → List Char → List Char
  | [], _ => []
  | [line], _ => line
  | line :: rest, [] => line ++ joinLines rest []
  | line :: rest, b :: bs => line ++ b :: joinLines rest bs

/-- Apply a function to every line and leave the breaks as they are. -/
def mapLines (f : List Char → List Char) (text : List Char) : List Char :=
  joinLines ((lines text).map f) (breaks text)

end DesignTokens.Text
