import DesignTokens.Yaml.Character

/-!
# Cursors

A cursor is a place in a document: the text from there on, how many characters stand before it,
and its line and column, counted from zero.
-/

namespace DesignTokens.Yaml

/-- A place in a document. -/
structure Cursor where
  rest : List Char
  index : Nat := 0
  line : Nat := 0
  column : Nat := 0

namespace Cursor

/-- The character at the cursor. -/
def peek (c : Cursor) : Option Char :=
  c.rest.head?

/-- The character `n` places behind the cursor. -/
def peekAt (c : Cursor) (n : Nat) : Option Char :=
  c.rest[n]?

/-- Whether the character at the cursor is the given one. -/
def sees (c : Cursor) (char : Char) : Bool :=
  c.peek == some char

/-- Move over `n` characters of a line. -/
def skip (c : Cursor) (n : Nat := 1) : Cursor :=
  { c with rest := c.rest.drop n, index := c.index + n, column := c.column + n }

/-- Move over the characters of a line that have a property, and give them. -/
def span (c : Cursor) (p : Char → Bool) : List Char × Cursor :=
  let taken := c.rest.takeWhile p
  (taken, c.skip taken.length)

/-- Move over a line break. A carriage return and a line feed behind it are one break. -/
def skipBreak (c : Cursor) : Cursor :=
  let n := match c.rest with
    | '\r' :: '\n' :: _ => 2
    | _ => 1
  { rest := c.rest.drop n, index := c.index + n, line := c.line + 1, column := 0 }

/-- Move over a line break, if there is one, and give what it contributes to a scalar: the Unicode
separators stand for themselves, every other break for a line feed. -/
def takeBreak (c : Cursor) : List Char × Cursor :=
  match c.peek with
  | none => ([], c)
  | some char =>
    if char == '\u2028' || char == '\u2029' then ([char], c.skipBreak)
    else if isBreak char then (['\n'], c.skipBreak)
    else ([], c)

/-- Move over blanks. -/
def skipBlanks (c : Cursor) : Cursor :=
  (c.span isBlank).2

/-- Move over a comment, if there is one, up to the end of the line. -/
def skipComment (c : Cursor) : Cursor :=
  if c.sees '#' then (c.span fun char => !isBreak char).2 else c

/-- Move over blanks, a comment and the line break; anything else on the line is an error. -/
def finishLine? (c : Cursor) : Option Cursor :=
  let c := c.skipBlanks.skipComment
  match c.peek with
  | none => some c
  | some char => if isBreak char then some c.skipBreak else none

/-- Whether the cursor is at a document marker: three times the given character at the beginning
of a line, and a gap behind them. -/
def atMarker (c : Cursor) (char : Char) : Bool :=
  c.column == 0 && c.rest.take 3 == [char, char, char] && isGap (c.peekAt 3)

/-- Whether the cursor is at the marker that begins or the one that ends a document. -/
def atDocumentMarker (c : Cursor) : Bool :=
  c.atMarker '-' || c.atMarker '.'

end Cursor

end DesignTokens.Yaml
