import DesignTokens.Text.Blank
import DesignTokens.Text.Lines

/-!
# Anchors

An anchor definition is the part `&name value` of a line: an ampersand, a run of characters that
are not blank, one space, and everything up to the end of the line. A line holds at most one
definition, because the leftmost one takes the rest of its line.

- `Definition.find?` finds the definition of a line, and `Definition.line` writes it back.
- `pointerTarget?` reads a value of the form `*name`, which points at another anchor.
- `Anchors.ofText` lists the definitions of a text in order. A name may be defined more than once:
  pointers follow the first definition (`first?`), markers take the last (`last?`).
-/

namespace DesignTokens.Alias

open Text

/-- An anchor definition within a line. -/
structure Definition where
  /-- What stands before the ampersand. -/
  before : List Char
  name : List Char
  /-- The rest of the line after the space that ends the name. -/
  rest : List Char
  deriving DecidableEq, Repr

namespace Definition

/-- The value a definition gives to its name: the rest of the line without trailing blanks. -/
def value (d : Definition) : List Char :=
  trimEnd d.rest

/-- The line the definition stands in. -/
def line (d : Definition) : List Char :=
  d.before ++ '&' :: d.name ++ ' ' :: d.rest

/-- Read `name value` behind an ampersand. -/
def body? (text : List Char) : Option (List Char × List Char) :=
  match text.dropWhile fun c => !isBlank c with
  | ' ' :: rest => some (text.takeWhile fun c => !isBlank c, rest)
  | _ => none

/-- The leftmost definition of a line. -/
def find? : List Char → Option Definition
  | [] => none
  | c :: cs =>
    match if c = '&' then body? cs else none with
    | some (name, rest) => some ⟨[], name, rest⟩
    | none => (find? cs).map fun d => { d with before := c :: d.before }

end Definition

/-- The name a value of the form `*name` points at. Blanks may surround the star, and anything
after the name is ignored. -/
def pointerTarget? (value : List Char) : Option (List Char) :=
  match trimStart value with
  | '*' :: rest => firstWord? rest
  | _ => none

/-- A name with the value one definition gives to it. -/
structure Anchor where
  name : List Char
  value : List Char
  deriving DecidableEq, Repr

/-- The anchors of a text, in the order of their definitions. -/
abbrev Anchors := List Anchor

namespace Anchors

/-- The anchors that the lines of a text define. -/
def ofText (text : List Char) : Anchors :=
  (lines text).filterMap fun line => (Definition.find? line).map fun d => ⟨d.name, d.value⟩

/-- The value of the first definition of a name. -/
def first? (anchors : Anchors) (name : List Char) : Option (List Char) :=
  (anchors.find? fun a => a.name = name).map Anchor.value

/-- The last definition of a name. -/
def last? (anchors : Anchors) (name : List Char) : Option Anchor :=
  anchors.reverse.find? fun a => a.name = name

/-- The number of different names that are defined. -/
def nameCount (anchors : Anchors) : Nat :=
  (anchors.map Anchor.name).eraseDups.length

end Anchors

end DesignTokens.Alias
