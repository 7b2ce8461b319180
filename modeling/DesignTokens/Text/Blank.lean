/-!
# Blank characters

The characters that Unicode gives the `White_Space` property, and the trimming and word splitting
that go by them:

- `trimStart` and `trimEnd` drop blanks at one end only;
- `firstWord?` is the first run of characters that are not blank.

The class is wider than `Char.isWhitespace`: it also holds the vertical tab, the form feed, the
next-line character and the typographic spaces.
-/

namespace DesignTokens.Text

/-- The ranges of code points with the `White_Space` property, in ascending order. -/
def blankRanges : List (Nat × Nat) :=
  [(0x09, 0x0D), (0x20, 0x20), (0x85, 0x85), (0xA0, 0xA0), (0x1680, 0x1680), (0x2000, 0x200A),
   (0x2028, 0x2029), (0x202F, 0x202F), (0x205F, 0x205F), (0x3000, 0x3000)]

/-- Whether a character has the `White_Space` property. -/
def isBlank (c : Char) : Bool :=
  blankRanges.any fun r => decide (r.1 ≤ c.toNat ∧ c.toNat ≤ r.2)

/-- The text without its leading blanks. -/
def trimStart (text : List Char) : List Char :=
  text.dropWhile isBlank

/-- The text without its trailing blanks. -/
def trimEnd (text : List Char) : List Char :=
  (text.reverse.dropWhile isBlank).reverse

/-- The text without the blanks at its two ends. -/
def trim (text : List Char) : List Char :=
  trimEnd (trimStart text)

/-- The first maximal run of characters that are not blank, if there is one. -/
def firstWord? (text : List Char) : Option (List Char) :=
  match (trimStart text).takeWhile fun c => !isBlank c with
  | [] => none
  | word => some word

end DesignTokens.Text
