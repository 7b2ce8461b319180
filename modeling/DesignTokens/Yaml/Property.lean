import DesignTokens.Yaml.Cursor
import DesignTokens.Yaml.Token

/-!
# Anchors, tags and directives

The parts of a document that say something about a node or about the document: the name of an
anchor or alias, a tag, and the directives before a document.
-/

namespace DesignTokens.Yaml.Property

/-- Read the name of an anchor or alias behind its first character. Only a gap or one of a few
indicators may follow it. -/
def anchorName? (c : Cursor) : Option (List Char × Cursor) :=
  let (name, c) := c.span isWordChar
  if name.isEmpty then none
  else if isGap c.peek || c.peek.any ("?:,]\x7d%@`".toList.contains ·) then some (name, c)
  else none

/-! ## Tags are sequences of bytes -/

/-- The bytes of a text. -/
def bytes (cs : List Char) : List UInt8 :=
  (String.ofList cs).toUTF8.toList

/-- Read one escaped byte. -/
def escapedByte? : List Char → Option (Nat × List Char)
  | '%' :: a :: b :: rest => (hexNumber? [a, b]).map fun n => (n, rest)
  | _ => none

/-- How many bytes follow the first byte of a character. -/
def followingBytes? (first : Nat) : Option Nat :=
  if first < 0x80 then some 0
  else if 0xC0 ≤ first ∧ first < 0xE0 then some 1
  else if 0xE0 ≤ first ∧ first < 0xF0 then some 2
  else if 0xF0 ≤ first ∧ first < 0xF8 then some 3
  else none

/-- Read the given number of escaped bytes that continue a character. -/
def escapedTail? : Nat → List Char → Option (List UInt8 × List Char)
  | 0, cs => some ([], cs)
  | n + 1, cs => do
    let (byte, cs) ← escapedByte? cs
    if 0x80 ≤ byte ∧ byte < 0xC0 then
      let (more, cs) ← escapedTail? n cs
      some (byte.toUInt8 :: more, cs)
    else none

/-- Read a character that is written as escaped bytes. -/
def escapedChar? (cs : List Char) : Option (List UInt8 × List Char) := do
  let (first, cs) ← escapedByte? cs
  let (more, cs) ← escapedTail? (← followingBytes? first) cs
  some (first.toUInt8 :: more, cs)

/-- Read the characters of a tag that have a property, and undo the escapes. -/
def tagBytes? (p : Char → Bool) : List Char → List UInt8 → Cursor → Option (List UInt8 × Cursor)
  | [], taken, c => some (taken, c)
  | _ :: fuel, taken, c =>
    match c.peek with
    | none => some (taken, c)
    | some char =>
      if char == '%' then do
        let (bs, rest) ← escapedChar? c.rest
        tagBytes? p fuel (taken ++ bs) (c.skip (c.rest.length - rest.length))
      else if p char then tagBytes? p fuel (taken ++ bytes [char]) c.skip
      else some (taken, c)

/-- What comes before a null byte; the rest of a tag is cut off there. -/
def untilNull (bs : List UInt8) : List UInt8 :=
  bs.takeWhile (· != 0)

/-- Read a tag between angle brackets. -/
def verbatimTag? (c : Cursor) : Option (TagName × Cursor) := do
  let (suffix, next) ← tagBytes? isVerbatimTagChar c.rest [] (c.skip 2)
  if next.index = c.index + 2 ∨ !next.sees '>' then none
  else some (⟨[], untilNull suffix⟩, next.skip)

/-- Read a tag that begins with a handle: the primary handle of one mark, or a word between two
marks. A single mark is a tag of its own. -/
def shorthandTag? (c : Cursor) : Option (TagName × Cursor) := do
  let (word, afterWord) := c.skip.span isWordChar
  if afterWord.sees '!' then
    let start := afterWord.skip
    let (suffix, next) ← tagBytes? isTagChar start.rest [] start
    if next.index = start.index then none
    else some (⟨'!' :: word ++ ['!'], untilNull suffix⟩, next)
  else
    let (suffix, next) ← tagBytes? isTagChar afterWord.rest (bytes word) afterWord
    let suffix := untilNull suffix
    some (if suffix.isEmpty then ⟨[], bytes ['!']⟩ else ⟨['!'], suffix⟩, next)

/-- Read a tag. A gap follows it, or within flow collections a comma. -/
def tag? (flow : Bool) (c : Cursor) : Option (TagName × Cursor) := do
  let (name, c) ← if c.peekAt 1 = some '<' then verbatimTag? c else shorthandTag? c
  if isGap c.peek || (flow && c.sees ',') then some (name, c) else none

/-! ## Directives -/

/-- Read a number of at most nine digits. -/
def number? (c : Cursor) : Option (Nat × Cursor) :=
  let (ds, c) := c.span Char.isDigit
  if ds.isEmpty ∨ 9 < ds.length then none
  else some (ds.foldl (fun n d => 10 * n + (d.toNat - '0'.toNat)) 0, c)

/-- Read the version that a directive gives. -/
def version? (c : Cursor) : Option (Token × Cursor) := do
  let (major, c) ← number? c.skipBlanks
  if c.sees '.' then
    let (minor, c) ← number? c.skip
    some (.versionDirective major minor, c)
  else none

/-- Read a handle in a directive: one mark, or a word between two marks. -/
def handle? (c : Cursor) : Option (List Char × Cursor) :=
  if c.sees '!' then
    let (word, next) := c.skip.span isWordChar
    if next.sees '!' then some ('!' :: word ++ ['!'], next.skip)
    else if word.isEmpty then some (['!'], next)
    else none
  else none

/-- Read a handle and what it stands for. -/
def handleDeclaration? (c : Cursor) : Option (Token × Cursor) := do
  let (handle, c) ← handle? c.skipBlanks
  if c.peek.any isBlank then
    let start := c.skipBlanks
    let (text, next) ← tagBytes? isVerbatimTagChar start.rest [] start
    if next.index = start.index ∨ !isGap next.peek then none
    else some (.tagDirective handle (untilNull text), next)
  else none

/-- Read a directive at its percent sign, up to the end of its line. -/
def directive? (c : Cursor) : Option (Token × Cursor) := do
  let (name, c) := c.skip.span isWordChar
  if isGap c.peek then
    let (token, c) ← if name = "YAML".toList then version? c
      else if name = "TAG".toList then handleDeclaration? c
      else none
    some (token, ← c.finishLine?)
  else none

end DesignTokens.Yaml.Property
