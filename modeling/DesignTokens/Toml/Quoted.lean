import DesignTokens.Decimal.Basic

/-!
# Quoted texts

A text stands between two quotation marks on one line, or between two triples of them on any number
of lines. Between double marks a backslash begins an escape; between single marks every character
stands for itself.

Control characters other than the tab are refused everywhere.
-/

namespace DesignTokens.Toml

/-- Whether a character is a gap between words of a line. -/
def isGap (c : Char) : Bool :=
  c == ' ' || c == '\t'

/-- Whether a character may stand for itself in a comment. -/
def isCommentChar (c : Char) : Bool :=
  c == '\t' || decide (0x20 ≤ c.toNat)

namespace Quoted

/-- Whether a character may stand for itself in a quoted text. -/
def isTextChar (c : Char) : Bool :=
  isCommentChar c && c != '\x7f'

/-- Whether a character is a hexadecimal digit. -/
def isHexDigit (c : Char) : Bool :=
  c.isDigit || (decide ('a' ≤ c.toLower) && decide (c.toLower ≤ 'f'))

/-- Read the character whose code point the first `n` characters write. -/
def codePoint? (n : Nat) (cs : List Char) : Option (Char × List Char) :=
  let ds := cs.take n
  if ds.length = n ∧ ds.all isHexDigit ∧ (Decimal.ofDigits 16 ds).isValidChar then
    some (Char.ofNat (Decimal.ofDigits 16 ds), cs.drop n)
  else none

/-- Read an escape behind its backslash. -/
def escape? : List Char → Option (Char × List Char)
  | '"' :: cs => some ('"', cs)
  | '\\' :: cs => some ('\\', cs)
  | 'b' :: cs => some ('\x08', cs)
  | 'f' :: cs => some ('\x0c', cs)
  | 'n' :: cs => some ('\n', cs)
  | 'r' :: cs => some ('\r', cs)
  | 't' :: cs => some ('\t', cs)
  | 'u' :: cs => codePoint? 4 cs
  | 'U' :: cs => codePoint? 8 cs
  | _ => none

/-- Skip a line break behind a backslash, the gaps before it, and all gaps and breaks after it. -/
def continuation? (cs : List Char) : Option (List Char) :=
  match cs.dropWhile isGap with
  | '\n' :: rest => some (rest.dropWhile fun c => isGap c || c == '\n')
  | _ => none

/-- Read the rest of a text on one line. `taken` holds the characters so far, last one first; the
first list bounds the number of characters. -/
def line? (mark : Char) : List Char → List Char → List Char → Option (List Char × List Char)
  | _, _, [] => none
  | [], _, _ => none
  | _ :: fuel, taken, c :: cs =>
    if c = mark then some (taken.reverse, cs)
    else if c = '\\' ∧ mark = '"' then do
      let (char, cs) ← escape? cs
      line? mark fuel (char :: taken) cs
    else if isTextChar c then line? mark fuel (c :: taken) cs
    else none

/-- Read the rest of a text on many lines. Up to two marks right before the closing triple belong
to the text. -/
def lines? (mark : Char) : List Char → List Char → List Char → Option (List Char × List Char)
  | _, _, [] => none
  | [], _, _ => none
  | _ :: fuel, taken, c :: cs =>
    if c = mark then
      let marks := ((c :: cs).takeWhile (· == mark)).take 5
      let rest := cs.drop (marks.length - 1)
      if marks.length < 3 then lines? mark fuel (marks ++ taken) rest
      else some ((marks.drop 3 ++ taken).reverse, rest)
    else if c = '\\' ∧ mark = '"' then
      match continuation? cs with
      | some cs => lines? mark fuel taken cs
      | none => do
        let (char, cs) ← escape? cs
        lines? mark fuel (char :: taken) cs
    else if isTextChar c || c == '\n' then lines? mark fuel (c :: taken) cs
    else none

/-- Read a text behind its first mark. A line break right behind an opening triple is dropped. -/
def read? (mark : Char) (cs : List Char) : Option (List Char × List Char) :=
  if [mark, mark].isPrefixOf cs then
    match cs.drop 2 with
    | '\n' :: rest => lines? mark rest [] rest
    | rest => lines? mark rest [] rest
  else line? mark cs [] cs

end Quoted

end DesignTokens.Toml
