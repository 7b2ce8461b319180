import DesignTokens.Tree.Basic

/-!
# JSON documents

The JSON document of a token tree is an object with one member, whose key names the design system
and the source and whose value has the shape of the tree. It is indented by four spaces a level;
empty objects and arrays take no line of their own.
-/

namespace DesignTokens.Json

/-- The text that stands for a character within a string. Quotation marks, backslashes and control
characters are escaped, everything else stands for itself. -/
def escape (c : Char) : List Char :=
  match c with
  | '"' => ['\\', '"']
  | '\\' => ['\\', '\\']
  | '\x08' => ['\\', 'b']
  | '\x0c' => ['\\', 'f']
  | '\n' => ['\\', 'n']
  | '\r' => ['\\', 'r']
  | '\t' => ['\\', 't']
  | c =>
    if c.toNat < 0x20 then
      '\\' :: 'u' :: '0' :: '0' :: [Nat.digitChar (c.toNat / 16), Nat.digitChar (c.toNat % 16)]
    else [c]

/-- A string in quotation marks. -/
def quote (s : String) : List Char :=
  '"' :: s.toList.flatMap escape ++ ['"']

/-- Floating-point numbers have a point or an exponent, and a positive exponent its sign. The
words for the special values are not used: those are `null`. -/
def floatStyle : FloatStyle :=
  { Number.floatStyle with exponentPlus := true }

/-- The text of a number; not-a-number and the infinities have none of their own. -/
def numberText : Number → List Char
  | .int n => Decimal.intText n
  | .float x => if x.isFinite then floatStyle.text x else "null".toList

/-- The text of a scalar. -/
def scalarText : Scalar → List Char
  | .text s => quote s
  | .number n => numberText n
  | .bool b => (boolText b).toList
  | .null => "null".toList

/-- A new line, indented to a level. -/
def newline (level : Nat) : List Char :=
  '\n' :: List.replicate (4 * level) ' '

/-- Parts between brackets, one line each, at one level above `level`; without parts, the brackets
alone. -/
def bracketed (opening closing : Char) (level : Nat) (parts : List (List Char)) : List Char :=
  match parts with
  | [] => [opening, closing]
  | parts =>
    opening :: newline (level + 1) ++ (',' :: newline (level + 1)).intercalate parts
      ++ newline level ++ [closing]

/-- The member of an object. -/
def member (key : String) (value : List Char) : List Char :=
  quote key ++ ':' :: ' ' :: value

mutual

/-- The text of a value whose closing bracket stands at a level. -/
def valueText (level : Nat) : Value → List Char
  | .leaf s => scalarText s
  | .list items => bracketed '[' ']' level (itemTexts (level + 1) items)
  | .group entries => bracketed '{' '}' level (memberTexts (level + 1) entries)

/-- The texts of list items. -/
def itemTexts (level : Nat) : List Value → List (List Char)
  | [] => []
  | value :: rest => valueText level value :: itemTexts level rest

/-- The texts of keyed values. -/
def memberTexts (level : Nat) : List (String × Value) → List (List Char)
  | [] => []
  | (key, value) :: rest => member key (valueText level value) :: memberTexts level rest

end

/-- The key of the one member of a document: the design system's name with underscores for
hyphens, and the name of the source. -/
def rootKey (space base : String) : String :=
  String.ofList (space.toList.map fun c => if c = '-' then '_' else c) ++ "_" ++ base

/-- The document of a tree, with a line break at its end. -/
def document (tree : Tree) (space base : String) : String :=
  String.ofList (valueText 0 (.group [(rootKey space base, tree.toValue)]) ++ ['\n'])

end DesignTokens.Json
