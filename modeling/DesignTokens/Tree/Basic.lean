import DesignTokens.Number
import DesignTokens.Table

/-!
# Token trees

A token tree is what one token source describes: entries in the order of their declaration, each a
group of further entries, a list, or a scalar.
-/

namespace DesignTokens

/-- A value that holds no other values. -/
inductive Scalar where
  | text (s : String)
  | number (n : Number)
  | bool (b : Bool)
  | null
  deriving DecidableEq, Repr

/-- The text of a truth value. -/
def boolText (b : Bool) : String :=
  if b then "true" else "false"

namespace Scalar

/-- The text of a scalar, without quotation marks. -/
def display : Scalar → String
  | text s => s
  | number n => String.ofList n.text
  | bool b => boolText b
  | null => "null"

/-- Equality of scalars of one kind. -/
def same : Scalar → Scalar → Bool
  | number m, number n => m.same n
  | s, t => s == t

end Scalar

/-- A value of a token tree. -/
inductive Value where
  | group (entries : List (String × Value))
  | list (items : List Value)
  | leaf (scalar : Scalar)
  deriving Repr, Inhabited

/-- The entries of one token source. -/
structure Tree where
  entries : Table Value := []
  deriving Repr

namespace Value

/-- A text as a value. -/
def text (s : String) : Value :=
  .leaf (.text s)

/-- The scalar a value is, if it is one. -/
def leaf? : Value → Option Scalar
  | leaf s => some s
  | _ => none

/-- The entries of a group. -/
def group? : Value → Option Tree
  | group entries => some ⟨entries⟩
  | _ => none

end Value

namespace Tree

/-- The tree without entries. -/
def empty : Tree := {}

/-- The tree as a value of another tree. -/
def toValue (tree : Tree) : Value :=
  .group tree.entries

/-- The tree of a list of entries; of equal keys the first gives the place and the last the
value. -/
def ofPairs (pairs : List (String × Value)) : Tree :=
  ⟨Table.ofPairs pairs⟩

/-- Put a value under a key. -/
def insert (tree : Tree) (key : String) (value : Value) : Tree :=
  ⟨Table.insert tree.entries key value⟩

/-- Put a value under a key, and give the value that was there before. -/
def getThenInsert? (tree : Tree) (key : String) (value : Value) : Option Value × Tree :=
  let (old, entries) := Table.getThenInsert? tree.entries key value
  (old, ⟨entries⟩)

/-- The value under a key. -/
def get? (tree : Tree) (key : String) : Option Value :=
  Table.get? tree.entries key

/-- The keys, in order. -/
def keys (tree : Tree) : List String :=
  Table.keys tree.entries

/-- The number of entries. -/
def size (tree : Tree) : Nat :=
  tree.entries.length

/-- Whether there are no entries. -/
def isEmpty (tree : Tree) : Bool :=
  tree.entries.isEmpty

end Tree

end DesignTokens
