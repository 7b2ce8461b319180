import DesignTokens.Tree.Basic

/-!
# Outlines and leaves

The outline of a value forgets the difference between groups and lists: a list becomes a branch
whose keys are the decimal indices of its items. The leaves of an outline, in the order in which a
reader meets them, each come with the path of keys that leads there.
-/

namespace DesignTokens

/-- A value with its lists read as groups. -/
inductive Outline where
  | leaf (scalar : Scalar)
  | branch (entries : List (String × Outline))
  deriving Repr

/-- The key of a list item. -/
def indexKey (i : Nat) : String :=
  String.ofList (Decimal.digits i)

mutual

/-- The outline of a value. -/
def Value.outline : Value → Outline
  | .leaf s => .leaf s
  | .group entries => .branch (Value.outlineEntries entries)
  | .list items => .branch (Value.outlineItems 0 items)

/-- The outlines of keyed values. -/
def Value.outlineEntries : List (String × Value) → List (String × Outline)
  | [] => []
  | (key, value) :: rest => (key, value.outline) :: Value.outlineEntries rest

/-- The outlines of list items, keyed by their indices from `i` on. -/
def Value.outlineItems (i : Nat) : List Value → List (String × Outline)
  | [] => []
  | value :: rest => (indexKey i, value.outline) :: Value.outlineItems (i + 1) rest

end

/-- A scalar of a tree and the keys that lead to it. -/
structure Leaf where
  path : List String
  scalar : Scalar
  deriving DecidableEq, Repr

namespace Leaf

/-- The leaf one level further down, under a key. -/
def under (key : String) (l : Leaf) : Leaf :=
  { l with path := key :: l.path }

/-- The path as one text. -/
def joined (separator : String) (l : Leaf) : String :=
  separator.intercalate l.path

/-- The first key of the path. -/
def sectionKey (l : Leaf) : String :=
  l.path.headD ""

end Leaf

mutual

/-- The leaves of an outline in order, with the paths that lead to them. -/
def Outline.leaves : Outline → List Leaf
  | .leaf s => [⟨[], s⟩]
  | .branch entries => Outline.leavesOf entries

/-- The leaves of keyed outlines, each under its key. -/
def Outline.leavesOf : List (String × Outline) → List Leaf
  | [] => []
  | (key, outline) :: rest => outline.leaves.map (Leaf.under key) ++ Outline.leavesOf rest

end

namespace Tree

/-- The outlines of the entries of a tree. -/
def outline (tree : Tree) : List (String × Outline) :=
  Value.outlineEntries tree.entries

/-- The leaves of a tree. Groups and lists without entries have none. -/
def leaves (tree : Tree) : List Leaf :=
  Outline.leavesOf tree.outline

end Tree

end DesignTokens
