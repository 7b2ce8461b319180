import DesignTokens.Tree.Outline

/-!
# The nodes of a tree

A node is a value anywhere below the root of a tree, with the path of keys that leads to it; the
items of a list are keyed by their indices. `Tree.nodes` meets the nodes in the order of a reader,
each before what is below it, and takes groups and lists apart by themselves. The leaves of a tree
are those of its nodes that are scalars (`Tree.leaves_eq`).
-/

namespace DesignTokens

/-- A value below the root of a tree and the keys that lead to it. -/
structure TreeNode where
  path : List String
  value : Value

namespace TreeNode

/-- The node one level further down, under a key. -/
def under (key : String) (n : TreeNode) : TreeNode :=
  { n with path := key :: n.path }

/-- The last key of the path. -/
def key (n : TreeNode) : String :=
  n.path.getLastD ""

/-- The leaf a node is, if its value is a scalar. -/
def leaf? (n : TreeNode) : Option Leaf :=
  n.value.leaf?.map fun s => ⟨n.path, s⟩

/-- Whether a node is a group or a list without entries. -/
def isHollow (n : TreeNode) : Bool :=
  match n.value with
  | .group [] => true
  | .list [] => true
  | _ => false

theorem leaf?_under (k : String) (n : TreeNode) :
    (n.under k).leaf? = n.leaf?.map (Leaf.under k) := by
  unfold leaf? under
  rw [Option.map_map]
  rfl

end TreeNode

mutual

/-- A value and everything below it. -/
def Value.nodes : Value → List TreeNode
  | .leaf s => [⟨[], .leaf s⟩]
  | .group entries => ⟨[], .group entries⟩ :: Value.nodesOfEntries entries
  | .list items => ⟨[], .list items⟩ :: Value.nodesOfItems 0 items

/-- What the entries of a group hold. -/
def Value.nodesOfEntries : List (String × Value) → List TreeNode
  | [] => []
  | (key, value) :: rest => value.nodes.map (TreeNode.under key) ++ Value.nodesOfEntries rest

/-- What list items hold, keyed by their indices from `i` on. -/
def Value.nodesOfItems (i : Nat) : List Value → List TreeNode
  | [] => []
  | value :: rest =>
    value.nodes.map (TreeNode.under (indexKey i)) ++ Value.nodesOfItems (i + 1) rest

end

/-- The nodes of a tree, each before those below it. -/
def Tree.nodes (tree : Tree) : List TreeNode :=
  Value.nodesOfEntries tree.entries

/-! ## Leaves are nodes -/

theorem filterMap_leaf?_under (k : String) (nodes : List TreeNode) :
    (nodes.map (TreeNode.under k)).filterMap TreeNode.leaf?
      = (nodes.filterMap TreeNode.leaf?).map (Leaf.under k) := by
  rw [List.filterMap_map, List.map_filterMap]
  exact congrArg (fun f => nodes.filterMap f) (funext fun n => TreeNode.leaf?_under k n)

mutual

theorem Value.leaves_outline : ∀ v : Value, v.outline.leaves = v.nodes.filterMap TreeNode.leaf?
  | .leaf s => rfl
  | .group entries => by
    rw [Value.outline, Outline.leaves, Value.nodes, Value.leavesOf_outlineEntries entries]
    rfl
  | .list items => by
    rw [Value.outline, Outline.leaves, Value.nodes, Value.leavesOf_outlineItems 0 items]
    rfl

theorem Value.leavesOf_outlineEntries : ∀ entries : List (String × Value),
    Outline.leavesOf (Value.outlineEntries entries)
      = (Value.nodesOfEntries entries).filterMap TreeNode.leaf?
  | [] => rfl
  | (key, value) :: rest => by
    rw [Value.outlineEntries, Outline.leavesOf, Value.nodesOfEntries, List.filterMap_append,
      filterMap_leaf?_under, Value.leaves_outline value, Value.leavesOf_outlineEntries rest]

theorem Value.leavesOf_outlineItems : ∀ (i : Nat) (items : List Value),
    Outline.leavesOf (Value.outlineItems i items)
      = (Value.nodesOfItems i items).filterMap TreeNode.leaf?
  | _, [] => rfl
  | i, value :: rest => by
    rw [Value.outlineItems, Outline.leavesOf, Value.nodesOfItems, List.filterMap_append,
      filterMap_leaf?_under, Value.leaves_outline value, Value.leavesOf_outlineItems (i + 1) rest]

end

/-- **The leaves of a tree are its scalar nodes.** -/
theorem Tree.leaves_eq (tree : Tree) : tree.leaves = tree.nodes.filterMap TreeNode.leaf? :=
  Value.leavesOf_outlineEntries tree.entries

/-! ## Paths below the root -/

/-- A node below some keys has one of them on its path. -/
theorem Value.path_ne_nil_of_mem_nodesOfEntries {entries : List (String × Value)} {n : TreeNode}
    (h : n ∈ Value.nodesOfEntries entries) : n.path ≠ [] := by
  induction entries with
  | nil => exact absurd h List.not_mem_nil
  | cons entry rest ih =>
    rcases List.mem_append.mp h with h | h
    · obtain ⟨m, -, rfl⟩ := List.mem_map.mp h
      exact List.cons_ne_nil _ _
    · exact ih h

theorem Value.path_ne_nil_of_mem_nodesOfItems {i : Nat} {items : List Value} {n : TreeNode}
    (h : n ∈ Value.nodesOfItems i items) : n.path ≠ [] := by
  induction items generalizing i with
  | nil => exact absurd h List.not_mem_nil
  | cons value rest ih =>
    rcases List.mem_append.mp h with h | h
    · obtain ⟨m, -, rfl⟩ := List.mem_map.mp h
      exact List.cons_ne_nil _ _
    · exact ih h

end DesignTokens
