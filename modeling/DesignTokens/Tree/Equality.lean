import DesignTokens.Tree.Basic

/-!
# Equality of trees

Two groups are the same if they have the same keys with the same values, in whatever order; lists
are compared item by item.
-/

namespace DesignTokens

mutual

/-- Whether two values are the same up to the order of entries. -/
def Value.same : Value → Value → Bool
  | .leaf s, .leaf t => s.same t
  | .list xs, .list ys => Value.sameItems xs ys
  | .group xs, .group ys => xs.length == ys.length && Value.sameEntries xs ys
  | _, _ => false

/-- Whether two lists are the same item by item. -/
def Value.sameItems : List Value → List Value → Bool
  | [], [] => true
  | x :: xs, y :: ys => x.same y && Value.sameItems xs ys
  | _, _ => false

/-- Whether a table has every entry of a list of entries. -/
def Value.sameEntries : List (String × Value) → List (String × Value) → Bool
  | [], _ => true
  | (key, x) :: xs, ys =>
    (match Table.get? ys key with
      | some y => x.same y
      | none => false) && Value.sameEntries xs ys

end

/-- Whether two trees are the same up to the order of entries. -/
def Tree.same (s t : Tree) : Bool :=
  s.toValue.same t.toValue

end DesignTokens
