import DesignTokens.Tree.Outline
import Mathlib.Data.List.Nodup

/-!
# Trees with distinct keys

A table keeps its keys distinct, and a tree holds tables at every depth: `Tree.KeysDistinct` says
so of all of them at once. The indices of a list are distinct keys by themselves
(`indexKey_injective`), so that distinctness passes from a tree to its outline.
-/

namespace DesignTokens

mutual

/-- Every group in a value has distinct keys. -/
def Value.KeysDistinct : Value → Prop
  | .leaf _ => True
  | .group entries => (Table.keys entries).Nodup ∧ Value.KeysDistinctEntries entries
  | .list items => Value.KeysDistinctItems items

/-- Every group in keyed values has distinct keys. -/
def Value.KeysDistinctEntries : List (String × Value) → Prop
  | [] => True
  | (_, value) :: rest => value.KeysDistinct ∧ Value.KeysDistinctEntries rest

/-- Every group in list items has distinct keys. -/
def Value.KeysDistinctItems : List Value → Prop
  | [] => True
  | value :: rest => value.KeysDistinct ∧ Value.KeysDistinctItems rest

end

/-- Every group of a tree, the tree included, has distinct keys. -/
def Tree.KeysDistinct (tree : Tree) : Prop :=
  tree.toValue.KeysDistinct

mutual

/-- Every branch of an outline has distinct keys. -/
def Outline.KeysDistinct : Outline → Prop
  | .leaf _ => True
  | .branch entries => (entries.map Prod.fst).Nodup ∧ Outline.KeysDistinctOf entries

/-- Every branch of keyed outlines has distinct keys. -/
def Outline.KeysDistinctOf : List (String × Outline) → Prop
  | [] => True
  | (_, outline) :: rest => outline.KeysDistinct ∧ Outline.KeysDistinctOf rest

end

/-! ## Indices are distinct -/

/-- Different indices are different keys. -/
theorem indexKey_injective : Function.Injective indexKey := by
  intro i j h
  have hdigits : Decimal.digits i = Decimal.digits j := String.ofList_injective h
  have hvalue : ∀ n, Nat.ofDigitChars 10 (Decimal.digits n) 0 = n :=
    fun n => Nat.ofDigitChars_ten_toDigits
  rw [← hvalue i, hdigits, hvalue j]

theorem keys_outlineEntries (entries : List (String × Value)) :
    (Value.outlineEntries entries).map Prod.fst = Table.keys entries := by
  induction entries with
  | nil => rfl
  | cons entry rest ih =>
    rw [Value.outlineEntries, List.map_cons, ih]
    rfl

theorem keys_outlineItems (i : Nat) (items : List Value) :
    (Value.outlineItems i items).map Prod.fst = (List.range' i items.length).map indexKey := by
  induction items generalizing i with
  | nil => rfl
  | cons value rest ih =>
    rw [Value.outlineItems, List.map_cons, ih, List.length_cons, List.range'_succ, List.map_cons]

/-! ## From values to outlines -/

mutual

theorem Value.KeysDistinct.outline : ∀ {v : Value}, v.KeysDistinct → v.outline.KeysDistinct
  | .leaf _, _ => trivial
  | .group entries, h => by
    obtain ⟨hkeys, hbelow⟩ := h
    refine ⟨?_, Value.KeysDistinct.outlineEntries hbelow⟩
    rw [keys_outlineEntries]
    exact hkeys
  | .list items, h => by
    refine ⟨?_, Value.KeysDistinct.outlineItems 0 h⟩
    rw [keys_outlineItems]
    exact List.Nodup.map indexKey_injective List.nodup_range'

theorem Value.KeysDistinct.outlineEntries : ∀ {entries : List (String × Value)},
    Value.KeysDistinctEntries entries → Outline.KeysDistinctOf (Value.outlineEntries entries)
  | [], _ => trivial
  | (_, _) :: _, h => ⟨Value.KeysDistinct.outline h.1, Value.KeysDistinct.outlineEntries h.2⟩

theorem Value.KeysDistinct.outlineItems : ∀ (i : Nat) {items : List Value},
    Value.KeysDistinctItems items → Outline.KeysDistinctOf (Value.outlineItems i items)
  | _, [], _ => trivial
  | i, _ :: _, h => ⟨Value.KeysDistinct.outline h.1, Value.KeysDistinct.outlineItems (i + 1) h.2⟩

end

/-- The outline of a tree whose keys are distinct has distinct keys. -/
theorem Tree.KeysDistinct.outline {tree : Tree} (h : tree.KeysDistinct) :
    (tree.outline.map Prod.fst).Nodup ∧ Outline.KeysDistinctOf tree.outline :=
  Value.KeysDistinct.outline h

/-! ## Leaves have a first key -/

/-- A leaf of keyed outlines lies under one of the keys. -/
theorem Outline.exists_key_of_mem_leavesOf {outlines : List (String × Outline)} {l : Leaf}
    (h : l ∈ Outline.leavesOf outlines) :
    ∃ key path, l.path = key :: path ∧ key ∈ outlines.map Prod.fst := by
  induction outlines with
  | nil => exact absurd h List.not_mem_nil
  | cons entry rest ih =>
    rcases List.mem_append.mp h with h | h
    · obtain ⟨m, -, rfl⟩ := List.mem_map.mp h
      exact ⟨entry.1, m.path, rfl, List.mem_cons_self⟩
    · obtain ⟨key, path, hpath, hkey⟩ := ih h
      exact ⟨key, path, hpath, List.mem_cons_of_mem _ hkey⟩

end DesignTokens
