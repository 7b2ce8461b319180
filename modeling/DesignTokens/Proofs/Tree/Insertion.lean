import DesignTokens.Proofs.Tree.Lookup
import Mathlib.Data.Finset.Card

/-!
# Inserting into a tree

An insertion touches one entry at the root of a tree and leaves everything else as it was. Keys that
are distinct at every depth therefore stay so if the inserted value has distinct keys itself; what
stands below the root is never looked at.

A list of insertions is carried out by `Tree.insertEach`, which also collects what each of them
gives back. What a table says of pairs inserted one after the other then holds of the tree:

* `Tree.keys_insertEach`: the keys in the order of their first insertion;
* `Tree.get?_insertEach`: the last value wins;
* `Tree.getElem?_insertEach`: each insertion gives what was found under its key right before it;
* `Tree.size_insertEach`: the entries are as many as there are different keys.
-/

namespace DesignTokens

namespace Value

variable {entries : List (String × Value)} {items : List Value}

theorem keysDistinct_group :
    (group entries).KeysDistinct
      ↔ (Table.keys entries).Nodup ∧ ∀ entry ∈ entries, entry.2.KeysDistinct :=
  and_congr_right fun _ => keysDistinctEntries_iff

theorem keysDistinct_list :
    (list items).KeysDistinct ↔ ∀ item ∈ items, item.KeysDistinct :=
  keysDistinctItems_iff

end Value

namespace Tree

/-! ## Distinct keys at every depth -/

theorem keysDistinct_empty : Tree.empty.KeysDistinct :=
  ⟨List.nodup_nil, trivial⟩

/-- **An insertion keeps keys distinct**, whatever it takes the place of. -/
theorem KeysDistinct.insert {tree : Tree} (h : tree.KeysDistinct) (key : String) {value : Value}
    (hvalue : value.KeysDistinct) : (tree.insert key value).KeysDistinct := by
  obtain ⟨hkeys, hbelow⟩ := Value.keysDistinct_group.mp h
  refine Value.keysDistinct_group.mpr ⟨Table.nodup_keys_insert hkeys key value, ?_⟩
  intro entry hentry
  rcases Table.mem_of_mem_insert hentry with rfl | hentry
  · exact hvalue
  · exact hbelow entry hentry

/-- Pairs may have equal keys; the tree of them has not. -/
theorem keysDistinct_ofPairs {pairs : List (String × Value)}
    (h : ∀ entry ∈ pairs, entry.2.KeysDistinct) : (Tree.ofPairs pairs).KeysDistinct := by
  refine Value.keysDistinct_group.mpr ⟨Table.nodup_keys_ofPairs pairs, ?_⟩
  intro entry hentry
  exact h entry (Table.mem_of_mem_ofPairs hentry)

/-! ## Insertions one after the other -/

/-- Insert entries one after the other: what each insertion gives back, and the tree after all of
them. -/
def insertEach (tree : Tree) : List (String × Value) → List (Option Value) × Tree
  | [] => ([], tree)
  | (key, value) :: rest =>
    let (old, tree) := tree.getThenInsert? key value
    let (olds, tree) := insertEach tree rest
    (old :: olds, tree)

variable (tree : Tree) (entries : List (String × Value))

theorem getThenInsert?_eq (key : String) (value : Value) :
    tree.getThenInsert? key value = (tree.get? key, tree.insert key value) := by
  unfold getThenInsert?
  rw [Table.getThenInsert?_eq]
  rfl

theorem insertEach_cons (key : String) (value : Value) :
    tree.insertEach ((key, value) :: entries)
      = (tree.get? key :: ((tree.insert key value).insertEach entries).1,
          ((tree.insert key value).insertEach entries).2) := by
  rw [insertEach, getThenInsert?_eq]

/-- The tree after all insertions has the entries of the table after them. -/
theorem entries_insertEach :
    (tree.insertEach entries).2.entries = Table.insertMany tree.entries entries := by
  induction entries generalizing tree with
  | nil => rfl
  | cons entry rest ih =>
    obtain ⟨key, value⟩ := entry
    rw [insertEach_cons]
    exact ih (tree.insert key value)

/-- **Keys stand in the order of their first insertion**, behind those of the tree. -/
theorem keys_insertEach :
    (tree.insertEach entries).2.keys
      = tree.keys ++ ((entries.map Prod.fst).filter (· ∉ tree.keys)).eraseDups := by
  unfold keys
  rw [entries_insertEach, Table.keys_insertMany]

/-- **The last value inserted under a key is the one that is found.** -/
theorem get?_insertEach (key : String) :
    (tree.insertEach entries).2.get? key
      = ((entries.filter fun entry => entry.1 == key).getLast?.map Prod.snd).or
          (tree.get? key) := by
  unfold get?
  rw [entries_insertEach, Table.get?_insertMany]

/-- **Each insertion gives what was found under its key right before it.** -/
theorem getElem?_insertEach (i : Nat) :
    (tree.insertEach entries).1[i]?
      = entries[i]?.map fun entry => (tree.insertEach (entries.take i)).2.get? entry.1 := by
  induction entries generalizing tree i with
  | nil => rfl
  | cons entry rest ih =>
    obtain ⟨key, value⟩ := entry
    rw [insertEach_cons]
    cases i with
    | zero => rfl
    | succ i =>
      -- the insertions before this one begin with that of the first entry
      rw [List.getElem?_cons_succ, List.getElem?_cons_succ, List.take_succ_cons, insertEach_cons]
      exact ih (tree.insert key value) i

theorem size_eq_length_keys : tree.size = tree.keys.length :=
  (List.length_map _).symm

/-- **There are as many entries as different keys.** -/
theorem size_insertEach (h : tree.keys.Nodup) :
    (tree.insertEach entries).2.size = (tree.keys ++ entries.map Prod.fst).toFinset.card := by
  have hnodup : (tree.insertEach entries).2.keys.Nodup := by
    unfold keys
    rw [entries_insertEach]
    exact Table.nodup_keys_insertMany h entries
  have hkeys : (tree.insertEach entries).2.keys.toFinset
      = (tree.keys ++ entries.map Prod.fst).toFinset := by
    ext key
    rw [keys_insertEach, List.mem_toFinset, List.mem_toFinset, List.mem_append, List.mem_append,
      List.mem_eraseDups, List.mem_filter, decide_eq_true_eq]
    by_cases hkey : key ∈ tree.keys
    · exact iff_of_true (Or.inl hkey) (Or.inl hkey)
    · rw [or_iff_right hkey, or_iff_right hkey, and_iff_left hkey]
  rw [size_eq_length_keys, ← List.toFinset_card_of_nodup hnodup, hkeys]

end Tree

end DesignTokens
