import DesignTokens.Alias.Resolution
import DesignTokens.Format.Basic
import DesignTokens.Proofs.Tree.Insertion
import DesignTokens.Tree.Load
import Mathlib.Logic.Function.Basic

/-!
# The trees that can be made

A tree is made by one of a few operations: it is empty, loaded from a text, collected from pairs, or
another tree with one more value in it. The values are put together from scalars, lists, pairs and
copies of trees made before (`Draft`), so that trees made by different operations end up in one
another at any depth.

None of the operations can make a tree with a repeated key. A value that is inserted or collected is
itself made of trees with distinct keys, and a document, which may well write different keys alike,
gets into a tree through `Table.ofPairs` alone.

* `Draft.keysDistinct_value`: what is put together from trees with distinct keys;
* `Tree.keysDistinct_loadOrEmpty`: what is loaded;
* `TreeOperation.keysDistinct_result` and `Workspace.keysDistinct_run`: one operation, and any
  sequence of them;
* `Tree.isReachable_iff_keysDistinct`: conversely every tree with distinct keys can be made.
-/

namespace DesignTokens

/-! ## Operations on named trees -/

/-- Trees by their names. -/
abbrev Workspace := String → Tree

/-- The workspace in which nothing was made yet. -/
def Workspace.initial : Workspace := fun _ => .empty

/-- How a value is put together. -/
inductive Draft where
  | scalar (s : Scalar)
  | list (items : List Draft)
  /-- A group collected from pairs, of which some may have the same key. -/
  | group (pairs : List (String × Draft))
  /-- A copy of a named tree, as a group. -/
  | copy (name : String)

namespace Draft

mutual

/-- The value that is put together from the trees of a workspace. -/
def value (trees : Workspace) : Draft → Value
  | .scalar s => .leaf s
  | .list items => .list (values trees items)
  | .group pairs => (Tree.ofPairs (entries trees pairs)).toValue
  | .copy name => (trees name).toValue

/-- The values of items. -/
def values (trees : Workspace) : List Draft → List Value
  | [] => []
  | item :: rest => item.value trees :: values trees rest

/-- The values of pairs, under their keys. -/
def entries (trees : Workspace) : List (String × Draft) → List (String × Value)
  | [] => []
  | (key, draft) :: rest => (key, draft.value trees) :: entries trees rest

end

end Draft

/-- The tree that a format writes: the name of the design system is attached to it. -/
def OutputFormat.attach (format : OutputFormat) (tree : Tree) (space : String) : Tree :=
  tree.insert namespaceKey (.text (format.namespaceText space))

theorem OutputFormat.render_eq (format : OutputFormat) (tree : Tree) (space base : String) :
    format.render tree space base = format.document (format.attach tree space) space base :=
  rfl

/-- A way to make a tree out of the trees made before. -/
inductive TreeOperation where
  | new
  | load (text : String)
  /-- Load a text after its aliases have been resolved. -/
  | parse (text : String)
  | collect (pairs : List (String × Draft))
  /-- A tree with one more value in it. -/
  | insert (source key : String) (draft : Draft)
  /-- The copy of a tree that is written in a format. -/
  | attach (source : String) (format : OutputFormat) (space : String)

/-- The tree that an operation makes. -/
def TreeOperation.result (trees : Workspace) : TreeOperation → Tree
  | new => .empty
  | load text => .loadOrEmpty text
  | parse text => .loadOrEmpty (Alias.resolve text).text
  | collect pairs => .ofPairs (Draft.entries trees pairs)
  | insert source key draft => ((trees source).getThenInsert? key (draft.value trees)).2
  | attach source format space => format.attach (trees source) space

/-- Carry out operations one after the other and give each tree its name. A name can be given
again, also to a tree made from the one that had it. -/
def Workspace.run (trees : Workspace) : List (String × TreeOperation) → Workspace
  | [] => trees
  | (name, operation) :: rest =>
    Workspace.run (Function.update trees name (operation.result trees)) rest

/-- Whether some sequence of operations makes a tree. -/
def Tree.IsReachable (tree : Tree) : Prop :=
  ∃ operations name, Workspace.initial.run operations name = tree

/-! ## What is loaded has distinct keys -/

namespace Yaml.Value

mutual

theorem keysDistinct_toTokens : ∀ v : Yaml.Value, v.toTokens.KeysDistinct
  | .mapping entries => by
    rw [toTokens]
    exact Tree.keysDistinct_ofPairs (keysDistinct_entriesToTokens entries)
  | .sequence items => by
    rw [toTokens]
    exact Value.keysDistinct_list.mpr (keysDistinct_itemsToTokens items)
  | .tagged _ value => by
    rw [toTokens]
    exact keysDistinct_toTokens value
  | .text _ => trivial
  | .number _ => trivial
  | .bool _ => trivial
  | .null => trivial

theorem keysDistinct_itemsToTokens : ∀ (items : List Yaml.Value),
    ∀ item ∈ itemsToTokens items, item.KeysDistinct
  | [] => fun _ hitem => absurd hitem List.not_mem_nil
  | first :: rest => by
    rw [itemsToTokens, List.forall_mem_cons]
    exact ⟨keysDistinct_toTokens first, keysDistinct_itemsToTokens rest⟩

theorem keysDistinct_entriesToTokens : ∀ (entries : List (Yaml.Value × Yaml.Value)),
    ∀ entry ∈ entriesToTokens entries, entry.2.KeysDistinct
  | [] => fun _ hentry => absurd hentry List.not_mem_nil
  | (key, value) :: rest => by
    rw [entriesToTokens]
    cases key.keyText? with
    | none => exact keysDistinct_entriesToTokens rest
    | some name =>
      rw [List.forall_mem_cons]
      exact ⟨keysDistinct_toTokens value, keysDistinct_entriesToTokens rest⟩

end

end Yaml.Value

namespace Tree

theorem keysDistinct_ofDocument {document : Yaml.Value} {tree : Tree}
    (h : ofDocument document = .ok tree) : tree.KeysDistinct := by
  unfold ofDocument at h
  split at h
  · rw [← Except.ok.inj h]
    exact keysDistinct_ofPairs (Yaml.Value.keysDistinct_entriesToTokens _)
  · rw [← Except.ok.inj h]
    exact keysDistinct_empty
  · exact absurd h (by simp)

/-- **A loaded tree has distinct keys**, however alike the keys of the document are written. -/
theorem keysDistinct_load {text : String} {tree : Tree} (h : load text = .ok tree) :
    tree.KeysDistinct := by
  unfold load at h
  split at h
  · exact keysDistinct_ofDocument h
  · exact absurd h (by simp)

theorem keysDistinct_loadOrEmpty (text : String) : (loadOrEmpty text).KeysDistinct := by
  unfold loadOrEmpty
  split
  · rename_i hload
    exact keysDistinct_load hload
  · exact keysDistinct_empty

end Tree

/-! ## What is put together has distinct keys -/

/-- Every tree of a workspace has distinct keys. -/
def Workspace.KeysDistinct (trees : Workspace) : Prop :=
  ∀ name, (trees name).KeysDistinct

namespace Draft

variable {trees : Workspace}

mutual

theorem keysDistinct_value (h : trees.KeysDistinct) : ∀ draft : Draft,
    (draft.value trees).KeysDistinct
  | .scalar _ => trivial
  | .list items => by
    rw [value]
    exact Value.keysDistinct_list.mpr (keysDistinct_values h items)
  | .group pairs => by
    rw [value]
    exact Tree.keysDistinct_ofPairs (keysDistinct_entries h pairs)
  | .copy name => by
    rw [value]
    exact h name

theorem keysDistinct_values (h : trees.KeysDistinct) : ∀ (items : List Draft),
    ∀ item ∈ values trees items, item.KeysDistinct
  | [] => fun _ hitem => absurd hitem List.not_mem_nil
  | first :: rest => by
    rw [values, List.forall_mem_cons]
    exact ⟨keysDistinct_value h first, keysDistinct_values h rest⟩

theorem keysDistinct_entries (h : trees.KeysDistinct) : ∀ (pairs : List (String × Draft)),
    ∀ entry ∈ entries trees pairs, entry.2.KeysDistinct
  | [] => fun _ hentry => absurd hentry List.not_mem_nil
  | (_, draft) :: rest => by
    rw [entries, List.forall_mem_cons]
    exact ⟨keysDistinct_value h draft, keysDistinct_entries h rest⟩

end

end Draft

/-! ## Every sequence of operations keeps keys distinct -/

theorem OutputFormat.keysDistinct_attach (format : OutputFormat) {tree : Tree}
    (h : tree.KeysDistinct) (space : String) : (format.attach tree space).KeysDistinct :=
  h.insert namespaceKey trivial

/-- **An operation on trees with distinct keys makes one more.** -/
theorem TreeOperation.keysDistinct_result {trees : Workspace} (h : trees.KeysDistinct)
    (operation : TreeOperation) : (operation.result trees).KeysDistinct := by
  cases operation with
  | new => exact Tree.keysDistinct_empty
  | load text => exact Tree.keysDistinct_loadOrEmpty text
  | parse text => exact Tree.keysDistinct_loadOrEmpty (Alias.resolve text).text
  | collect pairs => exact Tree.keysDistinct_ofPairs (Draft.keysDistinct_entries h pairs)
  | insert source key draft =>
    rw [result, Tree.getThenInsert?_eq]
    exact (h source).insert key (Draft.keysDistinct_value h draft)
  | attach source format space => exact format.keysDistinct_attach (h source) space

/-- **Operations keep the keys of all trees distinct.** -/
theorem Workspace.keysDistinct_run {trees : Workspace} (h : trees.KeysDistinct)
    (operations : List (String × TreeOperation)) : (trees.run operations).KeysDistinct := by
  induction operations generalizing trees with
  | nil => exact h
  | cons step rest ih =>
    obtain ⟨name, operation⟩ := step
    refine ih ?_
    intro other
    -- only the tree that gets the name is a new one
    by_cases hother : other = name
    · subst hother
      rw [Function.update_self]
      exact operation.keysDistinct_result h
    · rw [Function.update_of_ne hother]
      exact h other

/-! ## Every tree with distinct keys can be made -/

mutual

/-- A value as it can be put together without any tree made before. -/
def Value.draft : Value → Draft
  | .leaf s => .scalar s
  | .group entries => .group (Value.draftEntries entries)
  | .list items => .list (Value.draftItems items)

/-- The drafts of keyed values. -/
def Value.draftEntries : List (String × Value) → List (String × Draft)
  | [] => []
  | (key, value) :: rest => (key, value.draft) :: Value.draftEntries rest

/-- The drafts of items. -/
def Value.draftItems : List Value → List Draft
  | [] => []
  | value :: rest => value.draft :: Value.draftItems rest

end

namespace Draft

variable (trees : Workspace)

mutual

/-- A draft of a value gives the value back, unless collecting its pairs would merge some. -/
theorem value_draft : ∀ {v : Value}, v.KeysDistinct → v.draft.value trees = v
  | .leaf _, _ => rfl
  | .group pairs, h => by
    rw [Value.draft, value, entries_draftEntries h.2, Tree.ofPairs, Table.ofPairs_of_nodup h.1]
    rfl
  | .list _, h => by
    rw [Value.draft, value, values_draftItems h]

theorem entries_draftEntries : ∀ {pairs : List (String × Value)},
    Value.KeysDistinctEntries pairs → entries trees (Value.draftEntries pairs) = pairs
  | [], _ => rfl
  | (_, _) :: _, h => by
    rw [Value.draftEntries, entries, value_draft h.1, entries_draftEntries h.2]

theorem values_draftItems : ∀ {items : List Value},
    Value.KeysDistinctItems items → values trees (Value.draftItems items) = items
  | [], _ => rfl
  | _ :: _, h => by
    rw [Value.draftItems, values, value_draft h.1, values_draftItems h.2]

end

end Draft

namespace Tree

/-- **The trees that can be made are those with distinct keys.** -/
theorem isReachable_iff_keysDistinct (tree : Tree) : tree.IsReachable ↔ tree.KeysDistinct := by
  constructor
  · rintro ⟨operations, name, rfl⟩
    have hinitial : Workspace.initial.KeysDistinct := fun _ => keysDistinct_empty
    exact Workspace.keysDistinct_run hinitial operations name
  · -- one operation is enough: the entries are collected with everything that is below them
    intro h
    refine ⟨[("", .collect (Value.draftEntries tree.entries))], "", ?_⟩
    rw [Workspace.run, Workspace.run, Function.update_self, TreeOperation.result,
      Draft.entries_draftEntries _ h.2, ofPairs, Table.ofPairs_of_nodup h.1]

/--
**Every tree keeps its keys distinct and in the order of their first insertion.**

A tree can be made by some sequence of operations, in which trees are created, loaded, parsed,
collected from pairs, changed by insertion, copied into one another and given the name of the design
system that a format writes, exactly if the keys of every group in it are distinct at every depth.
What a format writes for a tree is the document of such a tree again, the one with that name in it.
And when entries are inserted into a tree one after the other, its keys are followed by the new ones
in the order of their first insertion; under a key there is the last value inserted under it, or
else what there was; each insertion gives what was found under its key right before; and in the end
there are as many entries as different keys.
-/
theorem keys_in_insertion_order :
    (∀ tree : Tree, tree.IsReachable ↔ tree.KeysDistinct)
    ∧ (∀ (tree : Tree) (format : OutputFormat) (space base : String), tree.IsReachable →
        (format.attach tree space).IsReachable
        ∧ format.render tree space base = format.document (format.attach tree space) space base)
    ∧ ∀ (start : Tree) (entries : List (String × Value)),
        (start.insertEach entries).2.keys
          = start.keys ++ ((entries.map Prod.fst).filter (· ∉ start.keys)).eraseDups
        ∧ (∀ key, (start.insertEach entries).2.get? key
            = ((entries.filter fun entry => entry.1 == key).getLast?.map Prod.snd).or
                (start.get? key))
        ∧ (∀ i : Nat, (start.insertEach entries).1[i]?
            = entries[i]?.map fun entry => (start.insertEach (entries.take i)).2.get? entry.1)
        ∧ (start.IsReachable →
            (start.insertEach entries).2.size
              = (start.keys ++ entries.map Prod.fst).toFinset.card) := by
  refine ⟨isReachable_iff_keysDistinct, ?_, ?_⟩
  · intro tree format space base htree
    have hkeys := (isReachable_iff_keysDistinct tree).mp htree
    exact ⟨(isReachable_iff_keysDistinct _).mpr (format.keysDistinct_attach hkeys space),
      format.render_eq tree space base⟩
  · intro start entries
    refine ⟨keys_insertEach start entries, get?_insertEach start entries,
      getElem?_insertEach start entries, ?_⟩
    intro hstart
    have hkeys : start.keys.Nodup := ((isReachable_iff_keysDistinct start).mp hstart).1
    exact size_insertEach start entries hkeys

/-- Operations that collect pairs with equal keys, copy a tree to two depths and attach a name. -/
def sizeOperations : List (String × TreeOperation) :=
  [("sm", .new),
    ("sm", .insert "sm" "sm" (.scalar (.text "4px"))),
    ("size", .collect [("gap", .scalar .null), ("size", .copy "sm"), ("gap", .list [.copy "sm"])]),
    ("size", .attach "size" .scss "ui")]

/-- The tree that they make. -/
def sizeTree : Tree :=
  ⟨[("gap", .list [.group [("sm", .text "4px")]]), ("size", .group [("sm", .text "4px")]),
    ("namespace", .text "\"ui\"")]⟩

/-- Entries with old and new keys, each of them twice. -/
def sizeEntries : List (String × Value) :=
  [("gap", .text "8px"), ("wide", .leaf .null), ("gap", .group []), ("wide", .list [])]

theorem keys_in_insertion_order_sizeTree :
    sizeTree.IsReachable ∧ sizeTree.KeysDistinct
    ∧ (OutputFormat.json.attach sizeTree "ns").IsReachable
    ∧ (sizeTree.insertEach sizeEntries).2.keys = ["gap", "size", "namespace", "wide"]
    ∧ (sizeTree.insertEach sizeEntries).2.get? "gap" = some (.group [])
    ∧ (sizeTree.insertEach sizeEntries).1[2]? = some (some (.text "8px"))
    ∧ (sizeTree.insertEach sizeEntries).2.size = 4 := by
  have hreachable : sizeTree.IsReachable := ⟨sizeOperations, "size", rfl⟩
  obtain ⟨hiff, hwritten, hinsertions⟩ := keys_in_insertion_order
  obtain ⟨hkeys, hlast, hbefore, hsize⟩ := hinsertions sizeTree sizeEntries
  refine ⟨hreachable, (hiff sizeTree).mp hreachable,
    (hwritten sizeTree .json "ns" "size" hreachable).1, hkeys.trans (by decide), ?_, ?_,
    (hsize hreachable).trans (by decide)⟩
  · rw [hlast]
    rfl
  · rw [hbefore]
    rfl

end Tree

end DesignTokens
