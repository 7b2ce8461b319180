import DesignTokens.Proofs.Decimal.Digits
import DesignTokens.Proofs.Table
import DesignTokens.Proofs.Tree.Distinct

/-!
# Looking paths up

A path is followed from a value one key at a time: a group is asked for the key, and a list for the
item whose index the key is in decimal notation. Groups and lists then differ no more. What is
directly below a value are its children, each under its key, and

* `Value.childInduction`: what passes from the children to the value holds of every value;
* `Value.child?_eq_some_iff`: looking a key up finds the child that has it;
* `Value.AllKeys.children`: what is said of all keys is said of the keys of children;
* `Value.outline_cases`: the outline of a value is made of the outlines of its children.
-/

namespace DesignTokens

/-- The index that a key is the decimal notation of. -/
def index? (key : String) : Option Nat :=
  if indexKey (Decimal.ofDigits 10 key.toList) = key then some (Decimal.ofDigits 10 key.toList)
  else none

/-- A number has one notation, which is the key of its item. -/
theorem index?_eq_some_iff {key : String} {i : Nat} : index? key = some i ↔ key = indexKey i := by
  unfold index?
  constructor
  · intro h
    split at h
    · rename_i hkey
      rw [← Option.some.inj h, hkey]
    · exact absurd h (by simp)
  · rintro rfl
    have hdigits : Decimal.ofDigits 10 (indexKey i).toList = i := by
      rw [indexKey, String.toList_ofList, Decimal.ofDigits_digits]
    rw [hdigits, if_pos rfl]

namespace Value

/-- The value under a key: that of a group, or the list item with that index. -/
def child? (v : Value) (key : String) : Option Value :=
  match v with
  | .leaf _ => none
  | .group entries => Table.get? entries key
  | .list items => (index? key).bind fun i => items[i]?

/-- The value that a path of keys leads to. -/
def at? : Value → List String → Option Value
  | v, [] => some v
  | v, key :: path => (v.child? key).bind fun w => w.at? path

/-- What is directly below a value, in order. The keys of list items are their indices. -/
def children : Value → List (String × Value)
  | .leaf _ => []
  | .group entries => entries
  | .list items => items.zipIdx.map fun item => (indexKey item.2, item.1)

/-- The keys of the children, in order. -/
def childKeys (v : Value) : List String :=
  v.children.map Prod.fst

end Value

/-- The value that a path of keys leads to, from the root of a tree. -/
def Tree.at? (tree : Tree) (path : List String) : Option Value :=
  tree.toValue.at? path

namespace Value

variable {v w : Value} {key : String}

/-! ## Induction -/

theorem sizeOf_lt_of_mem_children {entry : String × Value} (h : entry ∈ v.children) :
    sizeOf entry.2 < sizeOf v := by
  cases v with
  | leaf s => exact absurd h List.not_mem_nil
  | group entries =>
    have hentry : sizeOf entry < sizeOf entries := List.sizeOf_lt_of_mem h
    have hpair : sizeOf entry = 1 + sizeOf entry.1 + sizeOf entry.2 := rfl
    rw [group.sizeOf_spec]
    omega
  | list items =>
    obtain ⟨item, hitem, rfl⟩ := List.mem_map.mp h
    have hmem : item.1 ∈ items := List.mem_of_getElem? (List.mem_zipIdx_iff_getElem?.mp hitem)
    have hsize : sizeOf item.1 < sizeOf items := List.sizeOf_lt_of_mem hmem
    rw [list.sizeOf_spec]
    show sizeOf item.1 < _
    omega

/-- **What holds of a value whenever it holds of its children holds of every value.** -/
theorem childInduction {motive : Value → Prop}
    (step : ∀ v : Value, (∀ entry ∈ v.children, motive entry.2) → motive v) (v : Value) :
    motive v :=
  step v fun entry _ => childInduction step entry.2
termination_by sizeOf v
decreasing_by exact sizeOf_lt_of_mem_children ‹_›

/-! ## Children are found under their keys -/

theorem mem_children_list {items : List Value} :
    (key, w) ∈ (list items).children ↔ ∃ i, key = indexKey i ∧ items[i]? = some w := by
  constructor
  · intro h
    obtain ⟨⟨item, i⟩, hitem, heq⟩ := List.mem_map.mp h
    obtain ⟨rfl, rfl⟩ := Prod.mk.inj heq
    exact ⟨i, rfl, List.mem_zipIdx_iff_getElem?.mp hitem⟩
  · rintro ⟨i, rfl, hitem⟩
    exact List.mem_map.mpr ⟨(w, i), List.mem_zipIdx_iff_getElem?.mpr hitem, rfl⟩

theorem keysDistinctEntries_iff {entries : List (String × Value)} :
    KeysDistinctEntries entries ↔ ∀ entry ∈ entries, entry.2.KeysDistinct := by
  induction entries with
  | nil => exact iff_of_true trivial fun _ hentry => absurd hentry List.not_mem_nil
  | cons entry rest ih => rw [KeysDistinctEntries, ih, List.forall_mem_cons]

theorem keysDistinctItems_iff {items : List Value} :
    KeysDistinctItems items ↔ ∀ item ∈ items, item.KeysDistinct := by
  induction items with
  | nil => exact iff_of_true trivial fun _ hitem => absurd hitem List.not_mem_nil
  | cons item rest ih => rw [KeysDistinctItems, ih, List.forall_mem_cons]

/-- The keys of the children are distinct, and so are the keys below them. -/
theorem KeysDistinct.children (h : v.KeysDistinct) :
    v.childKeys.Nodup ∧ ∀ entry ∈ v.children, entry.2.KeysDistinct := by
  cases v with
  | leaf s => exact ⟨List.nodup_nil, fun _ hentry => absurd hentry List.not_mem_nil⟩
  | group entries => exact ⟨h.1, keysDistinctEntries_iff.mp h.2⟩
  | list items =>
    refine ⟨?_, fun entry hentry => ?_⟩
    · have hkeys : (list items).childKeys = (List.range' 0 items.length).map indexKey := by
        unfold childKeys Value.children
        rw [List.map_map, ← List.zipIdx_map_snd, List.map_map]
        rfl
      rw [hkeys]
      exact List.Nodup.map indexKey_injective List.nodup_range'
    · obtain ⟨i, -, hitem⟩ := mem_children_list.mp hentry
      exact keysDistinctItems_iff.mp h _ (List.mem_of_getElem? hitem)

/-- **Where keys are distinct, looking a key up finds the child that has it.** -/
theorem child?_eq_some_iff (h : v.KeysDistinct) :
    v.child? key = some w ↔ (key, w) ∈ v.children := by
  cases v with
  | leaf s => exact iff_of_false (fun hnone => nomatch hnone) List.not_mem_nil
  | group entries => exact Table.get?_eq_some_iff h.1
  | list items =>
    rw [mem_children_list]
    show (index? key).bind _ = some w ↔ _
    rw [Option.bind_eq_some_iff]
    exact exists_congr fun i => and_congr_left fun _ => index?_eq_some_iff

/-! ## Keys at every depth -/

mutual

/-- Whether every key within a value has a property. The indices of list items do not count. -/
def AllKeys (p : String → Prop) : Value → Prop
  | .leaf _ => True
  | .group entries => AllKeysEntries p entries
  | .list items => AllKeysItems p items

/-- Whether keyed values have such keys, and all keys within them are such. -/
def AllKeysEntries (p : String → Prop) : List (String × Value) → Prop
  | [] => True
  | (key, value) :: rest => p key ∧ value.AllKeys p ∧ AllKeysEntries p rest

/-- Whether every key within list items has a property. -/
def AllKeysItems (p : String → Prop) : List Value → Prop
  | [] => True
  | value :: rest => value.AllKeys p ∧ AllKeysItems p rest

end

theorem allKeysEntries_iff {p : String → Prop} {entries : List (String × Value)} :
    AllKeysEntries p entries ↔ ∀ entry ∈ entries, p entry.1 ∧ entry.2.AllKeys p := by
  induction entries with
  | nil => exact iff_of_true trivial fun _ hentry => absurd hentry List.not_mem_nil
  | cons entry rest ih => rw [AllKeysEntries, ih, ← and_assoc, List.forall_mem_cons]

theorem allKeysItems_iff {p : String → Prop} {items : List Value} :
    AllKeysItems p items ↔ ∀ item ∈ items, item.AllKeys p := by
  induction items with
  | nil => exact iff_of_true trivial fun _ hitem => absurd hitem List.not_mem_nil
  | cons item rest ih => rw [AllKeysItems, ih, List.forall_mem_cons]

/-- A property of all keys and of all indices is one of the keys of children. -/
theorem AllKeys.children {p : String → Prop} (hindex : ∀ i, p (indexKey i)) (h : v.AllKeys p) :
    ∀ entry ∈ v.children, p entry.1 ∧ entry.2.AllKeys p := by
  cases v with
  | leaf s => exact fun _ hentry => absurd hentry List.not_mem_nil
  | group entries => exact allKeysEntries_iff.mp h
  | list items =>
    intro entry hentry
    obtain ⟨i, hkey, hitem⟩ := mem_children_list.mp hentry
    exact ⟨hkey ▸ hindex i, allKeysItems_iff.mp h entry.2 (List.mem_of_getElem? hitem)⟩

/-! ## Outlines are made of the outlines of children -/

theorem outlineEntries_eq_map (entries : List (String × Value)) :
    outlineEntries entries = entries.map fun entry => (entry.1, entry.2.outline) := by
  induction entries with
  | nil => rfl
  | cons entry rest ih => rw [outlineEntries, ih, List.map_cons]

theorem outlineItems_eq_map (i : Nat) (items : List Value) :
    outlineItems i items = (items.zipIdx i).map fun item => (indexKey item.2, item.1.outline) := by
  induction items generalizing i with
  | nil => rfl
  | cons item rest ih => rw [outlineItems, ih, List.zipIdx_cons, List.map_cons]

/-- A value that is a scalar has no children, and any other is the branch of its children. -/
theorem outline_cases (v : Value) :
    (∃ s, v = .leaf s)
    ∨ v.leaf? = none
      ∧ v.outline = .branch (v.children.map fun entry => (entry.1, entry.2.outline)) := by
  cases v with
  | leaf s => exact Or.inl ⟨s, rfl⟩
  | group entries =>
    refine Or.inr ⟨rfl, ?_⟩
    rw [outline, outlineEntries_eq_map]
    rfl
  | list items =>
    refine Or.inr ⟨rfl, ?_⟩
    rw [outline, outlineItems_eq_map, children, List.map_map]
    rfl

end Value

/-- Whether every key within a tree has a property. -/
def Tree.AllKeys (p : String → Prop) (tree : Tree) : Prop :=
  tree.toValue.AllKeys p

/-- A tree without floating-point numbers. -/
def Tree.NumbersAreIntegers (tree : Tree) : Prop :=
  ∀ l ∈ tree.leaves, ∀ x, l.scalar ≠ .number (.float x)

theorem Outline.leavesOf_eq_flatMap (outlines : List (String × Outline)) :
    Outline.leavesOf outlines
      = outlines.flatMap fun entry => entry.2.leaves.map (Leaf.under entry.1) := by
  induction outlines with
  | nil => rfl
  | cons entry rest ih => rw [Outline.leavesOf, ih, List.flatMap_cons]

end DesignTokens
