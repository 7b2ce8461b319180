import DesignTokens.Proofs.Tree.Lookup
import Mathlib.Data.List.Pairwise

/-!
# The leaves of a tree, found by their paths

The list of leaves is read off the outline of a tree, and a path is followed in the tree itself. The
two describe the same scalars: a leaf is listed under a path exactly if the path leads to it
(`Value.mem_leaves_iff`). The list also has an order, which the paths show. Of two leaves the first
is the one whose path goes into the earlier child where the two paths part
(`Value.pairwise_precedes_leaves`), and since no path precedes itself, no path is listed twice.
-/

namespace DesignTokens

/-! ## The order of paths -/

namespace Value

/-- Below a value, two paths part at some node, and the first one goes on into a child that stands
before the child of the other. -/
inductive Precedes : Value → List String → List String → Prop where
  /-- The paths part at the value itself. -/
  | here {v : Value} {key key' : String} {path path' : List String} :
      v.childKeys.idxOf key < v.childKeys.idxOf key' → key' ∈ v.childKeys →
      Precedes v (key :: path) (key' :: path')
  /-- The paths go into the same child and part below it. -/
  | deeper {v w : Value} {key : String} {path path' : List String} :
      v.child? key = some w → Precedes w path path' → Precedes v (key :: path) (key :: path')

variable {v w : Value} {path path' : List String}

theorem Precedes.asymm (h : v.Precedes path path') : ¬ v.Precedes path' path := by
  induction h with
  | here hlt _ =>
    intro hback
    cases hback with
    | here hgt _ => exact Nat.lt_asymm hlt hgt
    | deeper _ _ => exact Nat.lt_irrefl _ hlt
  | deeper hchild _ ih =>
    intro hback
    cases hback with
    | here hgt _ => exact Nat.lt_irrefl _ hgt
    | deeper hchild' hback =>
      obtain rfl := Option.some.inj (hchild.symm.trans hchild')
      exact ih hback

theorem Precedes.ne (h : v.Precedes path path') : path ≠ path' := by
  rintro rfl
  exact h.asymm h

end Value

/-! ## The leaves below a value -/

namespace Value

variable {v : Value}

/-- A value that is no scalar has the leaves of its children, each under the key of its child. -/
theorem leaves_of_branch
    (h : v.outline = .branch (v.children.map fun entry => (entry.1, entry.2.outline))) :
    v.outline.leaves
      = v.children.flatMap fun entry => entry.2.outline.leaves.map (Leaf.under entry.1) := by
  rw [h, Outline.leaves, Outline.leavesOf_eq_flatMap, List.flatMap_map]

/-- What is said of all keys and of all indices is said of the keys that lead to leaves. -/
theorem AllKeys.of_mem_path {p : String → Prop} (hindex : ∀ i, p (indexKey i)) (h : v.AllKeys p)
    {l : Leaf} (hl : l ∈ v.outline.leaves) : ∀ key ∈ l.path, p key := by
  induction v using childInduction generalizing l with
  | step v ih =>
    rcases v.outline_cases with ⟨s, rfl⟩ | ⟨-, hbranch⟩
    · rw [List.mem_singleton.mp hl]
      exact fun key hkey => absurd hkey List.not_mem_nil
    · rw [leaves_of_branch hbranch, List.mem_flatMap] at hl
      obtain ⟨entry, hentry, hl⟩ := hl
      obtain ⟨m, hm, rfl⟩ := List.mem_map.mp hl
      obtain ⟨hkey, hbelow⟩ := h.children hindex entry hentry
      exact List.forall_mem_cons.mpr ⟨hkey, ih entry hentry hbelow hm⟩

/-- **A leaf is listed under a path exactly if the path leads to it.** -/
theorem mem_leaves_iff (hkeys : v.KeysDistinct) {path : List String} {s : Scalar} :
    ⟨path, s⟩ ∈ v.outline.leaves ↔ v.at? path = some (.leaf s) := by
  induction v using childInduction generalizing path with
  | step v ih =>
    rcases v.outline_cases with ⟨t, rfl⟩ | ⟨hleaf, hbranch⟩
    · show ⟨path, s⟩ ∈ [(⟨[], t⟩ : Leaf)] ↔ _
      rw [List.mem_singleton]
      cases path with
      | nil => simp [at?, eq_comm]
      | cons key path => simp [at?, child?]
    · rw [leaves_of_branch hbranch, List.mem_flatMap]
      cases path with
      | nil =>
        -- the empty path leads to the value, which is no scalar
        refine iff_of_false ?_ fun hat => ?_
        · rintro ⟨entry, -, hmem⟩
          obtain ⟨l, -, hl⟩ := List.mem_map.mp hmem
          exact absurd (congrArg Leaf.path hl) (List.cons_ne_nil _ _)
        · rw [Option.some.inj hat] at hleaf
          exact absurd hleaf (by simp [leaf?])
      | cons key path =>
        have hunder : ∀ entry : String × Value,
            (⟨key :: path, s⟩ : Leaf) ∈ entry.2.outline.leaves.map (Leaf.under entry.1)
              ↔ entry.1 = key ∧ ⟨path, s⟩ ∈ entry.2.outline.leaves := by
          intro entry
          rw [List.mem_map]
          constructor
          · rintro ⟨⟨path, s⟩, hl, heq⟩
            obtain ⟨hpath, rfl⟩ := Leaf.mk.inj heq
            obtain ⟨hkey, rfl⟩ := List.cons.inj hpath
            exact ⟨hkey, hl⟩
          · rintro ⟨rfl, hl⟩
            exact ⟨_, hl, rfl⟩
        show _ ↔ ((v.child? key).bind fun w => w.at? path) = _
        rw [Option.bind_eq_some_iff]
        constructor
        · rintro ⟨⟨k, w⟩, hentry, hmem⟩
          obtain ⟨rfl, hl⟩ := (hunder (k, w)).mp hmem
          exact ⟨w, (child?_eq_some_iff hkeys).mpr hentry,
            (ih _ hentry (hkeys.children.2 _ hentry)).mp hl⟩
        · rintro ⟨w, hchild, hat⟩
          have hentry := (child?_eq_some_iff hkeys).mp hchild
          exact ⟨(key, w), hentry, (hunder (key, w)).mpr
            ⟨rfl, (ih _ hentry (hkeys.children.2 _ hentry)).mpr hat⟩⟩

/-- Of two children, the earlier one has the smaller index among the keys. -/
theorem pairwise_idxOf_children (hnodup : v.childKeys.Nodup) :
    v.children.Pairwise fun entry entry' =>
      v.childKeys.idxOf entry.1 < v.childKeys.idxOf entry'.1 ∧ entry'.1 ∈ v.childKeys := by
  have hkeys : v.childKeys.Pairwise fun key key' =>
      v.childKeys.idxOf key < v.childKeys.idxOf key' ∧ key' ∈ v.childKeys := by
    rw [List.pairwise_iff_getElem]
    intro i j hi hj hij
    rw [hnodup.idxOf_getElem, hnodup.idxOf_getElem]
    exact ⟨hij, List.getElem_mem hj⟩
  exact List.pairwise_map.mp hkeys

/-- **The leaves are listed in the order of their paths.** -/
theorem pairwise_precedes_leaves (hkeys : v.KeysDistinct) :
    v.outline.leaves.Pairwise fun l m => v.Precedes l.path m.path := by
  induction v using childInduction with
  | step v ih =>
    rcases v.outline_cases with ⟨t, rfl⟩ | ⟨-, hbranch⟩
    · exact List.pairwise_singleton _ _
    · obtain ⟨hnodup, hbelow⟩ := hkeys.children
      rw [leaves_of_branch hbranch, List.pairwise_flatMap]
      constructor
      · -- two leaves of one child
        intro entry hentry
        have hchild : v.child? entry.1 = some entry.2 := (child?_eq_some_iff hkeys).mpr hentry
        rw [List.pairwise_map]
        exact (ih entry hentry (hbelow entry hentry)).imp fun h => .deeper hchild h
      · -- leaves of two children
        refine (pairwise_idxOf_children hnodup).imp fun {entry entry'} ⟨hlt, hmem⟩ l hl m hm => ?_
        obtain ⟨l, -, rfl⟩ := List.mem_map.mp hl
        obtain ⟨m, -, rfl⟩ := List.mem_map.mp hm
        exact .here hlt hmem

end Value

namespace Tree

/--
**The leaves of a tree are an exact inventory.**

No path is listed twice. A path is listed with a scalar exactly if following it from the root, by
keys in groups and by decimal indices in lists, leads to this scalar. And of two listed leaves the
one that is listed first is the one whose path goes into the earlier entry or item where the two
paths part.
-/
theorem leaves_inventory (tree : Tree) (hkeys : tree.KeysDistinct) :
    (tree.leaves.map Leaf.path).Nodup
    ∧ (∀ path s, ⟨path, s⟩ ∈ tree.leaves ↔ tree.at? path = some (.leaf s))
    ∧ ∀ (i j : Nat) (l m : Leaf), tree.leaves[i]? = some l → tree.leaves[j]? = some m →
        (i < j ↔ tree.toValue.Precedes l.path m.path) := by
  have hpairwise : tree.leaves.Pairwise fun l m => tree.toValue.Precedes l.path m.path :=
    Value.pairwise_precedes_leaves hkeys
  refine ⟨?_, fun path s => Value.mem_leaves_iff hkeys, fun i j l m hl hm =>
    ⟨fun hij => ?_, fun h => ?_⟩⟩
  · rw [List.Nodup, List.pairwise_map]
    exact hpairwise.imp Value.Precedes.ne
  · obtain ⟨hi, rfl⟩ := List.getElem?_eq_some_iff.mp hl
    obtain ⟨hj, rfl⟩ := List.getElem?_eq_some_iff.mp hm
    exact List.pairwise_iff_getElem.mp hpairwise i j hi hj hij
  · obtain ⟨hi, rfl⟩ := List.getElem?_eq_some_iff.mp hl
    obtain ⟨hj, rfl⟩ := List.getElem?_eq_some_iff.mp hm
    rcases Nat.lt_trichotomy i j with hij | rfl | hji
    · exact hij
    · exact absurd rfl h.ne
    · exact absurd (List.pairwise_iff_getElem.mp hpairwise j i hj hi hji) h.asymm

/-- A tree with a group among list items, with a list without items, and with a number for a key. -/
def fontTree : Tree :=
  ⟨[("font", .group
      [("stack", .list [.text "Inter", .group [], .text "serif"]), ("size", .text "2px")]),
    ("empty", .list []), ("0", .leaf .null)]⟩

theorem leaves_inventory_fontTree :
    fontTree.KeysDistinct
    ∧ (fontTree.leaves.map Leaf.path).Nodup
    ∧ fontTree.at? ["font", "stack", "2"] = some (.leaf (.text "serif"))
    ∧ fontTree.toValue.Precedes ["font", "stack", "2"] ["font", "size"] := by
  have hkeys : fontTree.KeysDistinct :=
    ⟨by decide, ⟨by decide, ⟨trivial, ⟨by decide, trivial⟩, trivial, trivial⟩, trivial, trivial⟩,
      trivial, trivial, trivial⟩
  have hserif : fontTree.leaves[1]? = some ⟨["font", "stack", "2"], .text "serif"⟩ := by
    decide +kernel
  have hsize : fontTree.leaves[2]? = some ⟨["font", "size"], .text "2px"⟩ := by decide +kernel
  obtain ⟨hnodup, hlisted, horder⟩ := leaves_inventory fontTree hkeys
  exact ⟨hkeys, hnodup, (hlisted _ _).mp (List.mem_of_getElem? hserif),
    (horder 1 2 _ _ hserif hsize).mp (by decide)⟩

end Tree

end DesignTokens
