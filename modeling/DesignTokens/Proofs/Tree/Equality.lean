import DesignTokens.Format.Stylesheet
import DesignTokens.Proofs.Tree.Inventory
import DesignTokens.Tree.Equality
import Mathlib.Data.List.Forall2
import Mathlib.Data.List.Perm.Subperm
import Mathlib.Logic.Relation

/-!
# What equality of trees means

Two groups are compared by looking the keys of the first one up in the second one, and by their
sizes. Where keys are distinct this is enough to pair the entries off (`same_group_iff_aligned`), so
that the comparison does not depend on the side it starts from, and the groups differ by the order
of their entries alone.

A reordering (`Value.Reorders`) permutes the entries of one group, anywhere in a value.

* `Value.same_refl`, `Value.same_symm`, `Value.same_trans`: the comparison is an equivalence;
* `Value.same_iff_rearranged`: values are the same if reorderings lead from one to the other;
* `Value.Reorders.perm_leaves`: a reordering permutes the leaves.
-/

namespace DesignTokens

/-- Two scalars of one kind are the same if they are equal, but for floating-point numbers. -/
theorem Scalar.same_iff_eq {s t : Scalar} (h : ∀ x, s ≠ .number (.float x)) :
    s.same t = true ↔ s = t := by
  cases s with
  | number n =>
    cases n with
    | float x => exact absurd rfl (h x)
    | int m =>
      cases t with
      | number n => cases n <;> simp [Scalar.same, Number.same]
      | _ => simp [Scalar.same]
  | _ => cases t <;> simp [Scalar.same]

namespace Value

/-- Whether no number within a value is a floating-point number. -/
def NumbersAreIntegers (v : Value) : Prop :=
  ∀ l ∈ v.outline.leaves, ∀ x, l.scalar ≠ .number (.float x)

/-- Two values differ by the order of the entries of one group, which may lie anywhere in them. -/
inductive Reorders : Value → Value → Prop where
  | entries {es fs : List (String × Value)} : es.Perm fs → Reorders (.group es) (.group fs)
  | entry {before after : List (String × Value)} {key : String} {v w : Value} : Reorders v w →
      Reorders (.group (before ++ (key, v) :: after)) (.group (before ++ (key, w) :: after))
  | item {before after : List Value} {v w : Value} : Reorders v w →
      Reorders (.list (before ++ v :: after)) (.list (before ++ w :: after))

/-- One value is obtained from another by permuting the entries of groups, one after the other. -/
abbrev Rearranged : Value → Value → Prop :=
  Relation.ReflTransGen Reorders

variable {v w u : Value} {es fs : List (String × Value)} {xs ys : List Value}

/-! ## One level of the comparison -/

theorem same_list_iff :
    (list xs).same (list ys) = true ↔ List.Forall₂ (fun x y => x.same y = true) xs ys := by
  show sameItems xs ys = true ↔ _
  induction xs generalizing ys with
  | nil => cases ys <;> simp [sameItems]
  | cons x xs ih =>
    cases ys with
    | nil => simp [sameItems]
    | cons y ys => rw [sameItems, Bool.and_eq_true, ih, List.forall₂_cons]

theorem sameEntries_iff :
    sameEntries es fs = true ↔ ∀ e ∈ es, ∃ w, Table.get? fs e.1 = some w ∧ e.2.same w = true := by
  induction es with
  | nil => simp [sameEntries]
  | cons e es ih =>
    obtain ⟨key, v⟩ := e
    rw [sameEntries, Bool.and_eq_true, ih, List.forall_mem_cons]
    refine and_congr_left fun _ => ?_
    cases Table.get? fs key <;> simp

theorem same_group_iff :
    (group es).same (group fs) = true
      ↔ es.length = fs.length
        ∧ ∀ e ∈ es, ∃ w, Table.get? fs e.1 = some w ∧ e.2.same w = true := by
  show (es.length == fs.length && sameEntries es fs) = true ↔ _
  rw [Bool.and_eq_true, beq_iff_eq, sameEntries_iff]

/-- What is found under a key stands there. -/
theorem mem_of_get? {key : String} (h : Table.get? es key = some v) : (key, v) ∈ es := by
  induction es with
  | nil => exact nomatch h
  | cons e es ih =>
    obtain ⟨k, w⟩ := e
    rw [Table.get?_cons] at h
    split at h
    · rename_i hkey
      rw [hkey, Option.some.inj h]
      exact List.mem_cons_self
    · exact List.mem_cons_of_mem _ (ih h)

/-- Entries with distinct keys that all stand in a table of the same size are its entries. -/
theorem perm_of_forall_mem (hkeys : (Table.keys es).Nodup) (hmem : ∀ e ∈ es, e ∈ fs)
    (hlength : es.length = fs.length) : es.Perm fs :=
  ((List.Nodup.of_map Prod.fst hkeys).subperm hmem).perm_of_length_le (Nat.le_of_eq hlength.symm)

/-- **Entries of groups that are the same can be paired off**: each entry gets the value that is
found under its key, and then there are the same entries on both sides. -/
theorem exists_aligned (hes : (Table.keys es).Nodup) (h : (group es).same (group fs) = true) :
    ∃ found : String × Value → Value, (∀ e ∈ es, e.2.same (found e) = true)
      ∧ (es.map fun e => (e.1, found e)).Perm fs := by
  obtain ⟨hlength, hfound⟩ := same_group_iff.mp h
  choose! found hget hsame using hfound
  refine ⟨found, hsame, perm_of_forall_mem ?_ ?_ (by rw [List.length_map, hlength])⟩
  · unfold Table.keys
    rw [List.map_map]
    exact hes
  · intro g hg
    obtain ⟨e, he, rfl⟩ := List.mem_map.mp hg
    exact mem_of_get? (hget e he)

/-! ## The comparison is an equivalence -/

theorem NumbersAreIntegers.children (h : v.NumbersAreIntegers) :
    ∀ entry ∈ v.children, entry.2.NumbersAreIntegers := by
  intro entry hentry l hl
  rcases v.outline_cases with ⟨s, rfl⟩ | ⟨-, hbranch⟩
  · exact absurd hentry List.not_mem_nil
  · refine h (l.under entry.1) ?_
    rw [leaves_of_branch hbranch]
    exact List.mem_flatMap.mpr ⟨entry, hentry, List.mem_map_of_mem hl⟩

theorem NumbersAreIntegers.scalar {s : Scalar} (h : (leaf s).NumbersAreIntegers) :
    ∀ x, s ≠ .number (.float x) :=
  h ⟨[], s⟩ List.mem_cons_self

/-- What holds of the children of a list holds of its items. -/
theorem forall_mem_of_children_list {p : Value → Prop}
    (h : ∀ entry ∈ (list xs).children, p entry.2) : ∀ item ∈ xs, p item := by
  intro item hitem
  obtain ⟨i, hi⟩ := List.mem_iff_getElem?.mp hitem
  exact h (indexKey i, item) (mem_children_list.mpr ⟨i, rfl, hi⟩)

theorem same_leaf_iff {s : Scalar} (h : (leaf s).NumbersAreIntegers) :
    (leaf s).same v = true ↔ leaf s = v := by
  cases v with
  | leaf t =>
    show s.same t = true ↔ _
    rw [Scalar.same_iff_eq h.scalar, leaf.injEq]
  | group es => exact iff_of_false (fun heq => nomatch heq) (fun heq => nomatch heq)
  | list xs => exact iff_of_false (fun heq => nomatch heq) (fun heq => nomatch heq)

theorem same_refl (hkeys : v.KeysDistinct) (hnumbers : v.NumbersAreIntegers) :
    v.same v = true := by
  induction v using childInduction with
  | step v ih =>
    have hchild : ∀ entry ∈ v.children, entry.2.same entry.2 = true := fun entry hentry =>
      ih entry hentry (hkeys.children.2 entry hentry) (hnumbers.children entry hentry)
    cases v with
    | leaf s => exact (same_leaf_iff hnumbers).mpr rfl
    | group es =>
      exact same_group_iff.mpr ⟨rfl, fun e he =>
        ⟨e.2, (Table.get?_eq_some_iff hkeys.1).mpr he, hchild e he⟩⟩
    | list xs =>
      exact same_list_iff.mpr (List.forall₂_same.mpr (forall_mem_of_children_list hchild))

theorem same_symm (hkeys : v.KeysDistinct) (hnumbers : v.NumbersAreIntegers)
    (h : v.same w = true) : w.same v = true := by
  induction v using childInduction generalizing w with
  | step v ih =>
    have hchild : ∀ entry ∈ v.children, ∀ u, entry.2.same u = true → u.same entry.2 = true :=
      fun entry hentry u => ih entry hentry (hkeys.children.2 entry hentry)
        (hnumbers.children entry hentry)
    cases v with
    | leaf s =>
      obtain rfl := (same_leaf_iff hnumbers).mp h
      exact h
    | group es =>
      cases w with
      | group fs =>
        obtain ⟨found, hsame, hperm⟩ := exists_aligned hkeys.1 h
        refine same_group_iff.mpr ⟨(same_group_iff.mp h).1.symm, fun g hg => ?_⟩
        obtain ⟨e, he, rfl⟩ := List.mem_map.mp (hperm.symm.subset hg)
        exact ⟨e.2, (Table.get?_eq_some_iff hkeys.1).mpr he, hchild e he _ (hsame e he)⟩
      | leaf t => exact nomatch h
      | list ys => exact nomatch h
    | list xs =>
      cases w with
      | list ys =>
        have hitem : ∀ x ∈ xs, ∀ u, x.same u = true → u.same x = true :=
          forall_mem_of_children_list hchild
        have hitems := (List.forall₂_and_left _ _).mpr ⟨hitem, same_list_iff.mp h⟩
        exact same_list_iff.mpr (List.Forall₂.flip (hitems.imp fun x y hxy => hxy.1 y hxy.2))
      | leaf t => exact nomatch h
      | group fs => exact nomatch h

theorem sameItems_trans {zs : List Value}
    (h : ∀ x ∈ xs, ∀ y z, x.same y = true → y.same z = true → x.same z = true)
    (hxy : List.Forall₂ (fun x y => x.same y = true) xs ys)
    (hyz : List.Forall₂ (fun y z => y.same z = true) ys zs) :
    List.Forall₂ (fun x z => x.same z = true) xs zs := by
  induction hxy generalizing zs with
  | nil =>
    cases hyz
    exact .nil
  | cons hhead _ ih =>
    cases hyz with
    | cons hhead' hrest =>
      exact .cons (h _ List.mem_cons_self _ _ hhead hhead')
        (ih (fun x hx => h x (List.mem_cons_of_mem _ hx)) hrest)

theorem same_trans (hnumbers : v.NumbersAreIntegers) (hvw : v.same w = true)
    (hwu : w.same u = true) : v.same u = true := by
  induction v using childInduction generalizing w u with
  | step v ih =>
    have hchild : ∀ entry ∈ v.children, ∀ w u, entry.2.same w = true → w.same u = true →
        entry.2.same u = true :=
      fun entry hentry w u => ih entry hentry (hnumbers.children entry hentry)
    cases v with
    | leaf s =>
      obtain rfl := (same_leaf_iff hnumbers).mp hvw
      exact hwu
    | group es =>
      cases w with
      | group fs =>
        cases u with
        | group gs =>
          obtain ⟨hlength, hfound⟩ := same_group_iff.mp hvw
          obtain ⟨hlength', hfound'⟩ := same_group_iff.mp hwu
          refine same_group_iff.mpr ⟨hlength.trans hlength', fun e he => ?_⟩
          obtain ⟨w, hget, hsame⟩ := hfound e he
          obtain ⟨u, hget', hsame'⟩ := hfound' (e.1, w) (mem_of_get? hget)
          exact ⟨u, hget', hchild e he w u hsame hsame'⟩
        | leaf t => exact nomatch hwu
        | list zs => exact nomatch hwu
      | leaf t => exact nomatch hvw
      | list ys => exact nomatch hvw
    | list xs =>
      cases w with
      | list ys =>
        cases u with
        | list zs =>
          exact same_list_iff.mpr (sameItems_trans (forall_mem_of_children_list hchild)
            (same_list_iff.mp hvw) (same_list_iff.mp hwu))
        | leaf t => exact nomatch hwu
        | group gs => exact nomatch hwu
      | leaf t => exact nomatch hvw
      | group fs => exact nomatch hvw

/-! ## Reorderings -/

theorem leaves_group : (group es).outline.leaves
    = es.flatMap fun entry => entry.2.outline.leaves.map (Leaf.under entry.1) :=
  leaves_of_branch (by rw [outline, outlineEntries_eq_map]; rfl)

theorem leaves_list : (list xs).outline.leaves
    = xs.zipIdx.flatMap fun item => item.1.outline.leaves.map (Leaf.under (indexKey item.2)) := by
  rw [outline, outlineItems_eq_map, Outline.leaves, Outline.leavesOf_eq_flatMap, List.flatMap_map]

/-- **A reordering permutes the leaves**, each with its path. -/
theorem Reorders.perm_leaves (h : Reorders v w) : v.outline.leaves.Perm w.outline.leaves := by
  induction h with
  | entries hperm =>
    rw [leaves_group, leaves_group]
    exact hperm.flatMap_right _
  | entry _ ih =>
    rw [leaves_group, leaves_group, List.flatMap_append, List.flatMap_append, List.flatMap_cons,
      List.flatMap_cons]
    exact ((ih.map _).append_right _).append_left _
  | item _ ih =>
    rw [leaves_list, leaves_list, List.zipIdx_append, List.zipIdx_append, List.flatMap_append,
      List.flatMap_append, List.zipIdx_cons, List.zipIdx_cons, List.flatMap_cons, List.flatMap_cons]
    exact ((ih.map _).append_right _).append_left _

theorem Reorders.numbersAreIntegers (h : Reorders v w) (hv : v.NumbersAreIntegers) :
    w.NumbersAreIntegers :=
  fun l hl => hv l (h.perm_leaves.symm.subset hl)

theorem Reorders.keysDistinct (h : Reorders v w) (hv : v.KeysDistinct) : w.KeysDistinct := by
  induction h with
  | entries hperm =>
    refine ⟨(hperm.map Prod.fst).nodup_iff.mp hv.1, keysDistinctEntries_iff.mpr fun e he => ?_⟩
    exact keysDistinctEntries_iff.mp hv.2 e (hperm.symm.subset he)
  | entry _ ih =>
    obtain ⟨hnodup, hbelow⟩ := hv
    rw [keysDistinctEntries_iff, List.forall_mem_append, List.forall_mem_cons] at hbelow
    refine ⟨?_, keysDistinctEntries_iff.mpr ?_⟩
    · simpa [Table.keys] using hnodup
    · rw [List.forall_mem_append, List.forall_mem_cons]
      exact ⟨hbelow.1, ih hbelow.2.1, hbelow.2.2⟩
  | item _ ih =>
    have hitems := keysDistinctItems_iff.mp hv
    rw [List.forall_mem_append, List.forall_mem_cons] at hitems
    refine keysDistinctItems_iff.mpr ?_
    rw [List.forall_mem_append, List.forall_mem_cons]
    exact ⟨hitems.1, ih hitems.2.1, hitems.2.2⟩

/-- Reordering changes nothing for the comparison. -/
theorem Reorders.same (h : Reorders v w) (hkeys : v.KeysDistinct)
    (hnumbers : v.NumbersAreIntegers) : v.same w = true := by
  have hkeys' := h.keysDistinct hkeys
  induction h with
  | entries hperm =>
    refine same_group_iff.mpr ⟨hperm.length_eq, fun e he => ⟨e.2, ?_, ?_⟩⟩
    · exact (Table.get?_eq_some_iff hkeys'.1).mpr (hperm.subset he)
    · exact same_refl (hkeys.children.2 e he) (hnumbers.children e he)
  | @entry before after key v w _ ih =>
    refine same_group_iff.mpr ⟨by simp, fun e he => ?_⟩
    have hsame : e.2.same e.2 = true := same_refl (hkeys.children.2 e he) (hnumbers.children e he)
    rcases List.mem_append.mp he with hbefore | hbehind
    · exact ⟨e.2, (Table.get?_eq_some_iff hkeys'.1).mpr (List.mem_append_left _ hbefore), hsame⟩
    · rcases List.mem_cons.mp hbehind with rfl | hafter
      · -- the entry that was changed, and by itself the values are the same
        have hmem : (key, w) ∈ before ++ (key, w) :: after := by simp
        exact ⟨w, (Table.get?_eq_some_iff hkeys'.1).mpr hmem,
          ih (hkeys.children.2 _ he) (hnumbers.children _ he) (hkeys'.children.2 _ hmem)⟩
      · exact ⟨e.2, (Table.get?_eq_some_iff hkeys'.1).mpr (by simp [hafter]), hsame⟩
  | @item before after v w _ ih =>
    have hitem : ∀ x ∈ before ++ v :: after, x.KeysDistinct ∧ x.NumbersAreIntegers :=
      forall_mem_of_children_list fun entry hentry =>
        ⟨hkeys.children.2 entry hentry, hnumbers.children entry hentry⟩
    have hitem' : ∀ x ∈ before ++ w :: after, x.KeysDistinct :=
      forall_mem_of_children_list fun entry hentry => hkeys'.children.2 entry hentry
    rw [List.forall_mem_append, List.forall_mem_cons] at hitem hitem'
    have hself : ∀ {xs : List Value}, (∀ x ∈ xs, x.KeysDistinct ∧ x.NumbersAreIntegers) →
        List.Forall₂ (fun x y => x.same y = true) xs xs := fun h =>
      List.forall₂_same.mpr fun x hx => same_refl (h x hx).1 (h x hx).2
    exact same_list_iff.mpr (List.rel_append (hself hitem.1)
      (.cons (ih hitem.2.1.1 hitem.2.1.2 hitem'.2.1) (hself hitem.2.2)))

/-! ## Values are the same exactly if they are rearranged -/

theorem Rearranged.perm_leaves (h : Rearranged v w) : v.outline.leaves.Perm w.outline.leaves := by
  induction h with
  | refl => exact .refl _
  | tail _ hstep ih => exact ih.trans hstep.perm_leaves

theorem Rearranged.same (h : Rearranged v w) (hkeys : v.KeysDistinct)
    (hnumbers : v.NumbersAreIntegers) : v.same w = true := by
  induction h using Relation.ReflTransGen.head_induction_on with
  | refl => exact same_refl hkeys hnumbers
  | head hstep _ ih =>
    exact same_trans hnumbers (hstep.same hkeys hnumbers)
      (ih (hstep.keysDistinct hkeys) (hstep.numbersAreIntegers hnumbers))

/-- If a part can be rearranged where it stands, all parts can, one after the other. -/
theorem rearranged_parts {α : Type} {r : α → α → Prop} {whole : List α → Value} {as bs : List α}
    (hpart : ∀ before after a b, r a b →
      Rearranged (whole (before ++ a :: after)) (whole (before ++ b :: after)))
    (h : List.Forall₂ r as bs) (before : List α) :
    Rearranged (whole (before ++ as)) (whole (before ++ bs)) := by
  induction h generalizing before with
  | nil => exact .refl
  | @cons a b as bs hab _ ih =>
    have hrest := ih (before ++ [b])
    rw [List.append_assoc, List.append_assoc] at hrest
    exact (hpart before as a b hab).trans hrest

theorem rearranged_list (h : List.Forall₂ Rearranged xs ys) : Rearranged (list xs) (list ys) := by
  refine rearranged_parts (fun before after x y hxy => ?_) h []
  exact hxy.lift (fun v => list (before ++ v :: after)) (fun _ _ => .item)

theorem rearranged_group {found : String × Value → Value}
    (h : ∀ e ∈ es, Rearranged e.2 (found e)) :
    Rearranged (group es) (group (es.map fun e => (e.1, found e))) := by
  have hvalues : List.Forall₂ (fun e f => e.1 = f.1 ∧ Rearranged e.2 f.2) es
      (es.map fun e => (e.1, found e)) :=
    List.forall₂_map_right_iff.mpr (List.forall₂_same.mpr fun e he => ⟨rfl, h e he⟩)
  refine rearranged_parts (fun before after e f hef => ?_) hvalues []
  obtain ⟨key, v⟩ := e
  obtain ⟨_, w⟩ := f
  obtain ⟨rfl, hvw⟩ := hef
  exact hvw.lift (fun v => group (before ++ (key, v) :: after)) (fun _ _ => .entry)

theorem rearranged_of_same (hkeys : v.KeysDistinct) (hnumbers : v.NumbersAreIntegers)
    (h : v.same w = true) : Rearranged v w := by
  induction v using childInduction generalizing w with
  | step v ih =>
    have hchild : ∀ entry ∈ v.children, ∀ u, entry.2.same u = true → Rearranged entry.2 u :=
      fun entry hentry u => ih entry hentry (hkeys.children.2 entry hentry)
        (hnumbers.children entry hentry)
    cases v with
    | leaf s =>
      obtain rfl := (same_leaf_iff hnumbers).mp h
      exact .refl
    | group es =>
      cases w with
      | group fs =>
        -- first the values under the keys, then the order of the keys
        obtain ⟨found, hsame, hperm⟩ := exists_aligned hkeys.1 h
        have hvalues := rearranged_group fun e he => hchild e he _ (hsame e he)
        exact hvalues.tail (.entries hperm)
      | leaf t => exact nomatch h
      | list ys => exact nomatch h
    | list xs =>
      cases w with
      | list ys =>
        have hitem : ∀ x ∈ xs, ∀ u, x.same u = true → Rearranged x u :=
          forall_mem_of_children_list hchild
        have hitems := (List.forall₂_and_left _ _).mpr ⟨hitem, same_list_iff.mp h⟩
        exact rearranged_list (hitems.imp fun x y hxy => hxy.1 y hxy.2)
      | leaf t => exact nomatch h
      | group fs => exact nomatch h

/-- **Values are the same exactly if reorderings lead from one to the other.** -/
theorem same_iff_rearranged (hkeys : v.KeysDistinct) (hnumbers : v.NumbersAreIntegers) :
    v.same w = true ↔ Rearranged v w :=
  ⟨rearranged_of_same hkeys hnumbers, fun h => h.same hkeys hnumbers⟩

end Value

namespace Tree

/-- A tree with two leaves. -/
def pairTree : Tree :=
  ⟨[("a", .leaf (.number (.int 1))), ("b", .leaf .null)]⟩

/-- The same tree the other way round. -/
def turnedTree : Tree :=
  ⟨[("b", .leaf .null), ("a", .leaf (.number (.int 1)))]⟩

theorem same_pairTree_turnedTree : pairTree.same turnedTree = true := by
  decide +kernel

/-- The first key shows in the declarations. -/
theorem declarations_pairTree_ne (space : String) :
    Stylesheet.declarations space pairTree ≠ Stylesheet.declarations space turnedTree := by
  have hbegin : ∀ (l : Leaf) (rest : List Leaf), ∃ more,
      Stylesheet.declarationsAfter space none (l :: rest)
        = Stylesheet.stem space ++ ((l.joined "-").toList ++ more) := by
    intro l rest
    rw [Stylesheet.declarationsAfter, Stylesheet.declaration]
    exact ⟨_, by simp only [List.append_assoc, List.nil_append]; rfl⟩
  have hleaves : pairTree.leaves = [⟨["a"], .number (.int 1)⟩, ⟨["b"], .null⟩] := by rfl
  have hleaves' : turnedTree.leaves = [⟨["b"], .null⟩, ⟨["a"], .number (.int 1)⟩] := by rfl
  obtain ⟨more, hpair⟩ := hbegin ⟨["a"], .number (.int 1)⟩ [⟨["b"], .null⟩]
  obtain ⟨more', hturned⟩ := hbegin ⟨["b"], .null⟩ [⟨["a"], .number (.int 1)⟩]
  unfold Stylesheet.declarations
  rw [hleaves, hleaves', hpair, hturned]
  intro h
  have hkeys : 'a' :: more = 'b' :: more' := List.append_cancel_left h
  exact absurd (List.cons.inj hkeys).1 (by decide)

/--
**Equality of trees is equality up to the order of entries.**

On trees whose keys are distinct and whose numbers are integers, the comparison is an equivalence,
and two trees are the same exactly if one is obtained from the other by permuting the entries of
groups, at any depth and without touching the order of list items. Such trees have the same leaves
with the same paths, in some order, but the order of their declarations may differ.
-/
theorem same_up_to_order (s t u : Tree) (hkeys : s.KeysDistinct) (hnumbers : s.NumbersAreIntegers) :
    s.same s = true
    ∧ (s.same t = true → t.same s = true)
    ∧ (s.same t = true → t.same u = true → s.same u = true)
    ∧ (s.same t = true ↔ Value.Rearranged s.toValue t.toValue)
    ∧ (s.same t = true → s.leaves.Perm t.leaves)
    ∧ ∀ space, ∃ s' t' : Tree, s'.KeysDistinct ∧ s'.NumbersAreIntegers ∧ s'.same t' = true
        ∧ Stylesheet.declarations space s' ≠ Stylesheet.declarations space t' := by
  have hnumbers' : s.toValue.NumbersAreIntegers := hnumbers
  refine ⟨Value.same_refl hkeys hnumbers', Value.same_symm hkeys hnumbers',
    Value.same_trans hnumbers', Value.same_iff_rearranged hkeys hnumbers', fun h => ?_,
    fun space => ⟨pairTree, turnedTree, ?_, ?_, same_pairTree_turnedTree,
      declarations_pairTree_ne space⟩⟩
  · exact ((Value.same_iff_rearranged hkeys hnumbers').mp h).perm_leaves
  · exact ⟨by decide, trivial, trivial, trivial⟩
  · intro l hl x hfloat
    have hscalar : l.scalar ∈ [Scalar.number (.int 1), .null] :=
      List.mem_map_of_mem (f := Leaf.scalar) hl
    rw [hfloat] at hscalar
    simp at hscalar

/-- A tree with groups at three depths, of which one is a list item. -/
def nestedTree : Tree :=
  ⟨[("size", .group [("sm", .leaf (.number (.int 1))),
      ("steps", .list [.group [("x", .leaf .null), ("y", .leaf (.bool true))], .text "2px"])]),
    ("z", .text "1px")]⟩

/-- The same tree with each of these groups the other way round. -/
def reversedTree : Tree :=
  ⟨[("z", .text "1px"),
    ("size", .group [
      ("steps", .list [.group [("y", .leaf (.bool true)), ("x", .leaf .null)], .text "2px"]),
      ("sm", .leaf (.number (.int 1)))])]⟩

theorem same_up_to_order_nestedTree :
    nestedTree.KeysDistinct ∧ nestedTree.NumbersAreIntegers
    ∧ nestedTree.same reversedTree = true ∧ reversedTree.same nestedTree = true
    ∧ Value.Rearranged nestedTree.toValue reversedTree.toValue
    ∧ nestedTree.leaves.Perm reversedTree.leaves := by
  have hkeys : nestedTree.KeysDistinct :=
    ⟨by decide, ⟨by decide, trivial, ⟨⟨by decide, trivial, trivial, trivial⟩, trivial, trivial⟩,
      trivial⟩, trivial, trivial⟩
  have hnumbers : nestedTree.NumbersAreIntegers := by
    intro l hl x hfloat
    have hscalar : l.scalar ∈ [Scalar.number (.int 1), .null, .bool true, .text "2px",
        .text "1px"] := List.mem_map_of_mem (f := Leaf.scalar) hl
    rw [hfloat] at hscalar
    simp at hscalar
  have hsame : nestedTree.same reversedTree = true := by decide +kernel
  obtain ⟨-, hsymm, -, hiff, hleaves, -⟩ :=
    same_up_to_order nestedTree reversedTree reversedTree hkeys hnumbers
  exact ⟨hkeys, hnumbers, hsame, hsymm hsame, hiff.mp hsame, hleaves hsame⟩

end Tree

end DesignTokens
