import DesignTokens.Path
import Mathlib.Data.List.Lex
import Mathlib.Data.Prod.Lex
import Mathlib.Data.String.Basic

/-!
# The order of paths

Paths are compared by their components, and components by their kind before their text. So the order
of paths is that of lists of pairs, where the first difference decides (`le_iff`), and it is linear
up to different spellings of the same components. Sorting paths that differ in a component leaves
them strictly increasing (`pairwise_mergeSort_le`).
-/

namespace DesignTokens.Path

/-- What a component is compared by: its kind, and then its text. -/
def Component.sortKey (c : Component) : Nat ×ₗ String :=
  toLex (c.rank, c.text)

/-- What a path is compared by. -/
def sortKey (p : Path) : List (Nat ×ₗ String) :=
  p.components.map Component.sortKey

/-- Kind and text make a component. -/
theorem Component.sortKey_injective : Function.Injective Component.sortKey := by
  intro a b h
  obtain ⟨hrank, htext⟩ := Prod.mk.inj (toLex_inj.mp h)
  cases a <;> cases b <;> simp_all [rank, text]

theorem Component.le_iff {a b : Component} : a.le b = true ↔ a.sortKey ≤ b.sortKey := by
  unfold Component.le sortKey
  rw [Prod.Lex.toLex_le_toLex]
  split
  · rename_i hrank
    simp [hrank]
  · rename_i hrank
    simp [hrank]

/-- The first difference decides. -/
theorem sortKeys_cons_le_cons {a b : Component} {as bs : List (Nat ×ₗ String)} :
    a.sortKey :: as ≤ b.sortKey :: bs ↔ if a = b then as ≤ bs else a.sortKey ≤ b.sortKey := by
  have hlt : b.sortKey :: bs < a.sortKey :: as
      ↔ b.sortKey < a.sortKey ∨ b.sortKey = a.sortKey ∧ bs < as := List.cons_lt_cons_iff
  rw [← not_lt, hlt, not_or, not_and, not_lt, not_lt]
  by_cases hab : a = b
  · subst hab
    rw [if_pos rfl]
    exact ⟨fun h => h.2 rfl, fun h => ⟨le_rfl, fun _ => h⟩⟩
  · have hkey : b.sortKey ≠ a.sortKey := fun h => hab (Component.sortKey_injective h).symm
    rw [if_neg hab]
    exact and_iff_left fun h => absurd h hkey

theorem componentsLe_iff {as bs : List Component} :
    componentsLe as bs = true ↔ as.map Component.sortKey ≤ bs.map Component.sortKey := by
  induction as generalizing bs with
  | nil => exact iff_of_true rfl (not_lt.mp (List.not_lt_nil _))
  | cons a as ih =>
    cases bs with
    | nil => exact iff_of_false (by simp [componentsLe]) (not_le.mpr List.Lex.nil)
    | cons b bs =>
      rw [componentsLe, List.map_cons, List.map_cons, sortKeys_cons_le_cons]
      split
      · exact ih
      · exact Component.le_iff

/-- **Paths are compared by kinds and texts of their components.** -/
theorem le_iff {p q : Path} : p.le q = true ↔ p.sortKey ≤ q.sortKey :=
  componentsLe_iff

theorem sortKey_inj {p q : Path} : p.sortKey = q.sortKey ↔ p.components = q.components :=
  (List.map_injective_iff.mpr Component.sortKey_injective).eq_iff

theorem le_trans {p q r : Path} (hpq : p.le q = true) (hqr : q.le r = true) : p.le r = true :=
  le_iff.mpr ((le_iff.mp hpq).trans (le_iff.mp hqr))

theorem le_total (p q : Path) : (p.le q || q.le p) = true := by
  rw [Bool.or_eq_true, le_iff, le_iff]
  exact LinearOrder.le_total _ _

/-- **Sorted paths are strictly increasing, if no two of them have the same components.** -/
theorem pairwise_mergeSort_le {paths : List Path}
    (h : paths.Pairwise fun p q => p.components ≠ q.components) :
    (paths.mergeSort le).Pairwise fun p q => p.sortKey < q.sortKey := by
  have hle : (paths.mergeSort le).Pairwise fun p q => p.le q = true :=
    @List.pairwise_mergeSort Path le (fun _ _ _ => le_trans) le_total paths
  have hne : (paths.mergeSort le).Pairwise fun p q => p.components ≠ q.components :=
    h.perm (List.mergeSort_perm paths le).symm Ne.symm
  refine List.Pairwise.imp₂ (fun p q hpq hdiff => ?_) hle hne
  exact lt_of_le_of_ne (le_iff.mp hpq) fun h => hdiff (sortKey_inj.mp h)

end DesignTokens.Path
