import DesignTokens.Proofs.Alias.Passes
import Mathlib.Data.Fin.VecNotation
import Mathlib.Data.List.FinRange

/-!
# The order of lines

Where no name is defined twice, a definition may stand anywhere: the first definition of a name is
also its last one, whatever the order of the lines. So lines that change places are resolved to the
same lines in their new places, and what is reported is reported in another order.

* `ofText_perm`: the same lines in another order define the same anchors in another order;
* `definitionProblems_perm`, `markerProblems_perm`: the same is true of the problems;
* `resolve_permuted`: the two runs compared.
-/

namespace DesignTokens.Alias

open Text

/-- The text of some lines. -/
def textOf {n : Nat} (line : Fin n → String) : String :=
  "\n".intercalate (List.ofFn line)

theorem toList_textOf {n : Nat} (line : Fin n → String) :
    (textOf line).toList = ['\n'].intercalate ((List.ofFn line).map String.toList) :=
  String.toList_intercalate

section Lines

variable {n : Nat} {line : Fin (n + 1) → String} (hline : ∀ i, Unbroken (line i).toList)

include hline

theorem unbroken_of_mem_ofFn : ∀ l ∈ (List.ofFn line).map String.toList, Unbroken l := by
  intro l hl
  obtain ⟨s, hs, rfl⟩ := List.mem_map.mp hl
  obtain ⟨i, rfl⟩ := List.mem_ofFn.mp hs
  exact hline i

theorem lines_textOf : lines (textOf line).toList = (List.ofFn line).map String.toList := by
  rw [toList_textOf]
  exact lines_intercalate (by simp) (unbroken_of_mem_ofFn hline)

/-- A change of the lines of a text, seen through its lines. -/
theorem mapLines_textOf (f : List Char → List Char) :
    mapLines f (textOf line).toList
      = (textOf fun i => String.ofList (f (line i).toList)).toList := by
  rw [toList_textOf, toList_textOf, mapLines_intercalate f (by simp) (unbroken_of_mem_ofFn hline),
    List.map_map, List.map_ofFn, List.map_ofFn]
  congr 2
  funext i
  exact String.toList_ofList.symm

theorem lines_textOf_perm (σ : Equiv.Perm (Fin (n + 1))) :
    (lines (textOf (line ∘ σ)).toList).Perm (lines (textOf line).toList) := by
  have hmoved : ∀ i, Unbroken ((line ∘ σ) i).toList := fun i => hline (σ i)
  rw [lines_textOf hline, lines_textOf hmoved]
  exact (σ.ofFn_comp_perm line).map String.toList

end Lines

/-! ## The same lines in another order -/

namespace Anchors

theorem ofText_perm {text other : List Char} (h : (lines other).Perm (lines text)) :
    (ofText other).Perm (ofText text) :=
  h.filterMap _

variable {text other : List Char} (hlines : (lines other).Perm (lines text))
  (hunique : ((ofText text).map Anchor.name).Nodup)

include hlines hunique

theorem definitionProblems_perm :
    ((ofText other).definitionProblems other).Perm ((ofText text).definitionProblems text) := by
  have hperm := ofText_perm hlines
  unfold definitionProblems
  simp only [trace_of_first?_eq (first?_of_perm hperm hunique)]
  exact hperm.filterMap _

theorem settleDefinition_of_perm :
    (ofText other).settleDefinition = (ofText text).settleDefinition :=
  funext fun _ => settleDefinition_of_agree fun _ _ =>
    trace_of_first?_eq (first?_of_perm (ofText_perm hlines) hunique) _

theorem resolveLine_of_perm : (ofText other).resolveLine = (ofText text).resolveLine := by
  have hperm := ofText_perm hlines
  exact funext fun _ => resolveLine_of_agree
    (fun _ _ => trace_of_first?_eq (first?_of_perm hperm hunique) _)
    fun name _ => congrFun (tableValue?_of_perm hperm hunique) name

theorem markerProblems_perm :
    ((ofText other).markerProblems (mapLines (ofText other).settleDefinition other)).Perm
      ((ofText text).markerProblems (mapLines (ofText text).settleDefinition text)) := by
  unfold markerProblems undefinedMarkers
  rw [settleDefinition_of_perm hlines hunique, last?_of_perm (ofText_perm hlines) hunique,
    markerNames_mapLines, markerNames_mapLines]
  exact ((hlines.flatMap_right _).filter _).map _

end Anchors

/-! ## Two runs -/

/--
**The order of the lines does not matter where every name is defined once.**

Each line is resolved to one line, and to the same one wherever it stands: a marker or a pointer may
come before the definition it names. The reports of the two orders hold the same problems, each as
often in the one as in the other.
-/
theorem resolve_permuted {n : Nat} (line : Fin (n + 1) → String) (σ : Equiv.Perm (Fin (n + 1)))
    (hline : ∀ i, Unbroken (line i).toList)
    (hunique : ((Anchors.scan (textOf line).toList).map Anchor.name).Nodup) :
    (∃ resolved : Fin (n + 1) → String, (∀ i, Unbroken (resolved i).toList)
      ∧ (resolve (textOf line)).text = textOf resolved
      ∧ (resolve (textOf (line ∘ σ))).text = textOf (resolved ∘ σ))
    ∧ (resolve (textOf (line ∘ σ))).diagnostics.Perm (resolve (textOf line)).diagnostics := by
  rw [Anchors.scan_eq_ofText] at hunique
  have hmoved : ∀ i, Unbroken ((line ∘ σ) i).toList := fun i => hline (σ i)
  have hlines := lines_textOf_perm hline σ
  have htext : ∀ raw : String, (resolve raw).text
      = String.ofList (mapLines (Anchors.ofText raw.toList).resolveLine raw.toList) :=
    fun _ => rfl
  refine ⟨⟨fun i => String.ofList ((Anchors.ofText (textOf line).toList).resolveLine
    (line i).toList), fun i => ?_, ?_, ?_⟩, ?_⟩
  · rw [String.toList_ofList]
    refine Anchors.unbroken_resolveLine ?_
    rw [lines_textOf hline]
    exact List.mem_map_of_mem (List.mem_ofFn.mpr ⟨i, rfl⟩)
  · rw [htext, mapLines_textOf hline, String.ofList_toList]
  · rw [htext, Anchors.resolveLine_of_perm hlines hunique, mapLines_textOf hmoved,
      String.ofList_toList]
    rfl
  · rw [diagnostics_resolve_eq, diagnostics_resolve_eq]
    exact (Anchors.definitionProblems_perm hlines hunique).append
      (Anchors.markerProblems_perm hlines hunique)

/-- Lines with a marker and a pointer before what they name, a cycle, and names that nothing
defines. -/
def scatteredLines : Fin 5 → String :=
  ![" x: !{*b}!{*zz}", "b: &b *a ", "a: &a \"4px\"", "loop: &l *l", "&m *no !{*l}"]

theorem resolve_permuted_scatteredLines :
    (∀ i, Unbroken (scatteredLines i).toList)
    ∧ ((Anchors.scan (textOf scatteredLines).toList).map Anchor.name).Nodup
    ∧ (∃ resolved : Fin 5 → String, (∀ i, Unbroken (resolved i).toList)
        ∧ (resolve (textOf scatteredLines)).text = textOf resolved
        ∧ (resolve (textOf (scatteredLines ∘ Fin.revPerm))).text = textOf (resolved ∘ Fin.revPerm))
    ∧ (resolve (textOf (scatteredLines ∘ Fin.revPerm))).diagnostics.Perm
        (resolve (textOf scatteredLines)).diagnostics :=
  have hline : ∀ i, Unbroken (scatteredLines i).toList := by decide +kernel
  have hunique : ((Anchors.scan (textOf scatteredLines).toList).map Anchor.name).Nodup := by
    decide +kernel
  ⟨hline, hunique, resolve_permuted scatteredLines Fin.revPerm hline hunique⟩

end DesignTokens.Alias
