import DesignTokens.Proofs.Alias.Passes
import Mathlib.Data.List.Forall2

/-!
# What the second pass changes

The second pass gives every definition whose value is a pointer its traced value, one value used up
for each definition. It has to find the definitions where the first pass found them, although the
first pass cuts blanks off the values and the second does not, and it leaves a text in which the
same definitions are found again, whatever characters the values have.

* `forall₂_settles_pieces`: piece by piece, the text after the pass is that before it, but for the
  values of pointers;
* `scan_settledText`: the definitions of the text after the pass are those of the text before it,
  with their traced values.

A traced value is no pointer, so nothing is left to trace (`settledText_without_pointers`).
-/

namespace DesignTokens.Alias

open Text

/-- The characters of a piece. -/
def Piece.text : Piece → List Char
  | plain c => [c]
  | definition name rest => '&' :: name ++ ' ' :: rest

/-- What the second pass makes of a piece: a definition whose value is a pointer gets its traced
value, and anything else stays as it is. -/
inductive Piece.Settles (anchors : Anchors) : Piece → Piece → Prop where
  | plain (c : Char) : Settles anchors (.plain c) (.plain c)
  | literal {name rest : List Char} : pointerTarget? rest = none →
      Settles anchors (.definition name rest) (.definition name rest)
  | pointer {name rest : List Char} : (pointerTarget? rest).isSome →
      Settles anchors (.definition name rest)
        (.definition name (anchors.trace ⟨name, trimEnd rest⟩).value)

/-- The traced values of all definitions, in order. -/
def Anchors.tracedValues (anchors : Anchors) : List (List Char) :=
  anchors.traces.map Trace.value

/-- A text after the second pass. -/
def settledText (text : List Char) : List Char :=
  rewritePointers (Anchors.scan text).tracedValues (pieces text)

theorem settledText_eq_mapLines (text : List Char) :
    settledText text = mapLines (Anchors.ofText text).settleDefinition text := by
  unfold settledText Anchors.tracedValues Anchors.traces
  rw [Anchors.scan_eq_ofText, List.map_map, ← rewritePointers_pieces]
  rfl

/-! ## The pieces are the text -/

theorem flatMap_text_linePieces (line : List Char) :
    (linePieces line).flatMap Piece.text = line := by
  have hplain : ∀ run : List Char, (run.map Piece.plain).flatMap Piece.text = run := by
    intro run
    rw [List.flatMap_map]
    exact List.flatMap_singleton' run
  unfold linePieces
  cases hd : Definition.find? line with
  | none => exact hplain line
  | some d =>
    show (d.before.map Piece.plain ++ [Piece.definition d.name d.rest]).flatMap Piece.text = line
    rw [List.flatMap_append, hplain, ← (Definition.line_of_find? hd).1, Definition.line_eq]
    exact congrArg _ (List.append_nil _)

theorem flatMap_text_pieces (text : List Char) : (pieces text).flatMap Piece.text = text := by
  induction text using lineInduction with
  | last line hline => rw [pieces_of_unbroken hline, flatMap_text_linePieces]
  | more line b text hline hb ih =>
    rw [pieces_append_break hline hb, List.flatMap_append, flatMap_text_linePieces,
      List.flatMap_cons, ih]
    rfl

/-! ## The pieces before and after the pass -/

theorem forall₂_settles_map_plain (anchors : Anchors) (run : List Char) :
    List.Forall₂ (Piece.Settles anchors) (run.map .plain) (run.map .plain) := by
  rw [List.forall₂_same]
  intro piece hpiece
  obtain ⟨c, -, rfl⟩ := List.mem_map.mp hpiece
  exact .plain c

/-- **The definition of a line is found in its place when its value has been replaced.** -/
theorem forall₂_settles_linePieces (anchors : Anchors) (line : List Char) :
    List.Forall₂ (Piece.Settles anchors) (linePieces line)
      (linePieces (anchors.settleDefinition line)) := by
  cases hd : Definition.find? line with
  | none =>
    have hpieces : linePieces line = line.map .plain := by rw [linePieces, hd]
    rw [Anchors.settleDefinition_of_find?_eq_none hd, hpieces]
    exact forall₂_settles_map_plain anchors line
  | some d =>
    have hbefore : linePieces line = d.before.map .plain ++ [.definition d.name d.rest] := by
      rw [linePieces, hd]
    have hafter : linePieces (anchors.settleDefinition line)
        = d.before.map .plain ++ [.definition d.name (anchors.settledRest d)] := by
      rw [linePieces, Anchors.find?_settleDefinition hd]
      rfl
    have hsettles : Piece.Settles anchors (.definition d.name d.rest)
        (.definition d.name (anchors.settledRest d)) := by
      unfold Anchors.settledRest
      by_cases hpointer : (pointerTarget? d.value).isSome
      · rw [if_pos hpointer]
        exact .pointer (isSome_pointerTarget?_trimEnd.mp hpointer)
      · -- no pointer without the blanks at the end, and none with them
        rw [if_neg hpointer]
        exact .literal (Option.not_isSome_iff_eq_none.mp fun h =>
          hpointer (isSome_pointerTarget?_trimEnd.mpr h))
    rw [hbefore, hafter]
    exact List.rel_append (forall₂_settles_map_plain anchors d.before) (.cons hsettles .nil)

theorem forall₂_settles_mapLines {anchors : Anchors} {text : List Char}
    (hsettled : ∀ line ∈ lines text, Unbroken (anchors.settleDefinition line)) :
    List.Forall₂ (Piece.Settles anchors) (pieces text)
      (pieces (mapLines anchors.settleDefinition text)) := by
  induction text using lineInduction with
  | last line hline =>
    rw [lines_of_unbroken hline] at hsettled
    rw [mapLines_of_unbroken _ hline, pieces_of_unbroken hline,
      pieces_of_unbroken (hsettled line (List.mem_singleton_self line))]
    exact forall₂_settles_linePieces anchors line
  | more line b text hline hb ih =>
    rw [lines_append_break hline hb] at hsettled
    rw [mapLines_append_break _ hline hb, pieces_append_break hline hb,
      pieces_append_break (hsettled line List.mem_cons_self) hb]
    exact List.rel_append (forall₂_settles_linePieces anchors line)
      (.cons (.plain b) (ih fun l hl => hsettled l (List.mem_cons_of_mem line hl)))

/-- **Piece by piece, only the values of pointers change.** -/
theorem forall₂_settles_pieces (text : List Char) :
    List.Forall₂ (Piece.Settles (Anchors.scan text)) (pieces text) (pieces (settledText text)) := by
  rw [settledText_eq_mapLines, Anchors.scan_eq_ofText]
  exact forall₂_settles_mapLines fun line hline => Anchors.unbroken_settleDefinition hline

/-! ## The definitions before and after the pass -/

theorem filterMap_anchor?_of_settles {anchors : Anchors} {before after : List Piece}
    (h : List.Forall₂ (Piece.Settles anchors) before after)
    (htrim : ∀ a ∈ before.filterMap Piece.anchor?,
      trimEnd (anchors.trace a).value = (anchors.trace a).value) :
    after.filterMap Piece.anchor?
      = (before.filterMap Piece.anchor?).map fun a => ⟨a.name, (anchors.trace a).value⟩ := by
  induction h with
  | nil => rfl
  | cons hpiece _ ih =>
    cases hpiece with
    | plain c => exact ih htrim
    | @literal name rest hliteral =>
      have hvalue : pointerTarget? (trimEnd rest) = none :=
        Option.not_isSome_iff_eq_none.mp fun hpointer => by
          rw [isSome_pointerTarget?_trimEnd, hliteral] at hpointer
          exact absurd hpointer (by decide)
      have htrace : anchors.trace ⟨name, trimEnd rest⟩ = .literal (trimEnd rest) :=
        Anchors.trace_of_literal hvalue
      have hrest := ih fun a ha => htrim a (List.mem_cons_of_mem _ ha)
      show Anchor.mk name (trimEnd rest) :: _ = Anchor.mk name (anchors.trace _).value :: _
      rw [hrest, htrace]
      rfl
    | @pointer name rest _ =>
      have hrest := ih fun a ha => htrim a (List.mem_cons_of_mem _ ha)
      show Anchor.mk name (trimEnd (anchors.trace _).value) :: _
        = Anchor.mk name (anchors.trace _).value :: _
      rw [hrest, htrim _ List.mem_cons_self]

/-- **The definitions of the settled text are those of the text, with their traced values.** -/
theorem scan_settledText (text : List Char) :
    Anchors.scan (settledText text)
      = (Anchors.scan text).map fun a => ⟨a.name, ((Anchors.scan text).trace a).value⟩ := by
  refine filterMap_anchor?_of_settles (forall₂_settles_pieces text) fun a ha => ?_
  have hmem : a ∈ Anchors.scan text := ha
  rw [Anchors.scan_eq_ofText] at hmem ⊢
  exact Anchors.trimEnd_trace_ofText hmem

/-- A traced value holds no pointer, and so no definition of a settled text does. -/
theorem pointerTarget?_of_mem_scan_settledText {text : List Char} :
    ∀ a ∈ Anchors.scan (settledText text), pointerTarget? a.value = none := by
  intro a ha
  rw [scan_settledText] at ha
  obtain ⟨b, -, rfl⟩ := List.mem_map.mp ha
  exact Anchors.pointerTarget?_trace (Anchors.scan text) b

/--
**The second pass removes every pointer and nothing else.**

In the text after the pass the definitions of the text are found again, the same names in the same
order. Each has exactly its traced value, which is no pointer. The texts are equal piece by piece,
but for the values of pointers. Tracing the definitions again gives the same values, and there is
nothing to report.
-/
theorem settledText_without_pointers (raw : String) :
    (resolve raw).text.toList
        = substitute (Anchors.scan raw.toList).markerValue (settledText raw.toList)
    ∧ (Anchors.scan (settledText raw.toList)).map Anchor.name
        = (Anchors.scan raw.toList).map Anchor.name
    ∧ (Anchors.scan (settledText raw.toList)).map Anchor.value
        = (Anchors.scan raw.toList).tracedValues
    ∧ (∀ value ∈ (Anchors.scan raw.toList).tracedValues, pointerTarget? value = none)
    ∧ List.Forall₂ (Piece.Settles (Anchors.scan raw.toList)) (pieces raw.toList)
        (pieces (settledText raw.toList))
    ∧ (pieces raw.toList).flatMap Piece.text = raw.toList
    ∧ (pieces (settledText raw.toList)).flatMap Piece.text = settledText raw.toList
    ∧ (Anchors.scan (settledText raw.toList)).tracedValues
        = (Anchors.scan raw.toList).tracedValues
    ∧ (Anchors.scan (settledText raw.toList)).traces.filterMap Trace.diagnostic? = [] := by
  have hvalues : (Anchors.scan (settledText raw.toList)).map Anchor.value
      = (Anchors.scan raw.toList).tracedValues := by
    rw [scan_settledText, List.map_map, Anchors.tracedValues, Anchors.traces, List.map_map]
    rfl
  refine ⟨text_resolve_eq_passes raw, ?_, hvalues, fun value hvalue => ?_,
    forall₂_settles_pieces raw.toList, flatMap_text_pieces _, flatMap_text_pieces _, ?_,
    Anchors.filterMap_diagnostic?_traces pointerTarget?_of_mem_scan_settledText⟩
  · rw [scan_settledText, List.map_map]
    rfl
  · rw [← hvalues] at hvalue
    obtain ⟨a, ha, rfl⟩ := List.mem_map.mp hvalue
    exact pointerTarget?_of_mem_scan_settledText a ha
  · rw [← hvalues, Anchors.tracedValues,
      Anchors.traces_of_literals pointerTarget?_of_mem_scan_settledText, List.map_map]
    rfl

end DesignTokens.Alias
