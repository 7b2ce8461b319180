import DesignTokens.Proofs.Alias.Leftover

/-!
# Resolving twice

What is put in the place of a marker is not searched for markers again. So resolving a second time
changes nothing, unless the first time has pieced a reference together. A line is `Seamless` if this
does not happen in it, and if neither of the two other ways is open in which a pointer can come up:
a value that holds a definition with a pointer, and a definition that is lost, so that the line has
another one.

* `Seamless.markerNames_resolveLine`, `Seamless.pointerTarget?_of_find?`: nothing is left to resolve
  in a seamless line;
* `resolve_resolve`: the second run over a text of seamless lines.
-/

namespace DesignTokens.Alias

open Text

namespace Anchors

variable {anchors : Anchors}

/-- A line in which the values that are put in make nothing new together with what is there. -/
structure Seamless (anchors : Anchors) (line : List Char) : Prop where
  /-- The definition stays one: no marker covers its ampersand, and its name still ends at a
  space. -/
  kept : ∀ d ∈ Definition.find? line, ∃ back ∈ (segments (anchors.settleDefinition line)).tails,
    back.flatMap Segment.text = (anchors.settled d).matched
      ∧ Definition.begins (fill anchors.markerValue back) = true
  /-- No value that is put in holds a definition with a pointer. -/
  value : ∀ name ∈ markerNames (anchors.settleDefinition line),
    ∀ u ∈ (anchors.markerValue name).tails, beginsPointer u = false
  /-- Neither a marker nor a pointer lies across the edge of a value that is put in. -/
  edge : ∀ front back, segments (anchors.settleDefinition line) = front ++ back →
    (front.getLast?.any Segment.isMarker || back.head?.any Segment.isMarker) = true →
    ¬ Straddles (fill anchors.markerValue front) (fill anchors.markerValue back)

instance (line : List Char) : Decidable (Seamless anchors line) :=
  decidable_of_iff
    ((∀ d ∈ Definition.find? line, ∃ back ∈ (segments (anchors.settleDefinition line)).tails,
        back.flatMap Segment.text = (anchors.settled d).matched
          ∧ Definition.begins (fill anchors.markerValue back) = true)
      ∧ (∀ name ∈ markerNames (anchors.settleDefinition line),
          ∀ u ∈ (anchors.markerValue name).tails, beginsPointer u = false)
      ∧ ∀ i < (segments (anchors.settleDefinition line)).length + 1,
          (((segments (anchors.settleDefinition line)).take i).getLast?.any Segment.isMarker
            || ((segments (anchors.settleDefinition line)).drop i).head?.any Segment.isMarker)
              = true →
          ¬ Straddles
            (fill anchors.markerValue ((segments (anchors.settleDefinition line)).take i))
            (fill anchors.markerValue ((segments (anchors.settleDefinition line)).drop i)))
    ⟨fun ⟨hkept, hvalue, hedge⟩ => ⟨hkept, hvalue, fun front back hsplit => by
        have hlength : front.length < (segments (anchors.settleDefinition line)).length + 1 := by
          rw [hsplit, List.length_append]; omega
        have hfront := hedge front.length hlength
        rwa [hsplit, List.take_left, List.drop_left] at hfront⟩,
      fun ⟨hkept, hvalue, hedge⟩ => ⟨hkept, hvalue, fun i _ =>
        hedge _ _ (List.take_append_drop i _).symm⟩⟩

/-- A marker that lies across an edge is a reference that does. -/
theorem straddles_of_beginsMarker {left right : List Char} (h : Across beginsMarker left right) :
    Straddles left right := by
  obtain ⟨u, hu, hne, hboth, hnone⟩ := h
  unfold beginsMarker at hboth hnone
  refine ⟨u, hu, hne, by rw [refers, hboth, Bool.true_or], ?_⟩
  obtain ⟨c, u, rfl⟩ := List.exists_cons_of_ne_nil hne
  obtain ⟨found, hfound⟩ := Option.isSome_iff_exists.mp hboth
  have hc : c = '!' := (List.cons.inj (marker?_eq_some_iff.mp hfound).1).1
  rw [refers, hnone, hc]
  rfl

/-- A pointer that lies across an edge is a reference that does. -/
theorem straddles_of_beginsPointer {left right : List Char}
    (h : Across beginsPointer left right) : Straddles left right := by
  obtain ⟨u, hu, hne, hboth, hnone⟩ := h
  refine ⟨u, hu, hne, by rw [refers, hboth, Bool.or_true], ?_⟩
  obtain ⟨c, u, rfl⟩ := List.exists_cons_of_ne_nil hne
  obtain ⟨name, rest, hcut, -⟩ := beginsPointer_iff.mp hboth
  have hc : c = '&' := (List.cons.inj hcut).1
  rw [refers, hnone, hc, marker?_cons_of_ne (by decide)]
  rfl

namespace Seamless

variable {line : List Char}

/-- Values bring no marker into a seamless line if the anchors hold none. -/
theorem not_broughtIn_marker (h : Seamless anchors line)
    (hvalues : ∀ a ∈ anchors, markerNames a.value = []) :
    ¬ anchors.BroughtIn beginsMarker line := by
  rintro (⟨name, hname, u, hu, hstarts⟩ | ⟨front, back, hsplit, hmarker, hacross⟩)
  · have hnone := markerNames_markerValue hvalues
      (isMarkerNameChar_of_mem_segments (mem_markerNames.mp hname))
    unfold beginsMarker at hstarts
    rw [markerNames_eq_nil_iff.mp hnone u hu] at hstarts
    exact absurd hstarts (by decide)
  · exact h.edge front back hsplit hmarker (straddles_of_beginsMarker hacross)

theorem not_broughtIn_pointer (h : Seamless anchors line) :
    ¬ anchors.BroughtIn beginsPointer line := by
  rintro (⟨name, hname, u, hu, hstarts⟩ | ⟨front, back, hsplit, hmarker, hacross⟩)
  · rw [h.value name hname u ((List.mem_tails _ _).mpr hu)] at hstarts
    exact absurd hstarts (by decide)
  · exact h.edge front back hsplit hmarker (straddles_of_beginsPointer hacross)

/-- **A seamless line keeps no marker.** -/
theorem markerNames_resolveLine (h : Seamless anchors line)
    (hvalues : ∀ a ∈ anchors, markerNames a.value = []) :
    markerNames (anchors.resolveLine line) = [] :=
  markerNames_resolveLine_iff.mpr (h.not_broughtIn_marker hvalues)

/-- **A seamless line keeps no pointer.** -/
theorem pointerTarget?_of_find? {text : List Char} (hline : line ∈ lines text)
    (h : Seamless (ofText text) line) {e : Definition}
    (he : Definition.find? ((ofText text).resolveLine line) = some e) :
    pointerTarget? e.value = none :=
  pointerTarget?_resolveLine hline h.kept h.not_broughtIn_pointer he

end Seamless

end Anchors

/-! ## The resolved text -/

/-- A text has no markers if its lines have none. -/
theorem markerNames_of_lines {text : List Char} (h : ∀ line ∈ lines text, markerNames line = []) :
    markerNames text = [] := by
  rw [markerNames_eq_flatMap_lines, List.flatMap_eq_nil_iff]
  exact h

/--
**Resolving twice is resolving once.**

If no value of an anchor holds a marker, and the values that are put into the lines make nothing new
together with what is there, then nothing is left to resolve.
-/
theorem resolve_resolve {raw : String}
    (hvalues : ∀ a ∈ Anchors.ofText raw.toList, markerNames a.value = [])
    (hlines : ∀ line ∈ lines raw.toList, (Anchors.ofText raw.toList).Seamless line) :
    (resolve (resolve raw).text).text = (resolve raw).text := by
  have hmarkers : markerNames (resolve raw).text.toList = [] := by
    refine markerNames_of_lines fun line hline => ?_
    rw [lines_resolve] at hline
    obtain ⟨before, hbefore, rfl⟩ := List.mem_map.mp hline
    exact (hlines before hbefore).markerNames_resolveLine hvalues
  have hpointers : ∀ a ∈ Anchors.ofText (resolve raw).text.toList,
      pointerTarget? a.value = none := by
    intro a ha
    obtain ⟨line, hline, e, he, rfl⟩ := Anchors.mem_ofText.mp ha
    rw [lines_resolve] at hline
    obtain ⟨before, hbefore, rfl⟩ := List.mem_map.mp hline
    exact (hlines before hbefore).pointerTarget?_of_find? hbefore he
  exact (resolve_of_nothing_left hmarkers hpointers).1

/-- A text with markers beside exclamation marks and braces, in the name of a definition and before
a pointer. -/
def decoratedText : String :=
  "size: &size 4px !important\npad: {a: !{*size}, b: !default}\n!{*size}!{x} &w-!{*zz} *size\n"

theorem resolve_resolve_decoratedText :
    (∀ a ∈ Anchors.ofText decoratedText.toList, markerNames a.value = [])
    ∧ (∀ line ∈ lines decoratedText.toList, (Anchors.ofText decoratedText.toList).Seamless line)
    ∧ (resolve (resolve decoratedText).text).text = (resolve decoratedText).text :=
  have hvalues : ∀ a ∈ Anchors.ofText decoratedText.toList, markerNames a.value = [] := by
    decide +kernel
  have hlines : ∀ line ∈ lines decoratedText.toList,
      (Anchors.ofText decoratedText.toList).Seamless line := by decide +kernel
  ⟨hvalues, hlines, resolve_resolve hvalues hlines⟩

/-- A text with a marker in the name of another. -/
def nestedText : String :=
  "size: &size 4px\npad: !{*!{*size}}\n"

/-- The value of the inner marker becomes the name of a marker. -/
theorem resolve_nestedText :
    (∀ a ∈ Anchors.ofText nestedText.toList, markerNames a.value = [])
    ∧ (resolve nestedText).text = "size: &size 4px\npad: !{*4px}\n"
    ∧ (resolve (resolve nestedText).text).text
        = "size: &size 4px\npad: CANNOT FIND VALUE FOR 4px\n"
    ∧ (resolve (resolve nestedText).text).text ≠ (resolve nestedText).text := by
  decide +kernel

end DesignTokens.Alias
