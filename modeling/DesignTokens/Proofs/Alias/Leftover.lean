import DesignTokens.Proofs.Alias.Passes
import DesignTokens.Proofs.Alias.Seam

/-!
# What a clean report leaves

Resolution without problems has looked up every name it met and put a literal value in the place of
every reference. It does not look at the values again. So references may be left in the text, but
they were brought in by the values:

* `Anchors.markerNames_resolveLine_iff`: a marker is left in a line exactly if a value that is put in
  holds one, or one lies across the edge of a value;
* `Anchors.pointerTarget?_resolveLine`: a pointer is left in a line only if it was brought in the
  same way, or if the definition of the line was lost;
* `resolved_of_isClean`: the references of the text itself, and these two for its lines.
-/

namespace DesignTokens.Alias

open Text

/-- Whether a text begins with a marker. -/
def beginsMarker (text : List Char) : Bool :=
  (marker? text).isSome

namespace Anchors

variable {anchors : Anchors} {line : List Char}

/-- What values bring into a line: a value holds it, or it lies across the edge of a value. -/
def BroughtIn (anchors : Anchors) (starts : List Char → Bool) (line : List Char) : Prop :=
  (∃ name ∈ markerNames (anchors.settleDefinition line),
    ∃ u, u <:+ anchors.markerValue name ∧ starts u = true)
  ∨ ∃ front back, segments (anchors.settleDefinition line) = front ++ back
      ∧ (front.getLast?.any Segment.isMarker || back.head?.any Segment.isMarker) = true
      ∧ Across starts (fill anchors.markerValue front) (fill anchors.markerValue back)

/-- A definition that is still one when the markers of its line are replaced: no marker covers its
ampersand, and its name still ends at a space. -/
def Kept (anchors : Anchors) (line : List Char) (d : Definition) : Prop :=
  ∃ back ∈ (segments (anchors.settleDefinition line)).tails,
    back.flatMap Segment.text = (anchors.settled d).matched
      ∧ Definition.begins (fill anchors.markerValue back) = true

/-- What values did not bring into a line stood there before, between two markers. -/
theorem exists_run_of_not_broughtIn {starts : List Char → Bool} (hnil : starts [] = false)
    (h : ¬ anchors.BroughtIn starts line) {u : List Char} (hu : u <:+ anchors.resolveLine line)
    (hstarts : starts u = true) :
    ∃ (front : List Segment) (run : List Char) (back : List Segment),
      segments (anchors.settleDefinition line) = front ++ (run.map .plain ++ back)
        ∧ starts run = true ∧ u = run ++ fill anchors.markerValue back := by
  unfold BroughtIn at h
  rw [not_or] at h
  obtain ⟨hvalues, hedges⟩ := h
  unfold resolveLine at hu
  rw [substitute_eq_fill] at hu
  refine exists_run_of_starts hnil (fun name hname w hw => ?_)
    (fun front back hsplit hmarker hacross => hedges ⟨front, back, hsplit, hmarker, hacross⟩)
    hu hstarts
  cases hw' : starts w with
  | false => rfl
  | true => exact absurd ⟨name, mem_markerNames.mpr hname, w, hw, hw'⟩ hvalues

/-! ## Markers -/

/-- What is put in stands in the resolved line. -/
theorem markerValue_isInfix {name : List Char}
    (h : name ∈ markerNames (anchors.settleDefinition line)) :
    anchors.markerValue name <:+: anchors.resolveLine line := by
  obtain ⟨front, back, hsplit⟩ := List.append_of_mem (mem_markerNames.mp h)
  refine ⟨fill anchors.markerValue front, fill anchors.markerValue back, ?_⟩
  unfold resolveLine
  rw [substitute_eq_fill, hsplit, fill_append, fill_cons, List.append_assoc]
  rfl

/-- **A marker is left in a line exactly if values brought one in.** -/
theorem markerNames_resolveLine_iff :
    markerNames (anchors.resolveLine line) = [] ↔ ¬ anchors.BroughtIn beginsMarker line := by
  constructor
  · intro h hbrought
    rw [markerNames_eq_nil_iff] at h
    have hleft : ∃ u, u <:+ anchors.resolveLine line ∧ beginsMarker u = true := by
      rcases hbrought with ⟨name, hname, u, hu, hstarts⟩ | ⟨front, back, hsplit, -, u, hu, -, h, -⟩
      · obtain ⟨before, after, hinfix⟩ := markerValue_isInfix hname
        obtain ⟨more, hmore⟩ := hu
        obtain ⟨found, hfound⟩ := Option.isSome_iff_exists.mp hstarts
        refine ⟨u ++ after, ⟨before ++ more, ?_⟩, ?_⟩
        · rw [← hinfix, ← hmore]
          simp only [List.append_assoc]
        · unfold beginsMarker
          rw [marker?_append hfound]
          rfl
      · obtain ⟨more, hmore⟩ := hu
        refine ⟨u ++ fill anchors.markerValue back, ⟨more, ?_⟩, h⟩
        unfold resolveLine
        rw [substitute_eq_fill, hsplit, fill_append, ← hmore, List.append_assoc]
    obtain ⟨u, hu, hstarts⟩ := hleft
    unfold beginsMarker at hstarts
    rw [h u hu] at hstarts
    exact absurd hstarts (by decide)
  · intro h
    rw [markerNames_eq_nil_iff]
    intro u hu
    rw [← Option.not_isSome_iff_eq_none]
    intro hstarts
    obtain ⟨front, run, back, hsplit, hrun, -⟩ :=
      exists_run_of_not_broughtIn rfl h hu hstarts
    unfold beginsMarker at hrun
    rw [marker?_eq_none_of_run hsplit] at hrun
    exact absurd hrun (by decide)

/-! ## Pointers -/

/-- What begins like a definition in a settled line is part of its definition. -/
theorem exists_of_begins {text : List Char} (htext : text <:+ anchors.settleDefinition line)
    (hbegins : Definition.begins text = true) :
    ∃ d, Definition.find? line = some d
      ∧ text.length ≤ (anchors.settled d).matched.length := by
  obtain ⟨s, hs, hlength⟩ := Definition.exists_find? htext hbegins
  obtain ⟨d, hd, rfl⟩ := exists_of_find?_settleDefinition hs
  exact ⟨d, hd, hlength⟩

/-- A pointer of a resolved line that no value brought in stood in the settled line, from where its
definition is to the end. -/
theorem exists_piece_of_find? (hkept : ∀ d, Definition.find? line = some d → anchors.Kept line d)
    (h : ¬ anchors.BroughtIn beginsPointer line) {e : Definition}
    (he : Definition.find? (anchors.resolveLine line) = some e)
    (htarget : (pointerTarget? e.value).isSome) :
    ∃ d run more, Definition.find? line = some d ∧ beginsPointer run = true
      ∧ run ++ more = (anchors.settled d).matched := by
  obtain ⟨hcut, hname⟩ := Definition.line_of_find? he
  have hsuffix : e.matched <:+ anchors.resolveLine line :=
    ⟨e.before, by rw [← e.line_eq, hcut]⟩
  have hpointer : beginsPointer e.matched = true :=
    beginsPointer_iff.mpr ⟨e.name, e.rest, rfl, hname, isSome_pointerTarget?_trimEnd.mp htarget⟩
  obtain ⟨front, run, back, hsplit, hrun, hmatched⟩ :=
    exists_run_of_not_broughtIn rfl h hsuffix hpointer
  have hpieces : run.map Segment.plain ++ back <:+ segments (anchors.settleDefinition line) :=
    hsplit ▸ List.suffix_append front _
  have htext : (run.map Segment.plain ++ back).flatMap Segment.text
      = run ++ back.flatMap Segment.text := by
    rw [List.flatMap_append, flatMap_text_map_plain]
  have hfill : fill anchors.markerValue (run.map .plain ++ back) = e.matched := by
    rw [fill_append, fill_map_plain, hmatched]
  -- the settled line has a definition there or further to the left
  have hbegins := Definition.begins_append (begins_of_beginsPointer hrun)
    (back.flatMap Segment.text)
  obtain ⟨d, hd, hlength⟩ := exists_of_begins (htext ▸ flatMap_text_suffix hpieces) hbegins
  obtain ⟨kept, hkept, hkeptText, hkeptBegins⟩ := hkept d hd
  have hkept' := (List.mem_tails _ _).mp hkept
  have hwithin : run.map Segment.plain ++ back <:+ kept := by
    refine suffix_of_length_le hpieces hkept' ?_
    rw [htext, hkeptText]
    exact hlength
  -- that definition is still found, so the pointer begins no further to the right
  obtain ⟨f, hf, hleft⟩ := Definition.exists_find? (fill_suffix hkept') hkeptBegins
  obtain rfl := Option.some.inj (hf.symm.trans he)
  have hsame := eq_of_length_fill_le hwithin hkeptText (by decide) (by rw [hfill]; exact hleft)
  exact ⟨d, run, back.flatMap Segment.text, hd, hrun, by rw [← htext, hsame, hkeptText]⟩

/-- **A pointer is left in a line only if values brought one in or the definition was lost.** -/
theorem pointerTarget?_resolveLine {text : List Char} (hline : line ∈ lines text)
    (hkept : ∀ d, Definition.find? line = some d → (ofText text).Kept line d)
    (h : ¬ (ofText text).BroughtIn beginsPointer line) {e : Definition}
    (he : Definition.find? ((ofText text).resolveLine line) = some e) :
    pointerTarget? e.value = none := by
  by_contra hsome
  obtain ⟨d, run, more, hd, hrun, hmatched⟩ :=
    exists_piece_of_find? hkept h he (Option.isSome_iff_ne_none.mpr hsome)
  obtain ⟨name, rest, rfl, hname, htarget⟩ := beginsPointer_iff.mp hrun
  have hcut : Definition.matched ⟨[], name, rest ++ more⟩
      = ((ofText text).settled d).matched := by
    rw [← hmatched]
    simp [Definition.matched]
  have hrest : rest ++ more = (ofText text).settledRest d :=
    (Definition.eq_of_matched_eq hcut hname (Definition.line_of_find? hd).2).2
  have hpointer := isSome_pointerTarget?_trimEnd.mpr (isSome_pointerTarget?_append htarget more)
  rw [hrest, pointerTarget?_settledRest hline hd] at hpointer
  exact absurd hpointer (by simp)

/-- No pointer is left in a line in which no marker is replaced. -/
theorem pointerTarget?_of_no_marker {text : List Char} (hline : line ∈ lines text)
    (hnone : markerNames ((ofText text).settleDefinition line) = []) {e : Definition}
    (he : Definition.find? ((ofText text).resolveLine line) = some e) :
    pointerTarget? e.value = none := by
  unfold resolveLine at he
  rw [substitute_eq_self _ hnone] at he
  obtain ⟨d, hd, rfl⟩ := exists_of_find?_settleDefinition he
  exact pointerTarget?_settledRest hline hd

/-! ## Clean reports -/

/-- A trace without a problem ends at a literal value. -/
theorem exists_walk_of_diagnostic?_eq_none {a : Anchor}
    (h : (anchors.trace a).diagnostic? = none) :
    ∃ names value, Walk anchors a.value names value ∧ pointerTarget? value = none
      ∧ anchors.trace a = .literal value := by
  have hends := ends_follow anchors [a.name] a.value
  unfold trace at h ⊢
  generalize anchors.follow [a.name] a.value = t at hends h ⊢
  cases hends with
  | literal hwalk _ _ hlast => exact ⟨_, _, hwalk, hlast, rfl⟩
  | missing => exact absurd h (by simp [Trace.diagnostic?])
  | cycle => exact absurd h (by simp [Trace.diagnostic?])

end Anchors

/-- A clean report has no problem of a definition and none of a marker. -/
theorem isClean_iff {raw : String} :
    (resolve raw).isClean = true
      ↔ (∀ a ∈ Anchors.ofText raw.toList,
          ((Anchors.ofText raw.toList).trace a).diagnostic? = none)
        ∧ ∀ name ∈ markerNames
            (mapLines (Anchors.ofText raw.toList).settleDefinition raw.toList),
          ((Anchors.ofText raw.toList).last? name).isSome := by
  unfold Resolution.isClean
  rw [List.isEmpty_iff, diagnostics_resolve_eq, List.append_eq_nil_iff]
  unfold Anchors.definitionProblems Anchors.markerProblems Anchors.undefinedMarkers
  rw [List.filterMap_eq_nil_iff, List.map_eq_nil_iff, List.filter_eq_nil_iff]
  refine and_congr Iff.rfl (forall₂_congr fun name _ => ?_)
  cases (Anchors.ofText raw.toList).last? name <;> simp

/--
**A clean report means that every reference of the text was resolved.**

Every pointer has become the literal value that its walk through first definitions leads to, and
every marker the one that the last definition of its name leads to, without the quotation marks
around it. What is left in a line was brought in by the values: a marker is left exactly if a value
holds one or one lies across the edge of a value, and a pointer only in a line in which a marker was
replaced, for the same two reasons or because the definition that stood there is none any more.
-/
theorem resolved_of_isClean {raw : String} (h : (resolve raw).isClean = true) :
    (∀ line ∈ lines raw.toList, ∀ d, Definition.find? line = some d →
        (pointerTarget? d.value).isSome →
        ∃ names value, (Anchors.ofText raw.toList).Walk d.value names value
          ∧ pointerTarget? value = none
          ∧ (Anchors.ofText raw.toList).settleDefinition line
              = d.before ++ '&' :: d.name ++ ' ' :: value)
    ∧ (∀ name ∈ markerNames (mapLines (Anchors.ofText raw.toList).settleDefinition raw.toList),
        ∃ a names value, (Anchors.ofText raw.toList).last? name = some a
          ∧ (Anchors.ofText raw.toList).Walk a.value names value ∧ pointerTarget? value = none
          ∧ (Anchors.ofText raw.toList).markerValue name = unquote value)
    ∧ (resolve raw).text.toList
        = substitute (Anchors.ofText raw.toList).markerValue
            (mapLines (Anchors.ofText raw.toList).settleDefinition raw.toList)
    ∧ lines (resolve raw).text.toList
        = (lines raw.toList).map (Anchors.ofText raw.toList).resolveLine
    ∧ (∀ line ∈ lines raw.toList,
        markerNames ((Anchors.ofText raw.toList).resolveLine line) ≠ []
          ↔ (Anchors.ofText raw.toList).BroughtIn beginsMarker line)
    ∧ ∀ line ∈ lines raw.toList, ∀ e,
        Definition.find? ((Anchors.ofText raw.toList).resolveLine line) = some e →
        (pointerTarget? e.value).isSome →
        markerNames ((Anchors.ofText raw.toList).settleDefinition line) ≠ []
          ∧ ((Anchors.ofText raw.toList).BroughtIn beginsPointer line
            ∨ ∃ d, Definition.find? line = some d
              ∧ ¬ (Anchors.ofText raw.toList).Kept line d) := by
  obtain ⟨hdefinitions, hmarkers⟩ := isClean_iff.mp h
  refine ⟨?_, ?_, ?_, lines_resolve raw, ?_, ?_⟩
  · intro line hline d hd hpointer
    obtain ⟨names, value, hwalk, hlast, htrace⟩ := Anchors.exists_walk_of_diagnostic?_eq_none
      (hdefinitions _ (Anchors.mem_ofText.mpr ⟨line, hline, d, hd, rfl⟩))
    refine ⟨names, value, hwalk, hlast, ?_⟩
    rw [Anchors.settleDefinition_of_pointer hd hpointer, htrace]
    rfl
  · intro name hname
    obtain ⟨a, ha⟩ := Option.isSome_iff_exists.mp (hmarkers name hname)
    obtain ⟨names, value, hwalk, hlast, htrace⟩ :=
      Anchors.exists_walk_of_diagnostic?_eq_none (hdefinitions a (Anchors.mem_of_last? ha))
    refine ⟨a, names, value, ha, hwalk, hlast, ?_⟩
    unfold Anchors.markerValue Anchors.markerValue?
    rw [ha, Option.map_some, Option.getD_some, htrace]
    rfl
  · rw [text_resolve_toList, substitute_mapLines]
    rfl
  · intro line _
    rw [ne_eq, Anchors.markerNames_resolveLine_iff, not_not]
  · intro line hline e he hpointer
    refine ⟨fun hnone => ?_, ?_⟩
    · rw [Anchors.pointerTarget?_of_no_marker hline hnone he] at hpointer
      exact absurd hpointer (by simp)
    · by_contra hnot
      rw [not_or, not_exists] at hnot
      obtain ⟨hbrought, hlost⟩ := hnot
      have hkept : ∀ d, Definition.find? line = some d →
          (Anchors.ofText raw.toList).Kept line d := fun d hd => by
        by_contra hkept
        exact hlost d ⟨hd, hkept⟩
      rw [Anchors.pointerTarget?_resolveLine hline hkept hbrought he] at hpointer
      exact absurd hpointer (by simp)

/-- A text with markers and a pointer before what they name, and a quoted value. -/
def linkedText : String :=
  "x: !{*pad} solid\nbase: &base \"4px\" \npad: &pad *base # twice\n!{*base} &ink *pad"

theorem resolved_of_isClean_linkedText :
    (resolve linkedText).isClean = true
    ∧ (∀ line ∈ lines linkedText.toList, ∀ d, Definition.find? line = some d →
        (pointerTarget? d.value).isSome →
        ∃ names value, (Anchors.ofText linkedText.toList).Walk d.value names value
          ∧ pointerTarget? value = none
          ∧ (Anchors.ofText linkedText.toList).settleDefinition line
              = d.before ++ '&' :: d.name ++ ' ' :: value)
    ∧ ∀ name ∈ markerNames
          (mapLines (Anchors.ofText linkedText.toList).settleDefinition linkedText.toList),
        ∃ a names value, (Anchors.ofText linkedText.toList).last? name = some a
          ∧ (Anchors.ofText linkedText.toList).Walk a.value names value
          ∧ pointerTarget? value = none
          ∧ (Anchors.ofText linkedText.toList).markerValue name = unquote value :=
  have h : (resolve linkedText).isClean = true := by decide +kernel
  ⟨h, (resolved_of_isClean h).1, (resolved_of_isClean h).2.1⟩

/-- A text in which the value of `a` is a marker and that of `p` a quoted pointer. -/
def chainedText : String :=
  "b: &b 4px\na: &a !{*b}\np: &p \"*b\"\nx: !{*a}\ny: &y !{*p}\n"

/-- The values bring in a marker and a pointer, and nothing is reported. -/
theorem resolve_chainedText :
    (resolve chainedText).isClean = true
    ∧ (resolve chainedText).text
        = "b: &b 4px\na: &a 4px\np: &p \"*b\"\nx: !{*b}\ny: &y *b\n"
    ∧ markerNames (resolve chainedText).text.toList = ["b".toList]
    ∧ ⟨"y".toList, "*b".toList⟩ ∈ Anchors.ofText (resolve chainedText).text.toList
    ∧ pointerTarget? "*b".toList = some "b".toList := by
  decide +kernel

end DesignTokens.Alias
