import DesignTokens.Alias.Resolution
import DesignTokens.Proofs.Alias.Marker
import DesignTokens.Proofs.Alias.Trace

/-!
# Texts that resolution leaves alone

A text without markers whose definitions hold no pointers has nothing to resolve: it stays as it is,
and nothing is reported.
-/

namespace DesignTokens.Alias

open Text

/-- The markers of a line are markers of the text. -/
theorem markerNames_of_mem_lines {text line : List Char} (hline : line ∈ lines text)
    (h : markerNames text = []) : markerNames line = [] := by
  rw [List.eq_nil_iff_forall_not_mem] at h ⊢
  exact fun name hname => h name (mem_markerNames_of_mem_lines hline hname)

/-! ## Quotation marks -/

/-- What is left of a text when one quotation mark is taken off at each end that has one, at the
beginning first. -/
def Unquotes (value inner : List Char) : Prop :=
  ∃ opening closing, value = opening ++ inner ++ closing
    ∧ (opening = ['"'] ∨ opening = [] ∧ value.head? ≠ some '"')
    ∧ (closing = ['"'] ∨ closing = [] ∧ inner.getLast? ≠ some '"')

theorem unquotes_unquote (value : List Char) : Unquotes value (unquote value) := by
  unfold Unquotes unquote
  extract_lets opened
  have hopening : ∃ opening, value = opening ++ opened
      ∧ (opening = ['"'] ∨ opening = [] ∧ value.head? ≠ some '"') := by
    dsimp only [opened]
    split
    · exact ⟨['"'], rfl, Or.inl rfl⟩
    · rename_i hne
      refine ⟨[], rfl, Or.inr ⟨rfl, fun hhead => ?_⟩⟩
      obtain ⟨rest, hrest⟩ := List.head?_eq_some_iff.mp hhead
      exact hne rest hrest
  obtain ⟨opening, hvalue, hopen⟩ := hopening
  clear_value opened
  split
  · rename_i rest hrest
    refine ⟨opening, ['"'], ?_, hopen, Or.inl rfl⟩
    rw [hvalue, ← List.reverse_reverse opened, hrest, List.reverse_cons, List.append_assoc]
  · rename_i hne
    refine ⟨opening, [], by rw [List.append_nil, hvalue], hopen, Or.inr ⟨rfl, fun hlast => ?_⟩⟩
    obtain ⟨rest, hrest⟩ := List.getLast?_eq_some_iff.mp hlast
    exact hne rest.reverse (by rw [hrest, List.reverse_append]; rfl)

/-- Only one text is left. -/
theorem Unquotes.unique {value inner other : List Char} (h : Unquotes value inner)
    (hother : Unquotes value other) : inner = other := by
  obtain ⟨opening, closing, hvalue, hopen, hclose⟩ := h
  obtain ⟨opening', closing', hvalue', hopen', hclose'⟩ := hother
  -- the beginning of the text decides whether a mark was taken off there
  have hopening : opening = opening' := by
    rcases hopen with rfl | ⟨rfl, hhead⟩ <;> rcases hopen' with rfl | ⟨rfl, hhead'⟩
    · rfl
    · exact absurd (by rw [hvalue]; rfl) hhead'
    · exact absurd (by rw [hvalue']; rfl) hhead
    · rfl
  have hrest : inner ++ closing = other ++ closing' := by
    rw [hvalue, hopening, List.append_assoc, List.append_assoc] at hvalue'
    exact List.append_cancel_left hvalue'
  rcases hclose with rfl | ⟨rfl, hlast⟩ <;> rcases hclose' with rfl | ⟨rfl, hlast'⟩
  · exact List.append_cancel_right hrest
  · rw [List.append_nil] at hrest
    exact absurd (by rw [← hrest, List.getLast?_concat]) hlast'
  · rw [List.append_nil] at hrest
    exact absurd (by rw [hrest, List.getLast?_concat]) hlast
  · rwa [List.append_nil, List.append_nil] at hrest

theorem unquote_eq_iff {value inner : List Char} :
    unquote value = inner ↔ Unquotes value inner := by
  constructor
  · rintro rfl
    exact unquotes_unquote value
  · exact fun h => (unquotes_unquote value).unique h

theorem mem_unquote {value : List Char} {c : Char} (hc : c ∈ unquote value) : c ∈ value := by
  obtain ⟨opening, closing, h, -, -⟩ := unquotes_unquote value
  rw [h]
  exact List.mem_append_left _ (List.mem_append_right _ hc)

/-! ## Definitions with their traced values -/

namespace Anchors

/-- What a definition holds behind its name after resolution: a pointer has become its traced
value, and anything else is as it was. -/
def settledRest (anchors : Anchors) (d : Definition) : List Char :=
  if (pointerTarget? d.value).isSome then (anchors.trace ⟨d.name, d.value⟩).value else d.rest

/-- A definition after resolution. -/
def settled (anchors : Anchors) (d : Definition) : Definition :=
  { d with rest := anchors.settledRest d }

theorem settleDefinition_eq {anchors : Anchors} {line : List Char} {d : Definition}
    (hd : Definition.find? line = some d) :
    anchors.settleDefinition line = d.before ++ (anchors.settled d).matched := by
  unfold settleDefinition settled settledRest
  rw [hd]
  dsimp only
  split
  · rw [Definition.line_eq]
  · rw [← (Definition.line_of_find? hd).1, Definition.line_eq]

theorem settleDefinition_of_find? {anchors : Anchors} {line : List Char} {d : Definition}
    (hd : Definition.find? line = some d) :
    anchors.settleDefinition line = d.before ++ '&' :: d.name ++ ' ' :: anchors.settledRest d := by
  rw [settleDefinition_eq hd, List.append_assoc]
  rfl

/-- A pointer has become its traced value. -/
theorem settleDefinition_of_pointer {anchors : Anchors} {line : List Char} {d : Definition}
    (hd : Definition.find? line = some d) (hpointer : (pointerTarget? d.value).isSome) :
    anchors.settleDefinition line
      = d.before ++ '&' :: d.name ++ ' ' :: (anchors.trace ⟨d.name, d.value⟩).value := by
  rw [settleDefinition_of_find? hd]
  unfold settledRest
  rw [if_pos hpointer]

theorem settleDefinition_of_find?_eq_none {anchors : Anchors} {line : List Char}
    (hd : Definition.find? line = none) : anchors.settleDefinition line = line := by
  unfold settleDefinition
  rw [hd]

/-- A settled line has the definition of the line, settled. -/
theorem find?_settleDefinition {anchors : Anchors} {line : List Char} {d : Definition}
    (hd : Definition.find? line = some d) :
    Definition.find? (anchors.settleDefinition line) = some (anchors.settled d) := by
  have hfound : Definition.find? d.line = some d := by
    rw [(Definition.line_of_find? hd).1]
    exact hd
  have hsettled : anchors.settleDefinition line = (anchors.settled d).line := by
    rw [settleDefinition_eq hd, Definition.line_eq]
    rfl
  rw [hsettled]
  exact Definition.find?_with_rest hfound _

/-- The definition of a settled line is that of the line, settled. -/
theorem exists_of_find?_settleDefinition {anchors : Anchors} {line : List Char} {s : Definition}
    (hs : Definition.find? (anchors.settleDefinition line) = some s) :
    ∃ d, Definition.find? line = some d ∧ s = anchors.settled d := by
  cases hd : Definition.find? line with
  | none =>
    rw [settleDefinition_of_find?_eq_none hd, hd] at hs
    exact absurd hs (by simp)
  | some d =>
    rw [find?_settleDefinition hd] at hs
    exact ⟨d, rfl, (Option.some.inj hs).symm⟩

/-- The anchors of a text have no blanks at the ends of their values, and so their traces have
none. -/
theorem trimEnd_trace_ofText {text : List Char} {a : Anchor} (ha : a ∈ ofText text) :
    trimEnd ((ofText text).trace a).value = ((ofText text).trace a).value := by
  refine trimEnd_trace (fun b hb => ?_) ha
  obtain ⟨_, _, d, _, rfl⟩ := mem_ofText.mp hb
  exact trimEnd_trimEnd d.rest

/-- A settled value is not a pointer. -/
theorem pointerTarget?_settledRest {text line : List Char} (hline : line ∈ lines text)
    {d : Definition} (hd : Definition.find? line = some d) :
    pointerTarget? (trimEnd ((ofText text).settledRest d)) = none := by
  unfold settledRest
  split
  · rw [trimEnd_trace_ofText (mem_ofText.mpr ⟨line, hline, d, hd, rfl⟩)]
    exact pointerTarget?_trace _ _
  · rename_i hpointer
    exact Option.not_isSome_iff_eq_none.mp hpointer

/-! ## What is written -/

variable {text : List Char}

/-- What is written in the place of a marker is made of the anchors, of the marker's name and of
the placeholders. -/
theorem mem_markerValue {anchors : Anchors} {name : List Char} {c : Char}
    (hc : c ∈ anchors.markerValue name) :
    c ∈ Trace.frame ∨ c ∈ name ∨ ∃ b ∈ anchors, c ∈ b.name ∨ c ∈ b.value := by
  unfold markerValue markerValue? at hc
  cases hlast : anchors.last? name with
  | some a =>
    rw [hlast] at hc
    rcases mem_trace (mem_of_last? hlast) (mem_unquote hc) with h | h
    · exact Or.inl h
    · exact Or.inr (Or.inr h)
  | none =>
    rw [hlast] at hc
    rcases Trace.mem_missingValue hc with h | h
    · exact Or.inl h
    · exact Or.inr (Or.inl h)

/-- The anchors of a text are made of characters of its lines. -/
theorem isBreak_of_mem_ofText {b : Anchor} (hb : b ∈ ofText text) {c : Char}
    (hc : c ∈ b.name ∨ c ∈ b.value) : isBreak c = false := by
  obtain ⟨line, hline, d, hd, rfl⟩ := mem_ofText.mp hb
  refine unbroken_of_mem_lines line hline c ?_
  rw [← (Definition.line_of_find? hd).1]
  rcases hc with hc | hc
  · exact List.mem_append_left _ (List.mem_append_right _ (List.mem_cons_of_mem _ hc))
  · exact List.mem_append_right _ (List.mem_cons_of_mem _ (mem_of_mem_trimEnd hc))

theorem isBreak_of_mem_frame {c : Char} (h : c ∈ Trace.frame) : isBreak c = false := by
  have hframe : Trace.frame.all (fun c => !isBreak c) = true := by decide +kernel
  simpa using List.all_eq_true.mp hframe c h

/-- A settled line is one line. -/
theorem unbroken_settleDefinition {line : List Char} (hline : line ∈ lines text) :
    Unbroken ((ofText text).settleDefinition line) := by
  intro c hc
  unfold settleDefinition at hc
  split at hc
  · exact unbroken_of_mem_lines line hline c hc
  · rename_i d hd
    split at hc
    · rcases List.mem_append.mp hc with hfront | hrest
      · refine unbroken_of_mem_lines line hline c ?_
        rw [← (Definition.line_of_find? hd).1]
        exact List.mem_append_left _ hfront
      · rcases List.mem_cons.mp hrest with rfl | hrest
        · decide
        · have hmem := mem_ofText.mpr ⟨line, hline, d, hd, rfl⟩
          rcases mem_trace hmem hrest with hframe | ⟨b, hb, hbc⟩
          · exact isBreak_of_mem_frame hframe
          · exact isBreak_of_mem_ofText hb hbc
    · exact unbroken_of_mem_lines line hline c hc

/-- **A resolved line is one line.** -/
theorem unbroken_resolveLine {line : List Char} (hline : line ∈ lines text) :
    Unbroken ((ofText text).resolveLine line) := by
  intro c hc
  rcases mem_substitute.mp hc with hplain | ⟨name, hname, hvalue⟩
  · exact unbroken_settleDefinition hline c (mem_of_plain_mem_segments hplain)
  · rcases mem_markerValue hvalue with hframe | hmem | ⟨b, hb, hbc⟩
    · exact isBreak_of_mem_frame hframe
    · -- the placeholder repeats the name, which stood in the line
      have hchar := isMarkerNameChar_of_mem_segments (mem_markerNames.mp hname) c hmem
      cases hbreak : isBreak c with
      | false => rfl
      | true => simp [isMarkerNameChar, isBlank_of_isBreak hbreak] at hchar
    · exact isBreak_of_mem_ofText hb hbc

end Anchors

/-! ## Nothing to resolve -/

namespace Anchors

/-- A line without a pointer keeps its definition. -/
theorem settleDefinition_eq_self {anchors : Anchors} {line : List Char}
    (h : ∀ d, Definition.find? line = some d → pointerTarget? d.value = none) :
    anchors.settleDefinition line = line := by
  unfold settleDefinition
  split
  · rfl
  · rename_i d hd
    rw [h d hd]
    rfl

/-- A line without a marker and without a pointer stays as it is. -/
theorem resolveLine_eq_self {anchors : Anchors} {line : List Char} (hmarkers : markerNames line = [])
    (hpointer : ∀ d, Definition.find? line = some d → pointerTarget? d.value = none) :
    anchors.resolveLine line = line := by
  unfold resolveLine
  rw [settleDefinition_eq_self hpointer]
  exact substitute_eq_self _ hmarkers

theorem trace_of_literal {anchors : Anchors} {a : Anchor} (h : pointerTarget? a.value = none) :
    anchors.trace a = .literal a.value :=
  follow_of_literal h

theorem traces_of_literals {anchors : Anchors}
    (h : ∀ a ∈ anchors, pointerTarget? a.value = none) :
    anchors.traces = anchors.map fun a => .literal a.value :=
  List.map_congr_left fun a ha => trace_of_literal (h a ha)

theorem filterMap_diagnostic?_traces {anchors : Anchors}
    (h : ∀ a ∈ anchors, pointerTarget? a.value = none) :
    anchors.traces.filterMap Trace.diagnostic? = [] := by
  rw [traces_of_literals h, List.filterMap_map]
  exact List.filterMap_eq_nil_iff.mpr fun _ _ => rfl

end Anchors

theorem text_resolve_toList (raw : String) :
    (resolve raw).text.toList = mapLines (Anchors.ofText raw.toList).resolveLine raw.toList :=
  String.toList_ofList

/-- The lines of a resolved text are the resolved lines. -/
theorem lines_resolve (raw : String) :
    lines (resolve raw).text.toList
      = (lines raw.toList).map (Anchors.ofText raw.toList).resolveLine := by
  rw [text_resolve_toList]
  exact lines_mapLines fun line hline => Anchors.unbroken_resolveLine hline

/-- **A text without markers and pointers is resolved.** -/
theorem resolve_of_nothing_left {raw : String} (hmarkers : markerNames raw.toList = [])
    (hpointers : ∀ a ∈ Anchors.ofText raw.toList, pointerTarget? a.value = none) :
    (resolve raw).text = raw ∧ (resolve raw).diagnostics = [] := by
  have hpointer : ∀ line ∈ lines raw.toList, ∀ d, Definition.find? line = some d →
      pointerTarget? d.value = none := fun line hline d hd =>
    hpointers _ (Anchors.mem_ofText.mpr ⟨line, hline, d, hd, rfl⟩)
  refine ⟨?_, ?_⟩
  · rw [← String.toList_inj, text_resolve_toList]
    exact mapLines_eq_self fun line hline =>
      Anchors.resolveLine_eq_self (markerNames_of_mem_lines hline hmarkers) (hpointer line hline)
  · have htraces := Anchors.filterMap_diagnostic?_traces hpointers
    have hnames : (Anchors.ofText raw.toList).undefinedMarkers
        (mapLines (Anchors.ofText raw.toList).settleDefinition raw.toList) = [] := by
      unfold Anchors.undefinedMarkers
      rw [mapLines_eq_self fun line hline =>
        Anchors.settleDefinition_eq_self (hpointer line hline), hmarkers]
      rfl
    show (Anchors.ofText raw.toList).traces.filterMap Trace.diagnostic? ++ List.map _ _ = []
    rw [htraces, hnames]
    rfl

end DesignTokens.Alias
