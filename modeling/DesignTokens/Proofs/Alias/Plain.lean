import DesignTokens.Proofs.Alias.Resolution

/-!
# Resolving plain texts

A text is plain when the characters of the notation stand in it only as parts of markers and
definitions, and the two do not overlap. Resolution of such a text leaves nothing to resolve.

The reason is that it writes no character of the notation: what goes into a line comes from names
and values of anchors, from names of markers and from the placeholders, and in a plain text all of
these are `Quiet`. So a line that was resolved has no markers, its one ampersand is where it was
before, and the definition there is the one that was there, with another value.
-/

namespace DesignTokens.Alias

open Text

/-- Whether a piece may stand in a plain text: braces and exclamation marks belong to markers, and
the names of markers hold neither exclamation marks nor ampersands. -/
def Segment.Plain : Segment → Prop
  | plain c => c ≠ '!' ∧ c ≠ '{' ∧ c ≠ '}'
  | marker name => '!' ∉ name ∧ '&' ∉ name

instance : DecidablePred Segment.Plain
  | .plain c => inferInstanceAs (Decidable (c ≠ '!' ∧ c ≠ '{' ∧ c ≠ '}'))
  | .marker name => inferInstanceAs (Decidable ('!' ∉ name ∧ '&' ∉ name))

/-- A text whose markers and definitions can be told apart at every character. -/
structure Plain (text : List Char) : Prop where
  /-- Every exclamation mark and every brace lies within a marker with a harmless name. -/
  pieces : ∀ piece ∈ segments text, piece.Plain
  /-- Every ampersand begins a definition. -/
  anchored : ∀ line ∈ lines text, '&' ∈ line →
    ∃ d ∈ Definition.find? line, '&' ∉ d.before ∧ '&' ∉ d.name ∧ '&' ∉ d.rest
  /-- No marker reaches into a definition. -/
  apart : ∀ line ∈ lines text, ∀ d ∈ Definition.find? line,
    d.matched.map Segment.plain <:+ segments line

instance (text : List Char) : Decidable (Plain text) :=
  decidable_of_iff
    ((∀ piece ∈ segments text, piece.Plain)
      ∧ (∀ line ∈ lines text, '&' ∈ line →
          ∃ d ∈ Definition.find? line, '&' ∉ d.before ∧ '&' ∉ d.name ∧ '&' ∉ d.rest)
      ∧ ∀ line ∈ lines text, ∀ d ∈ Definition.find? line,
          d.matched.map Segment.plain <:+ segments line)
    ⟨fun ⟨h₁, h₂, h₃⟩ => ⟨h₁, h₂, h₃⟩, fun ⟨h₁, h₂, h₃⟩ => ⟨h₁, h₂, h₃⟩⟩

/-- A character that begins or ends no marker, no definition and no line. -/
def Quiet (c : Char) : Prop := c ∉ ['!', '{', '}', '&', '\n', '\r']

theorem quiet_iff {c : Char} :
    Quiet c ↔ (c ≠ '!' ∧ c ≠ '{' ∧ c ≠ '}') ∧ c ≠ '&' ∧ isBreak c = false := by
  simp [Quiet, isBreak]
  tauto

theorem Quiet.ne_ampersand {c : Char} (h : Quiet c) : c ≠ '&' := (quiet_iff.mp h).2.1

theorem Quiet.ne_bang {c : Char} (h : Quiet c) : c ≠ '!' := (quiet_iff.mp h).1.1

theorem quiet_of_mem_frame {c : Char} (h : c ∈ Trace.frame) : Quiet c := by
  have hframe : Trace.frame.all (fun c => c ∉ ['!', '{', '}', '&', '\n', '\r']) = true := by
    decide +kernel
  have hc : c ∉ ['!', '{', '}', '&', '\n', '\r'] :=
    of_decide_eq_true (List.all_eq_true.mp hframe c h)
  exact hc

/-! ## The lines of a plain text -/

section Plain

variable {text : List Char}

/-- What a plain text has at a line with a definition. -/
structure Definition.InPlainLine (d : Definition) (line : List Char) : Prop where
  found : Definition.find? line = some d
  line_eq : line = d.before ++ d.matched
  segments_eq : segments line = segments d.before ++ d.matched.map .plain
  before : '&' ∉ d.before
  name : ∀ c ∈ d.name, Quiet c
  rest : ∀ c ∈ d.rest, Quiet c

theorem Plain.line_cases (h : Plain text) {line : List Char} (hline : line ∈ lines text) :
    '&' ∉ line ∨ ∃ d : Definition, d.InPlainLine line := by
  by_cases hamp : '&' ∈ line
  · right
    obtain ⟨d, hd, hbefore, hname, hrest⟩ := h.anchored line hline hamp
    obtain ⟨pieces, hpieces⟩ := h.apart line hline d hd
    have hfound : Definition.find? line = some d := Option.mem_def.mp hd
    have hcut : line = d.before ++ d.matched := by
      rw [← d.line_eq, (Definition.line_of_find? hfound).1]
    have hseg : segments line = segments d.before ++ d.matched.map .plain := by
      have hbef : segments d.before = pieces :=
        @segments_of_append_plain d.before d.matched pieces (by rw [← hcut]; exact hpieces.symm)
      rw [hbef, hpieces]
    -- a character of the definition is a plain piece of the text and no break
    have hquiet : ∀ c ∈ d.matched, c ≠ '&' → Quiet c := by
      intro c hc hne
      have hmem : .plain c ∈ segments line := by
        rw [hseg]; exact List.mem_append_right _ (List.mem_map_of_mem hc)
      have hpiece := h.pieces _ (mem_segments_of_mem_lines hline hmem)
      refine quiet_iff.mpr ⟨hpiece, hne, unbroken_of_mem_lines line hline c ?_⟩
      rw [hcut]
      exact List.mem_append_right _ hc
    refine ⟨d, hfound, hcut, hseg, hbefore, fun c hc => ?_, fun c hc => ?_⟩
    · refine hquiet c ?_ fun heq => hname (heq ▸ hc)
      exact List.mem_append_left _ (List.mem_cons_of_mem _ hc)
    · refine hquiet c ?_ fun heq => hrest (heq ▸ hc)
      exact List.mem_append_right _ (List.mem_cons_of_mem _ hc)
  · exact Or.inl hamp

/-- The anchors of a plain text are made of quiet characters. -/
theorem Plain.quiet_anchor (h : Plain text) {a : Anchor} (ha : a ∈ Anchors.ofText text) {c : Char}
    (hc : c ∈ a.name ∨ c ∈ a.value) : Quiet c := by
  obtain ⟨line, hline, d, hd, rfl⟩ := Anchors.mem_ofText.mp ha
  rcases h.line_cases hline with hamp | ⟨e, he⟩
  · rw [Definition.find?_eq_none hamp] at hd
    exact absurd hd (by simp)
  · obtain rfl : e = d := Option.some.inj (he.found.symm.trans hd)
    rcases hc with hc | hc
    · exact he.name c hc
    · exact he.rest c (mem_of_mem_trimEnd hc)

/-! ## What is written into a plain text is quiet -/

theorem Plain.quiet_trace (h : Plain text) {a : Anchor} (ha : a ∈ Anchors.ofText text) {c : Char}
    (hc : c ∈ ((Anchors.ofText text).trace a).value) : Quiet c := by
  rcases Anchors.mem_trace ha hc with hframe | ⟨b, hb, hmem⟩
  · exact quiet_of_mem_frame hframe
  · exact h.quiet_anchor hb hmem

/-- The name of a marker in a plain text is quiet, and so is what takes the marker's place. -/
theorem Plain.quiet_markerValue (h : Plain text) {name : List Char}
    (hname : .marker name ∈ segments text) {c : Char}
    (hc : c ∈ (Anchors.ofText text).markerValue name) : Quiet c := by
  rcases Anchors.mem_markerValue hc with hframe | hmem | ⟨b, hb, hbc⟩
  · exact quiet_of_mem_frame hframe
  · -- the placeholder repeats the name, which stood in the text
    obtain ⟨hbang, hamp⟩ := h.pieces _ hname
    have hchar := isMarkerNameChar_of_mem_segments hname c hmem
    simp only [isMarkerNameChar, Bool.and_eq_true, Bool.not_eq_true', bne_iff_ne] at hchar
    refine quiet_iff.mpr ⟨⟨fun heq => hbang (heq ▸ hmem), hchar.1.2, hchar.2⟩,
      fun heq => hamp (heq ▸ hmem), ?_⟩
    cases hbreak : Text.isBreak c with
    | false => rfl
    | true => rw [isBlank_of_isBreak hbreak] at hchar; exact absurd hchar.1.1 (by decide)
  · exact h.quiet_anchor hb hbc

/-- A part of a line without ampersands is quiet once its markers are replaced. -/
theorem Plain.quiet_substitute (h : Plain text) {part : List Char}
    (hpieces : ∀ piece ∈ segments part, piece ∈ segments text) (hunbroken : Unbroken part)
    (hamp : '&' ∉ part) {c : Char}
    (hc : c ∈ substitute (Anchors.ofText text).markerValue part) : Quiet c := by
  rcases mem_substitute.mp hc with hplain | ⟨name, hname, hvalue⟩
  · have hmem := mem_of_plain_mem_segments hplain
    exact quiet_iff.mpr ⟨h.pieces _ (hpieces _ hplain), fun heq => hamp (heq ▸ hmem),
      hunbroken c hmem⟩
  · exact h.quiet_markerValue (hpieces _ (mem_markerNames.mp hname)) hvalue

end Plain

/-! ## How a line is resolved -/

namespace Anchors

/-- A line of which each marker has been replaced by the value of its name and the definition, if
there is one, has been settled. -/
def filledLine (anchors : Anchors) (value : List Char → List Char) (line : List Char) :
    List Char :=
  match Definition.find? line with
  | none => substitute value line
  | some d => substitute value d.before ++ '&' :: d.name ++ ' ' :: anchors.settledRest d

end Anchors

section Plain

variable {text : List Char}

theorem Plain.quiet_settledRest (h : Plain text) {line : List Char} (hline : line ∈ lines text)
    {d : Definition} (hd : d.InPlainLine line) {c : Char}
    (hc : c ∈ (Anchors.ofText text).settledRest d) : Quiet c := by
  unfold Anchors.settledRest at hc
  split at hc
  · exact h.quiet_trace (Anchors.mem_ofText.mpr ⟨line, hline, d, hd.found, rfl⟩) hc
  · exact hd.rest c hc

/-- The markers of a line are all before its definition, so the two steps do not meet. -/
theorem Plain.resolveLine_eq (h : Plain text) {line : List Char} (hline : line ∈ lines text) :
    (Anchors.ofText text).resolveLine line
      = (Anchors.ofText text).filledLine (Anchors.ofText text).markerValue line := by
  unfold Anchors.resolveLine Anchors.filledLine
  rcases h.line_cases hline with hamp | ⟨d, hd⟩
  · rw [Definition.find?_eq_none hamp]
    unfold Anchors.settleDefinition
    rw [Definition.find?_eq_none hamp]
  · rw [Anchors.settleDefinition_eq hd.found, hd.found]
    -- no marker begins before the definition and ends in it, and none stands in it
    have hbang : .plain '!' ∉ segments d.before := by
      intro hmem
      have hpiece : .plain '!' ∈ segments line := by
        rw [hd.segments_eq]; exact List.mem_append_left _ hmem
      exact (h.pieces _ (mem_segments_of_mem_lines hline hpiece)).1 rfl
    have hquiet :
        '!' ∉ ((Anchors.ofText text).settled d).matched := by
      intro hmem
      rcases List.mem_append.mp hmem with hmem | hmem
      · rcases List.mem_cons.mp hmem with hmem | hmem
        · exact absurd hmem (by decide)
        · exact (hd.name _ hmem).ne_bang rfl
      · rcases List.mem_cons.mp hmem with hmem | hmem
        · exact absurd hmem (by decide)
        · exact (h.quiet_settledRest hline hd hmem).ne_bang rfl
    rw [substitute_append_plain _ (by rw [segments_append hbang, segments_eq_map_plain hquiet])]
    exact (List.append_assoc _ ('&' :: d.name) (' ' :: _)).symm

/-- Before its definition, a resolved line is quiet. -/
theorem Plain.quiet_before (h : Plain text) {line : List Char} (hline : line ∈ lines text)
    {d : Definition} (hd : d.InPlainLine line) {c : Char}
    (hc : c ∈ substitute (Anchors.ofText text).markerValue d.before) : Quiet c := by
  refine h.quiet_substitute (fun piece hpiece => ?_) (fun e he => ?_) hd.before hc
  · refine mem_segments_of_mem_lines hline ?_
    rw [hd.segments_eq]
    exact List.mem_append_left _ hpiece
  · refine unbroken_of_mem_lines line hline e ?_
    rw [hd.line_eq]
    exact List.mem_append_left _ he

/-- A resolved line is quiet but for the ampersand of its definition. -/
theorem Plain.quiet_filledLine (h : Plain text) {line : List Char} (hline : line ∈ lines text)
    {c : Char} (hc : c ∈ (Anchors.ofText text).filledLine (Anchors.ofText text).markerValue line) :
    Quiet c ∨ c = '&' := by
  unfold Anchors.filledLine at hc
  rcases h.line_cases hline with hamp | ⟨d, hd⟩
  · rw [Definition.find?_eq_none hamp] at hc
    exact Or.inl (h.quiet_substitute (fun _ hpiece => mem_segments_of_mem_lines hline hpiece)
      (unbroken_of_mem_lines line hline) hamp hc)
  · rw [hd.found] at hc
    have hspace : Quiet ' ' := by unfold Quiet; decide
    rcases List.mem_append.mp hc with hc | hc
    · rcases List.mem_append.mp hc with hc | hc
      · exact Or.inl (h.quiet_before hline hd hc)
      · rcases List.mem_cons.mp hc with hc | hc
        · exact Or.inr hc
        · exact Or.inl (hd.name c hc)
    · rcases List.mem_cons.mp hc with hc | hc
      · exact Or.inl (hc ▸ hspace)
      · exact Or.inl (h.quiet_settledRest hline hd hc)

/-- A resolved line defines what it defined before. -/
theorem Plain.find?_filledLine (h : Plain text) {line : List Char} (hline : line ∈ lines text) :
    Definition.find? ((Anchors.ofText text).filledLine (Anchors.ofText text).markerValue line)
      = (Definition.find? line).map fun d =>
          ⟨substitute (Anchors.ofText text).markerValue d.before, d.name,
            (Anchors.ofText text).settledRest d⟩ := by
  unfold Anchors.filledLine
  rcases h.line_cases hline with hamp | ⟨d, hd⟩
  · rw [Definition.find?_eq_none hamp]
    refine Definition.find?_eq_none fun hmem => ?_
    exact (h.quiet_substitute (fun _ hpiece => mem_segments_of_mem_lines hline hpiece)
      (unbroken_of_mem_lines line hline) hamp hmem).ne_ampersand rfl
  · rw [hd.found]
    exact @Definition.find?_eq_some
      ⟨substitute (Anchors.ofText text).markerValue d.before, d.name,
        (Anchors.ofText text).settledRest d⟩
      (fun hmem => (h.quiet_before hline hd hmem).ne_ampersand rfl)
      (Definition.line_of_find? hd.found).2

end Plain

/-! ## Plain texts -/

theorem Plain.resolve_toList {raw : String} (h : Plain raw.toList) :
    (resolve raw).text.toList
      = mapLines ((Anchors.ofText raw.toList).filledLine (Anchors.ofText raw.toList).markerValue)
          raw.toList := by
  rw [text_resolve_toList]
  unfold mapLines
  rw [List.map_congr_left fun line hline => h.resolveLine_eq hline]

theorem Plain.lines_resolve {raw : String} (h : Plain raw.toList) :
    lines (resolve raw).text.toList
      = (lines raw.toList).map
          ((Anchors.ofText raw.toList).filledLine (Anchors.ofText raw.toList).markerValue) := by
  rw [DesignTokens.Alias.lines_resolve]
  exact List.map_congr_left fun line hline => h.resolveLine_eq hline

/-- No marker is left. -/
theorem Plain.markerNames_resolve {raw : String} (h : Plain raw.toList) :
    markerNames (resolve raw).text.toList = [] := by
  refine markerNames_eq_nil fun hmem => ?_
  obtain ⟨line, hline, hbang⟩ := exists_line_of_mem hmem (by decide)
  rw [h.lines_resolve] at hline
  obtain ⟨before, hbefore, rfl⟩ := List.mem_map.mp hline
  rcases h.quiet_filledLine hbefore hbang with hq | hq
  · exact hq.ne_bang rfl
  · exact absurd hq (by decide)

/-- The anchors after resolution are the anchors before it with settled values. -/
theorem Plain.ofText_resolve {raw : String} (h : Plain raw.toList) :
    Anchors.ofText (resolve raw).text.toList
      = (lines raw.toList).filterMap fun line => (Definition.find? line).map fun d =>
          ⟨d.name, trimEnd ((Anchors.ofText raw.toList).settledRest d)⟩ := by
  unfold Anchors.ofText
  rw [h.lines_resolve, List.filterMap_map]
  refine List.filterMap_congr fun line hline => ?_
  show (Definition.find? (Anchors.filledLine _ _ line)).map _ = _
  rw [h.find?_filledLine hline, Option.map_map]
  rfl

/-- No pointer is left. -/
theorem Plain.pointerTarget?_resolve {raw : String} (h : Plain raw.toList) :
    ∀ a ∈ Anchors.ofText (resolve raw).text.toList, pointerTarget? a.value = none := by
  intro a ha
  rw [h.ofText_resolve] at ha
  obtain ⟨line, hline, hmap⟩ := List.mem_filterMap.mp ha
  obtain ⟨d, hd, rfl⟩ := Option.map_eq_some_iff.mp hmap
  exact Anchors.pointerTarget?_settledRest hline hd

/-- The same names are defined in the same order. -/
theorem Plain.names_resolve {raw : String} (h : Plain raw.toList) :
    (Anchors.ofText (resolve raw).text.toList).map Anchor.name
      = (Anchors.ofText raw.toList).map Anchor.name := by
  rw [h.ofText_resolve]
  unfold Anchors.ofText
  rw [List.map_filterMap, List.map_filterMap]
  refine List.filterMap_congr fun line _ => ?_
  rw [Option.map_map, Option.map_map]
  rfl

/--
**A plain text is resolved completely, and only once.**

No marker and no pointer is left, the same names are defined in the same order, every marker has
become the traced value of the last definition of its name without the quotation marks around it,
and resolving the result changes nothing and reports nothing. The trace of a definition is where the
walk through first definitions ends, and one quotation mark is taken off at each end that has one.
-/
theorem resolve_plain {raw : String} (h : Plain raw.toList) :
    markerNames (resolve raw).text.toList = []
    ∧ (∀ a ∈ Anchors.ofText (resolve raw).text.toList, pointerTarget? a.value = none)
    ∧ (Anchors.ofText (resolve raw).text.toList).map Anchor.name
        = (Anchors.ofText raw.toList).map Anchor.name
    ∧ (∀ a ∈ Anchors.ofText raw.toList,
        (Anchors.ofText raw.toList).Ends [a.name] a.value ((Anchors.ofText raw.toList).trace a))
    ∧ (∃ value : List Char → List Char,
        (resolve raw).text.toList
            = mapLines ((Anchors.ofText raw.toList).filledLine value) raw.toList
        ∧ (∀ earlier a later, Anchors.ofText raw.toList = earlier ++ a :: later →
            (∀ b ∈ later, b.name ≠ a.name) →
            value a.name = unquote ((Anchors.ofText raw.toList).trace a).value
            ∧ ∀ inner, value a.name = inner
              ↔ Unquotes ((Anchors.ofText raw.toList).trace a).value inner)
        ∧ ∀ name, (∀ a ∈ Anchors.ofText raw.toList, a.name ≠ name) →
            value name = "CANNOT FIND VALUE FOR ".toList ++ name)
    ∧ (resolve (resolve raw).text).text = (resolve raw).text
    ∧ (resolve (resolve raw).text).diagnostics = [] := by
  refine ⟨h.markerNames_resolve, h.pointerTarget?_resolve, h.names_resolve,
    fun a _ => Anchors.ends_follow _ _ _,
    ⟨(Anchors.ofText raw.toList).markerValue, h.resolve_toList, ?_, ?_⟩,
    resolve_of_nothing_left h.markerNames_resolve h.pointerTarget?_resolve⟩
  · intro earlier a later hsplit hlast
    have hfound : (Anchors.ofText raw.toList).last? a.name = some a := by
      rw [hsplit]; exact Anchors.last?_append_cons hlast
    have hvalue : (Anchors.ofText raw.toList).markerValue a.name
        = unquote ((Anchors.ofText raw.toList).trace a).value := by
      unfold Anchors.markerValue Anchors.markerValue?
      rw [hfound]
      rfl
    refine ⟨hvalue, fun inner => ?_⟩
    rw [hvalue, unquote_eq_iff]
  · intro name hname
    unfold Anchors.markerValue Anchors.markerValue?
    rw [Anchors.last?_eq_none hname]
    rfl

/-- A text with a pointer to a later definition, a name defined twice, a cycle, a pointer to
nothing, and markers of defined and of undefined names. -/
def mixedText : String :=
  "x: !{*b} &a *b\n!{*a}!{*zz} &b \"1\"\r\nloop: &c *c\n&b *nope \n"

theorem resolve_plain_mixedText :
    Plain mixedText.toList
    ∧ (resolve mixedText).text
        = "x: CANNOT FIND VALUE FOR nope &a \"1\"\n1CANNOT FIND VALUE FOR zz &b \"1\"\r\n"
          ++ "loop: &c CYCLIC REFERENCE FOR c -> c\n&b CANNOT FIND VALUE FOR nope\n"
    ∧ markerNames (resolve mixedText).text.toList = []
    ∧ (resolve (resolve mixedText).text).text = (resolve mixedText).text := by
  have h : Plain mixedText.toList := by decide +kernel
  obtain ⟨hmarkers, -, -, -, -, hagain, -⟩ := resolve_plain h
  refine ⟨h, ?_, hmarkers, hagain⟩
  decide +kernel

end DesignTokens.Alias
