import DesignTokens.Proofs.Alias.Passes
import DesignTokens.Proofs.Alias.Seam

/-!
# Texts that do not mention each other's names

A text mentions the names that it defines, points at or uses in a marker. These are all the names
that its resolution looks up: the markers that the second pass goes over may be new, because traced
values have been written into the text, but each of them stood in the text before.

* `mem_markerNames_settled`: the markers of the settled text are markers of the text;
* `Anchors.Knows`: a table that gives the mentioned names what the text itself gives them resolves
  the text as its own table does;
* `resolve_append`: texts that do not mention each other's names are resolved side by side.
-/

namespace DesignTokens.Alias

open Text

/-! ## The names that a text mentions -/

/-- A name that a text defines, points at, or uses in a marker. -/
def Mentions (text name : List Char) : Prop :=
  (∃ a ∈ Anchors.scan text, a.name = name ∨ pointerTarget? a.value = some name)
    ∨ name ∈ markerNames text

instance (text name : List Char) : Decidable (Mentions text name) :=
  inferInstanceAs (Decidable ((∃ a ∈ Anchors.scan text,
    a.name = name ∨ pointerTarget? a.value = some name) ∨ name ∈ markerNames text))

theorem mentions_iff {text name : List Char} :
    Mentions text name
      ↔ (∃ a ∈ Anchors.ofText text, a.name = name ∨ pointerTarget? a.value = some name)
          ∨ name ∈ markerNames text := by
  unfold Mentions
  rw [Anchors.scan_eq_ofText]

/-- The markers of an anchor stand in its line. -/
theorem mem_markerNames_of_mem_ofText {text name : List Char} {a : Anchor}
    (ha : a ∈ Anchors.ofText text) (h : name ∈ markerNames a.name ∨ name ∈ markerNames a.value) :
    name ∈ markerNames text := by
  obtain ⟨line, hline, d, hd, rfl⟩ := Anchors.mem_ofText.mp ha
  refine mem_markerNames_of_mem_lines hline ?_
  have hcut : d.before ++ '&' :: d.name ++ ' ' :: d.rest = line := (Definition.line_of_find? hd).1
  rcases h with h | h
  · refine mem_markerNames_of_isInfix ⟨d.before ++ ['&'], ' ' :: d.rest, ?_⟩ h
    rw [← hcut]
    simp only [List.append_assoc, List.singleton_append]
  · have hrest : d.value <:+: d.rest := (List.rdropWhile_prefix isBlank d.rest).isInfix
    refine mem_markerNames_of_isInfix (hrest.trans ?_) h
    refine ⟨d.before ++ '&' :: d.name ++ [' '], [], ?_⟩
    rw [← hcut]
    simp only [List.append_assoc, List.singleton_append, List.append_nil]

/-- **The markers of the settled text are markers of the text.** -/
theorem mem_markerNames_settled {text name : List Char}
    (h : name ∈ markerNames (mapLines (Anchors.ofText text).settleDefinition text)) :
    name ∈ markerNames text := by
  rw [markerNames_mapLines] at h
  obtain ⟨line, hline, h⟩ := List.mem_flatMap.mp h
  cases hd : Definition.find? line with
  | none =>
    rw [Anchors.settleDefinition_of_find?_eq_none hd] at h
    exact mem_markerNames_of_mem_lines hline h
  | some d =>
    have hcut : (d.before ++ '&' :: d.name) ++ ' ' :: d.rest = line :=
      (Definition.line_of_find? hd).1
    rw [Anchors.settleDefinition_of_find? hd, markerNames_append_blank (by decide)] at h
    rcases List.mem_append.mp h with h | h
    · -- what is before the value is as it was
      refine mem_markerNames_of_mem_lines hline ?_
      rw [← hcut, markerNames_append_blank (by decide)]
      exact List.mem_append_left _ h
    · have hmem := Anchors.mem_ofText.mpr ⟨line, hline, d, hd, rfl⟩
      unfold Anchors.settledRest at h
      split at h
      · rcases Anchors.mem_markerNames_trace h with h | h | ⟨b, hb, h⟩
        · exact mem_markerNames_of_mem_ofText hmem (Or.inl h)
        · exact mem_markerNames_of_mem_ofText hmem (Or.inr h)
        · exact mem_markerNames_of_mem_ofText hb (Or.inr h)
      · refine mem_markerNames_of_mem_lines hline ?_
        rw [← hcut, markerNames_append_blank (by decide)]
        exact List.mem_append_right _ h

/-! ## Tables that know what a text mentions -/

namespace Anchors

/-- A table that gives every name a text mentions the definitions that the text gives it. -/
structure Knows (table : Anchors) (text : List Char) : Prop where
  first : ∀ name, Mentions text name → table.first? name = (ofText text).first? name
  last : ∀ name, Mentions text name → table.last? name = (ofText text).last? name

namespace Knows

variable {table : Anchors} {text : List Char} (h : table.Knows text)

include h

theorem trace_eq {a : Anchor} (ha : a ∈ ofText text) : table.trace a = (ofText text).trace a :=
  trace_of_agree (fun b hb target htarget =>
    h.first target (mentions_iff.mpr (Or.inl ⟨b, hb, Or.inr htarget⟩))) ha

theorem tableValue?_eq {name : List Char} (hname : name ∈ markerNames text) :
    table.tableValue? name = (ofText text).tableValue? name := by
  unfold tableValue?
  rw [h.last name (mentions_iff.mpr (Or.inr hname))]
  cases hlast : (ofText text).last? name with
  | none => rfl
  | some a =>
    show some (table.trace a).value = some ((ofText text).trace a).value
    rw [h.trace_eq (mem_of_last? hlast)]

theorem mapLines_settleDefinition_eq :
    mapLines table.settleDefinition text = mapLines (ofText text).settleDefinition text := by
  unfold mapLines
  refine congrArg (joinLines · _) (List.map_congr_left fun line hline => ?_)
  exact settleDefinition_of_agree fun d hd =>
    h.trace_eq (mem_ofText.mpr ⟨line, hline, d, hd, rfl⟩)

/-- A table that knows what a text mentions resolves its lines. -/
theorem mapLines_resolveLine_eq :
    mapLines table.resolveLine text = mapLines (ofText text).resolveLine text := by
  unfold mapLines
  refine congrArg (joinLines · _) (List.map_congr_left fun line hline => ?_)
  refine resolveLine_of_agree
    (fun d hd => h.trace_eq (mem_ofText.mpr ⟨line, hline, d, hd, rfl⟩)) fun name hname => ?_
  refine h.tableValue?_eq (mem_markerNames_settled ?_)
  rw [markerNames_mapLines]
  exact List.mem_flatMap.mpr ⟨line, hline, hname⟩

theorem definitionProblems_eq :
    table.definitionProblems text = (ofText text).definitionProblems text := by
  unfold definitionProblems
  exact List.filterMap_congr fun a ha => by rw [h.trace_eq ha]

theorem markerProblems_eq :
    table.markerProblems (mapLines table.settleDefinition text)
      = (ofText text).markerProblems (mapLines (ofText text).settleDefinition text) := by
  rw [h.mapLines_settleDefinition_eq]
  unfold markerProblems
  rw [undefinedMarkers_of_agree fun name hname => h.tableValue?_eq (mem_markerNames_settled hname)]

end Knows

theorem first?_append (front back : Anchors) (name : List Char) :
    first? (front ++ back) name = (front.first? name).or (back.first? name) := by
  unfold first?
  rw [List.find?_append, Option.map_or]

theorem last?_append (front back : Anchors) (name : List Char) :
    last? (front ++ back) name = (back.last? name).or (front.last? name) := by
  unfold last?
  rw [List.reverse_append, List.find?_append]

theorem first?_eq_none {anchors : Anchors} {name : List Char} (h : ∀ a ∈ anchors, a.name ≠ name) :
    anchors.first? name = none := by
  unfold first?
  rw [Option.map_eq_none_iff, List.find?_eq_none]
  intro a ha
  rw [decide_eq_true_eq]
  exact h a ha

variable {front back : List Char}

/-- A table with more definitions behind those of a text, of other names. -/
theorem knows_front (h : ∀ a ∈ scan back, ¬ Mentions front a.name) :
    Knows (ofText front ++ ofText back) front := by
  rw [scan_eq_ofText] at h
  have hother : ∀ name, Mentions front name → ∀ a ∈ ofText back, a.name ≠ name :=
    fun name hname a ha heq => h a ha (heq ▸ hname)
  refine ⟨fun name hname => ?_, fun name hname => ?_⟩
  · rw [first?_append, first?_eq_none (hother name hname), Option.or_none]
  · rw [last?_append, last?_eq_none (hother name hname), Option.none_or]

/-- A table with more definitions before those of a text, of other names. -/
theorem knows_back (h : ∀ a ∈ scan front, ¬ Mentions back a.name) :
    Knows (ofText front ++ ofText back) back := by
  rw [scan_eq_ofText] at h
  have hother : ∀ name, Mentions back name → ∀ a ∈ ofText front, a.name ≠ name :=
    fun name hname a ha heq => h a ha (heq ▸ hname)
  refine ⟨fun name hname => ?_, fun name hname => ?_⟩
  · rw [first?_append, first?_eq_none (hother name hname), Option.none_or]
  · rw [last?_append, last?_eq_none (hother name hname), Option.or_none]

theorem resolveLine_nil (anchors : Anchors) : anchors.resolveLine [] = [] :=
  resolveLine_eq_self (markerNames_eq_nil List.not_mem_nil) fun d hd => absurd hd (by simp [Definition.find?])

theorem settleDefinition_nil (anchors : Anchors) : anchors.settleDefinition [] = [] :=
  rfl

section Seam

variable (hseam : EndsLine front)

include hseam

theorem ofText_append : ofText (front ++ back) = ofText front ++ ofText back := by
  rw [ofText_eq_flatMap_lines, ofText_eq_flatMap_lines front, ofText_eq_flatMap_lines back]
  exact flatMap_lines_append hseam rfl back

theorem markerProblems_append (anchors : Anchors) :
    anchors.markerProblems (mapLines anchors.settleDefinition (front ++ back))
      = anchors.markerProblems (mapLines anchors.settleDefinition front)
        ++ anchors.markerProblems (mapLines anchors.settleDefinition back) := by
  have hempty : markerNames (anchors.settleDefinition []) = [] := by
    rw [settleDefinition_nil]
    exact markerNames_eq_nil List.not_mem_nil
  have hnames := flatMap_lines_append (g := fun line => markerNames (anchors.settleDefinition line))
    hseam hempty back
  unfold markerProblems undefinedMarkers
  rw [markerNames_mapLines, markerNames_mapLines, markerNames_mapLines, hnames, List.filter_append,
    List.map_append]

end Seam

end Anchors

/-! ## Side by side -/

/--
**Texts that do not mention each other's names are resolved side by side.**

The first of them is empty or ends with a line feed. Then the two together give the text that they
give by themselves, and the report has the problems of the first definitions, those of the second,
and behind these the problems of the markers in the same order.
-/
theorem resolve_append {front back : String} (hseam : front = "" ∨ ∃ body, front = body ++ "\n")
    (hfront : ∀ a ∈ Anchors.scan front.toList, ¬ Mentions back.toList a.name)
    (hback : ∀ a ∈ Anchors.scan back.toList, ¬ Mentions front.toList a.name) :
    (resolve (front ++ back)).text = (resolve front).text ++ (resolve back).text
    ∧ (resolve (front ++ back)).diagnostics
        = (resolve front).definitionProblems ++ (resolve back).definitionProblems
          ++ (resolve front).markerProblems ++ (resolve back).markerProblems := by
  have hends : EndsLine front.toList := by
    rcases hseam with rfl | ⟨body, rfl⟩
    · exact Or.inl rfl
    · exact Or.inr ⟨body.toList, String.toList_append⟩
  have hanchors : Anchors.ofText (front ++ back).toList
      = Anchors.ofText front.toList ++ Anchors.ofText back.toList := by
    rw [String.toList_append, Anchors.ofText_append hends]
  have hknowsFront := Anchors.knows_front hback
  have hknowsBack := Anchors.knows_back hfront
  refine ⟨?_, ?_⟩
  · rw [← String.toList_inj, String.toList_append, text_resolve_toList, text_resolve_toList,
      text_resolve_toList, hanchors, String.toList_append,
      mapLines_append hends (Anchors.resolveLine_nil _), hknowsFront.mapLines_resolveLine_eq,
      hknowsBack.mapLines_resolveLine_eq]
  · have hdefinitions : ∀ table : Anchors,
        table.definitionProblems (front ++ back).toList
          = table.definitionProblems front.toList ++ table.definitionProblems back.toList := by
      intro table
      unfold Anchors.definitionProblems
      rw [hanchors, List.filterMap_append]
    rw [diagnostics_resolve_eq, definitionProblems_resolve, definitionProblems_resolve,
      markerProblems_resolve, markerProblems_resolve, hdefinitions, hanchors, String.toList_append,
      Anchors.markerProblems_append hends, hknowsFront.definitionProblems_eq,
      hknowsBack.definitionProblems_eq, hknowsFront.markerProblems_eq,
      hknowsBack.markerProblems_eq, ← List.append_assoc]

/-- Sizes, with a cycle, a marker before the definition it names, and a name that nothing defines. -/
def sizesText : String :=
  "pad: !{*pad}!{*gone}\nsize: &size 4px\nother: &pad *size \nloop: &loop *loop\n"

/-- Colours, with the same undefined name. -/
def coloursText : String :=
  "ink: &ink *gone\r\npaper: &paper \"#fff\"\nback: !{*paper} !{*ink}"

theorem resolve_append_coloursText :
    (sizesText = "" ∨ ∃ body, sizesText = body ++ "\n")
    ∧ (∀ a ∈ Anchors.scan sizesText.toList, ¬ Mentions coloursText.toList a.name)
    ∧ (∀ a ∈ Anchors.scan coloursText.toList, ¬ Mentions sizesText.toList a.name)
    ∧ (resolve (sizesText ++ coloursText)).text
        = (resolve sizesText).text ++ (resolve coloursText).text
    ∧ (resolve (sizesText ++ coloursText)).diagnostics
        = (resolve sizesText).definitionProblems ++ (resolve coloursText).definitionProblems
          ++ (resolve sizesText).markerProblems ++ (resolve coloursText).markerProblems :=
  have hseam : sizesText = "" ∨ ∃ body, sizesText = body ++ "\n" :=
    Or.inr ⟨"pad: !{*pad}!{*gone}\nsize: &size 4px\nother: &pad *size \nloop: &loop *loop",
      by decide +kernel⟩
  have hsizes : ∀ a ∈ Anchors.scan sizesText.toList, ¬ Mentions coloursText.toList a.name := by
    decide +kernel
  have hcolours : ∀ a ∈ Anchors.scan coloursText.toList, ¬ Mentions sizesText.toList a.name := by
    decide +kernel
  ⟨hseam, hsizes, hcolours, resolve_append hseam hsizes hcolours⟩

end DesignTokens.Alias
