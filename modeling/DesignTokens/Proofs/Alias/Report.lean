import DesignTokens.Proofs.Alias.Resolution
import DesignTokens.Proofs.Text.Occurrence

/-!
# Every failure is reported and seen

A problem of a definition or of a marker is one entry of the report, and it leaves a placeholder in
the text. The placeholders are written in two steps, and the second step runs over what the first
one wrote. Nothing is lost there, because a placeholder begins with words and spaces, while a marker
has neither a space in it nor a beginning among letters:

* `occurs_substitute`: a text with undefined markers gets their placeholders;
* `occurs_resolveLine`: a line gets one placeholder for each of its problems;
* `diagnostics_resolve`: the report and the placeholders of a whole text.
-/

namespace DesignTokens.Alias

open Text

/-- How the placeholder of a problem begins. -/
def Diagnostic.opening : Diagnostic → List Char
  | unresolvedAlias _ => "CANNOT FIND VALUE FOR ".toList
  | cyclicAnchorChain _ => "CYCLIC REFERENCE FOR ".toList

theorem Diagnostic.bang_notMem_opening (d : Diagnostic) : '!' ∉ d.opening := by
  cases d with
  | unresolvedAlias name =>
    show '!' ∉ "CANNOT FIND VALUE FOR ".toList
    decide +kernel
  | cyclicAnchorChain chain =>
    show '!' ∉ "CYCLIC REFERENCE FOR ".toList
    decide +kernel

/-- A trace that reports a problem writes its placeholder. -/
theorem Trace.value_of_diagnostic? {t : Trace} {d : Diagnostic} (h : t.diagnostic? = some d) :
    ∃ names, t.value = d.opening ++ names := by
  cases t with
  | literal v => exact absurd h (by simp [Trace.diagnostic?])
  | missing name => rw [← Option.some.inj h]; exact ⟨name, rfl⟩
  | cycle chain => rw [← Option.some.inj h]; exact ⟨_, rfl⟩

/-! ## The problems of a line -/

namespace Anchors

variable (anchors : Anchors)

/-- The problems of the markers of a text. -/
def markerProblems (text : List Char) : List Diagnostic :=
  (anchors.undefinedMarkers text).map fun name => .unresolvedAlias (String.ofList name)

/-- The problems of the definitions of a text. -/
def definitionProblems (text : List Char) : List Diagnostic :=
  (ofText text).filterMap fun a => (anchors.trace a).diagnostic?

theorem markerProblems_append_blank {b : Char} (hb : isBlank b = true) (text rest : List Char) :
    anchors.markerProblems (text ++ b :: rest)
      = anchors.markerProblems text ++ anchors.markerProblems rest := by
  unfold markerProblems undefinedMarkers
  rw [markerNames_append_blank hb, List.filter_append, List.map_append]

theorem markerProblems_append_of_notMem {text : List Char} (h : '!' ∉ text) (rest : List Char) :
    anchors.markerProblems (text ++ rest) = anchors.markerProblems rest := by
  unfold markerProblems undefinedMarkers
  rw [markerNames_append_of_notMem h]

/-- How many of some problems have placeholders with a given beginning. -/
def countOf (opening : List Char) (problems : List Diagnostic) : Nat :=
  problems.countP fun d => d.opening = opening

theorem countOf_append (opening : List Char) (problems more : List Diagnostic) :
    countOf opening (problems ++ more) = countOf opening problems + countOf opening more :=
  List.countP_append

theorem countP_eq_countOf {p : Diagnostic → Bool} {opening : List Char}
    (h : ∀ d, p d = true ↔ d.opening = opening) (problems : List Diagnostic) :
    problems.countP p = countOf opening problems :=
  List.countP_congr fun d _ => (h d).trans decide_eq_true_iff.symm

/-- **Every undefined marker of a text leaves its placeholder.** -/
theorem occurs_substitute (opening text : List Char) :
    Occurs opening (countOf opening (anchors.markerProblems text))
      (substitute anchors.markerValue text) := by
  induction text using segments.induct with
  | case1 text name rest h ih =>
    have hnames : markerNames text = name :: markerNames rest := by
      unfold markerNames
      rw [segments_of_marker h]
      rfl
    rw [substitute_of_marker _ h]
    cases hlast : anchors.last? name with
    | some a =>
      have hskip : anchors.markerProblems text = anchors.markerProblems rest := by
        simp [markerProblems, undefinedMarkers, hnames, hlast]
      rw [hskip]
      exact ih.append_left _
    | none =>
      have hmore : anchors.markerProblems text
          = [.unresolvedAlias (String.ofList name)] ++ anchors.markerProblems rest := by
        simp [markerProblems, undefinedMarkers, hnames, hlast]
      have hvalue : anchors.markerValue name = Trace.missingValue name := by
        simp [markerValue, markerValue?, hlast]
      rw [hmore, countOf_append, hvalue]
      refine Occurs.append ?_ ih
      -- the placeholder counts if it is of the kind that is counted
      by_cases ho : (Diagnostic.unresolvedAlias (String.ofList name)).opening = opening
      · have hone : countOf opening [.unresolvedAlias (String.ofList name)] = 1 := by
          simp [countOf, ho]
        rw [hone, ← ho]
        exact Occurs.self_append name
      · have hzero : countOf opening [.unresolvedAlias (String.ofList name)] = 0 := by
          simp [countOf, ho]
        rw [hzero]
        exact .none _
  | case2 h =>
    have hnone : anchors.markerProblems [] = [] := by
      simp [markerProblems, undefinedMarkers, markerNames]
    rw [hnone]
    exact .none _
  | case3 c text h ih =>
    have hskip : anchors.markerProblems (c :: text) = anchors.markerProblems text := by
      have hnames : markerNames (c :: text) = markerNames text := by
        unfold markerNames
        rw [segments_cons h]
        rfl
      unfold markerProblems undefinedMarkers
      rw [hnames]
    rw [substitute_cons _ h, hskip]
    exact ih.append_left [c]

/-- A definition that reports a problem is a pointer, and its line gets the placeholder. -/
theorem settleDefinition_of_problem {line : List Char} {d : Definition} {problem : Diagnostic}
    (hd : Definition.find? line = some d)
    (hproblem : (anchors.trace ⟨d.name, d.value⟩).diagnostic? = some problem) :
    ∃ names, anchors.settleDefinition line
      = d.before ++ '&' :: d.name ++ ' ' :: (problem.opening ++ names) := by
  obtain ⟨names, hvalue⟩ := Trace.value_of_diagnostic? hproblem
  have hpointer : (pointerTarget? d.value).isSome := by
    cases htarget : pointerTarget? d.value with
    | some target => rfl
    | none =>
      rw [trace_of_literal htarget] at hproblem
      exact absurd hproblem (by simp [Trace.diagnostic?])
  refine ⟨names, ?_⟩
  rw [settleDefinition_of_pointer hd hpointer, hvalue]

/-- **A line gets a placeholder for each of its problems**, that of its definition and those of the
markers it has when the definition has its traced value. -/
theorem occurs_resolveLine (opening : List Char) {line : List Char} (hline : Unbroken line) :
    Occurs opening (countOf opening (anchors.definitionProblems line)
        + countOf opening (anchors.markerProblems (anchors.settleDefinition line)))
      (anchors.resolveLine line) := by
  have hmarkers := anchors.occurs_substitute opening (anchors.settleDefinition line)
  unfold definitionProblems
  rw [ofText_of_unbroken hline]
  cases hd : Definition.find? line with
  | none =>
    show Occurs opening (0 + _) _
    rw [Nat.zero_add]
    exact hmarkers
  | some d =>
    cases hproblem : (anchors.trace ⟨d.name, d.value⟩).diagnostic? with
    | none =>
      have hnone : ([⟨d.name, d.value⟩] : Anchors).filterMap
          (fun a => (anchors.trace a).diagnostic?) = [] := by
        simp [hproblem]
      show Occurs opening (countOf opening (([⟨d.name, d.value⟩] : Anchors).filterMap _) + _) _
      rw [hnone]
      show Occurs opening (0 + _) _
      rw [Nat.zero_add]
      exact hmarkers
    | some problem =>
      have hone : ([⟨d.name, d.value⟩] : Anchors).filterMap
          (fun a => (anchors.trace a).diagnostic?) = [problem] := by
        simp [hproblem]
      show Occurs opening (countOf opening (([⟨d.name, d.value⟩] : Anchors).filterMap _) + _) _
      rw [hone]
      by_cases ho : problem.opening = opening
      · -- the placeholder stands between the markers before it and those behind it
        obtain ⟨names, hsettle⟩ := anchors.settleDefinition_of_problem hd hproblem
        have hbang := problem.bang_notMem_opening
        have hcount : countOf opening [problem] = 1 := by simp [countOf, ho]
        unfold resolveLine
        rw [hsettle, substitute_append_blank _ (by decide), substitute_append_of_notMem _ hbang,
          anchors.markerProblems_append_blank (by decide),
          anchors.markerProblems_append_of_notMem hbang, countOf_append, hcount, ho,
          Nat.add_left_comm]
        refine Occurs.append (anchors.occurs_substitute opening _) ?_
        rw [Nat.add_comm]
        exact .next [' '] (anchors.occurs_substitute opening names)
      · have hzero : countOf opening [problem] = 0 := by simp [countOf, ho]
        rw [hzero, Nat.zero_add]
        exact hmarkers

/-- The same for all lines of a text. -/
theorem occurs_mapLines (opening text : List Char) :
    Occurs opening (countOf opening (anchors.definitionProblems text
        ++ anchors.markerProblems (mapLines anchors.settleDefinition text)))
      (mapLines anchors.resolveLine text) := by
  rw [countOf_append]
  induction text using lineInduction with
  | last line hline =>
    rw [mapLines_of_unbroken _ hline, mapLines_of_unbroken _ hline]
    exact anchors.occurs_resolveLine opening hline
  | more line b text hline hb ih =>
    have hdefs : anchors.definitionProblems (line ++ b :: text)
        = anchors.definitionProblems line ++ anchors.definitionProblems text := by
      unfold definitionProblems
      rw [ofText_append_break hline hb, List.filterMap_append]
    rw [mapLines_append_break _ hline hb, mapLines_append_break _ hline hb, hdefs,
      anchors.markerProblems_append_blank (isBlank_of_isBreak hb), countOf_append, countOf_append]
    have hhere := anchors.occurs_resolveLine opening hline
    have hboth := hhere.append (ih.append_left [b])
    rwa [Nat.add_add_add_comm] at hboth

/-- What is written and reported for a definition is what the end of its walk has for it. -/
theorem entry_of_ends {anchors : Anchors} {a : Anchor} {t : Trace}
    (h : anchors.Ends [a.name] a.value t) :
    (anchors.trace a).value = t.value ∧ (anchors.trace a).diagnostic? = t.diagnostic? := by
  have htrace : anchors.trace a = t := follow_eq_iff_ends.mpr h
  rw [htrace]
  exact ⟨rfl, rfl⟩

theorem isNone_last?_iff {name : List Char} :
    (anchors.last? name).isNone ↔ ∀ a ∈ anchors, a.name ≠ name := by
  constructor
  · intro h a ha hname
    rw [Option.isNone_iff_eq_none, last?, List.find?_eq_none] at h
    exact h a (List.mem_reverse.mpr ha) (decide_eq_true hname)
  · intro h
    rw [last?_eq_none h]
    rfl

end Anchors

/-! ## The report of a text -/

/-- Whether a problem is that of a name that nothing defines. -/
def Diagnostic.isUnresolved : Diagnostic → Bool
  | unresolvedAlias _ => true
  | cyclicAnchorChain _ => false

theorem Diagnostic.openings_ne :
    "CANNOT FIND VALUE FOR ".toList ≠ "CYCLIC REFERENCE FOR ".toList := by
  decide +kernel

/-- The two kinds of problems are told apart by their placeholders. -/
theorem Diagnostic.isUnresolved_iff (d : Diagnostic) :
    (d.isUnresolved = true ↔ d.opening = "CANNOT FIND VALUE FOR ".toList)
    ∧ ((!d.isUnresolved) = true ↔ d.opening = "CYCLIC REFERENCE FOR ".toList) := by
  cases d with
  | unresolvedAlias name =>
    exact ⟨iff_of_true rfl rfl, iff_of_false Bool.false_ne_true openings_ne⟩
  | cyclicAnchorChain chain =>
    exact ⟨iff_of_false Bool.false_ne_true openings_ne.symm, iff_of_true rfl rfl⟩

theorem definitionProblems_resolve (raw : String) :
    (resolve raw).definitionProblems
      = (Anchors.ofText raw.toList).definitionProblems raw.toList := by
  show List.filterMap _ (List.map _ _) = _
  rw [List.filterMap_map]
  rfl

/-- The problems of the markers that a text has when its pointers have their traced values. -/
theorem markerProblems_resolve (raw : String) :
    (resolve raw).markerProblems
      = (Anchors.ofText raw.toList).markerProblems
          (mapLines (Anchors.ofText raw.toList).settleDefinition raw.toList) :=
  rfl

theorem diagnostics_resolve_eq (raw : String) :
    (resolve raw).diagnostics
      = (Anchors.ofText raw.toList).definitionProblems raw.toList
        ++ (Anchors.ofText raw.toList).markerProblems
            (mapLines (Anchors.ofText raw.toList).settleDefinition raw.toList) := by
  unfold Resolution.diagnostics
  rw [definitionProblems_resolve, markerProblems_resolve]

/--
**No failure is silent.**

The report of a text has one entry for each definition whose walk through first definitions does not
end at a value, in the order of the definitions. Which entry that is follows from where the walk
ends: at a name that nothing defines, or at a name met before. Behind these entries there is one for
each marker whose name nothing defines, in the order of the markers that the text has when its
pointers have their traced values; a line without a pointer is then as it was. Each entry has its
placeholder in the resolved text, and no two of the placeholders overlap.
-/
theorem diagnostics_resolve (raw : String) :
    (resolve raw).diagnostics
        = (Anchors.ofText raw.toList).filterMap
            (fun a => ((Anchors.ofText raw.toList).trace a).diagnostic?)
          ++ ((markerNames (mapLines (Anchors.ofText raw.toList).settleDefinition raw.toList)).filter
              fun name => ∀ a ∈ Anchors.ofText raw.toList, a.name ≠ name).map
            (fun name => .unresolvedAlias (String.ofList name))
    ∧ (∀ a ∈ Anchors.ofText raw.toList,
        (∀ t, (Anchors.ofText raw.toList).trace a = t
          ↔ (Anchors.ofText raw.toList).Ends [a.name] a.value t)
        ∧ (∀ value, (Anchors.ofText raw.toList).Ends [a.name] a.value (.literal value) →
            ((Anchors.ofText raw.toList).trace a).value = value
            ∧ ((Anchors.ofText raw.toList).trace a).diagnostic? = none)
        ∧ (∀ target, (Anchors.ofText raw.toList).Ends [a.name] a.value (.missing target) →
            ((Anchors.ofText raw.toList).trace a).value = "CANNOT FIND VALUE FOR ".toList ++ target
            ∧ ((Anchors.ofText raw.toList).trace a).diagnostic?
                = some (.unresolvedAlias (String.ofList target)))
        ∧ ∀ chain, (Anchors.ofText raw.toList).Ends [a.name] a.value (.cycle chain) →
            ((Anchors.ofText raw.toList).trace a).value
                = "CYCLIC REFERENCE FOR ".toList ++ " -> ".toList.intercalate chain
            ∧ ((Anchors.ofText raw.toList).trace a).diagnostic?
                = some (.cyclicAnchorChain (chain.map String.ofList)))
    ∧ (∀ line ∈ lines raw.toList,
        ((∀ d, Definition.find? line = some d → pointerTarget? d.value = none) →
          (Anchors.ofText raw.toList).settleDefinition line = line)
        ∧ ∀ d, Definition.find? line = some d → (pointerTarget? d.value).isSome →
          (Anchors.ofText raw.toList).settleDefinition line
            = d.before ++ '&' :: d.name ++ ' '
                :: ((Anchors.ofText raw.toList).trace ⟨d.name, d.value⟩).value)
    ∧ Occurs "CANNOT FIND VALUE FOR ".toList
        ((resolve raw).diagnostics.countP Diagnostic.isUnresolved) (resolve raw).text.toList
    ∧ Occurs "CYCLIC REFERENCE FOR ".toList
        ((resolve raw).diagnostics.countP fun d => !d.isUnresolved) (resolve raw).text.toList := by
  have hreport := diagnostics_resolve_eq raw
  have hoccurs : ∀ opening : List Char,
      Occurs opening (Anchors.countOf opening (resolve raw).diagnostics)
        (resolve raw).text.toList := by
    intro opening
    rw [hreport, text_resolve_toList]
    exact Anchors.occurs_mapLines _ opening _
  refine ⟨?_, ?_, ?_, ?_, ?_⟩
  · rw [hreport]
    refine congrArg _ (congrArg _ (List.filter_congr fun name _ => ?_))
    rw [Bool.eq_iff_iff, Anchors.isNone_last?_iff, decide_eq_true_iff]
  · intro a _
    exact ⟨fun t => Anchors.follow_eq_iff_ends, fun value h => Anchors.entry_of_ends h,
      fun target h => Anchors.entry_of_ends h, fun chain h => Anchors.entry_of_ends h⟩
  · intro line _
    exact ⟨Anchors.settleDefinition_eq_self,
      fun d hd hpointer => Anchors.settleDefinition_of_pointer hd hpointer⟩
  -- the two kinds of entries are counted by their placeholders
  · rw [Anchors.countP_eq_countOf fun d => d.isUnresolved_iff.1]
    exact hoccurs _
  · rw [Anchors.countP_eq_countOf fun d => d.isUnresolved_iff.2]
    exact hoccurs _

/-- A text with a cycle of two definitions, a pointer to nothing, a literal value with a pointer to
it, and a marker that nothing defines before one that is defined. -/
def failingText : String :=
  "a: &a *b\nb: &b *a\nx: &x *y\nsize: &size 4px\npad: &pad *size\nm: !{*zz} !{*size}\n"

theorem ofText_failingText :
    Anchors.ofText failingText.toList
      = [⟨"a".toList, "*b".toList⟩, ⟨"b".toList, "*a".toList⟩, ⟨"x".toList, "*y".toList⟩,
        ⟨"size".toList, "4px".toList⟩, ⟨"pad".toList, "*size".toList⟩] := by
  decide +kernel

/-- Where the walks of its definitions end. -/
theorem ends_failingText :
    (Anchors.ofText failingText.toList).Ends ["a".toList] "*b".toList
        (.cycle ["a".toList, "b".toList, "a".toList])
    ∧ (Anchors.ofText failingText.toList).Ends ["b".toList] "*a".toList
        (.cycle ["b".toList, "a".toList, "b".toList])
    ∧ (Anchors.ofText failingText.toList).Ends ["x".toList] "*y".toList (.missing "y".toList)
    ∧ (Anchors.ofText failingText.toList).Ends ["size".toList] "4px".toList (.literal "4px".toList)
    ∧ (Anchors.ofText failingText.toList).Ends ["pad".toList] "*size".toList
        (.literal "4px".toList) := by
  have ha : (Anchors.ofText failingText.toList).first? "a".toList = some "*b".toList := by
    rw [ofText_failingText]
    decide +kernel
  have hb : (Anchors.ofText failingText.toList).first? "b".toList = some "*a".toList := by
    rw [ofText_failingText]
    decide +kernel
  have hsize : (Anchors.ofText failingText.toList).first? "size".toList = some "4px".toList := by
    rw [ofText_failingText]
    decide +kernel
  have hy : (Anchors.ofText failingText.toList).first? "y".toList = none := by
    rw [ofText_failingText]
    decide +kernel
  have hliteral : pointerTarget? "4px".toList = none := by decide +kernel
  refine ⟨?_, ?_, ?_, ?_, ?_⟩
  · exact .cycle (.step (by decide +kernel) hb (.stay _)) (by decide +kernel) (by decide +kernel)
      (by decide +kernel) (by decide +kernel)
  · exact .cycle (.step (by decide +kernel) ha (.stay _)) (by decide +kernel) (by decide +kernel)
      (by decide +kernel) (by decide +kernel)
  · exact .missing (.stay _) (by decide +kernel) (by decide +kernel) (by decide +kernel)
      (by decide +kernel) hy
  · exact .literal (.stay _) (by decide +kernel) (by decide +kernel) hliteral
  · exact .literal (.step (by decide +kernel) hsize (.stay _)) (by decide +kernel)
      (by decide +kernel) hliteral

theorem diagnostics_resolve_failingText :
    (resolve failingText).diagnostics
        = [.cyclicAnchorChain ["a", "b", "a"], .cyclicAnchorChain ["b", "a", "b"],
          .unresolvedAlias "y", .unresolvedAlias "zz"]
    ∧ Occurs "CANNOT FIND VALUE FOR ".toList 2 (resolve failingText).text.toList
    ∧ Occurs "CYCLIC REFERENCE FOR ".toList 2 (resolve failingText).text.toList := by
  obtain ⟨hreport, hentries, -, hmissing, hcyclic⟩ := diagnostics_resolve failingText
  obtain ⟨ha, hb, hx, hsize, hpad⟩ := ends_failingText
  have hmem := ofText_failingText
  -- the entry of each definition, by where its walk ends
  have haEntry := ((hentries ⟨"a".toList, "*b".toList⟩ (by simp [hmem])).2.2.2 _ ha).2
  have hbEntry := ((hentries ⟨"b".toList, "*a".toList⟩ (by simp [hmem])).2.2.2 _ hb).2
  have hxEntry := ((hentries ⟨"x".toList, "*y".toList⟩ (by simp [hmem])).2.2.1 _ hx).2
  have hsizeEntry := ((hentries ⟨"size".toList, "4px".toList⟩ (by simp [hmem])).2.1 _ hsize).2
  have hpadEntry := ((hentries ⟨"pad".toList, "*size".toList⟩ (by simp [hmem])).2.1 _ hpad).2
  have hproblems : (Anchors.ofText failingText.toList).filterMap
      (fun a => ((Anchors.ofText failingText.toList).trace a).diagnostic?)
        = [.cyclicAnchorChain ["a", "b", "a"], .cyclicAnchorChain ["b", "a", "b"],
          .unresolvedAlias "y"] := by
    refine (congrArg (List.filterMap _) ofText_failingText).trans ?_
    simp only [List.filterMap_cons, List.filterMap_nil, haEntry, hbEntry, hxEntry, hsizeEntry,
      hpadEntry]
    decide +kernel
  have hnames : (markerNames (mapLines (Anchors.ofText failingText.toList).settleDefinition
      failingText.toList)).filter (fun name => ∀ a ∈ Anchors.ofText failingText.toList,
        a.name ≠ name) = ["zz".toList] := by
    decide +kernel
  have hlist : (resolve failingText).diagnostics
      = [.cyclicAnchorChain ["a", "b", "a"], .cyclicAnchorChain ["b", "a", "b"],
        .unresolvedAlias "y", .unresolvedAlias "zz"] := by
    rw [hreport, hproblems, hnames]
    decide +kernel
  rw [hlist] at hmissing hcyclic
  exact ⟨hlist, hmissing, hcyclic⟩

end DesignTokens.Alias
