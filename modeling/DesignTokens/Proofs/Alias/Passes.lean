import DesignTokens.Proofs.Alias.Agreement

/-!
# Three passes over one text

Resolution can be told without lines. The text is one string, which is gone through three times: for
its definitions, to give the pointers among them their traced values one after the other, and to
replace its markers. A definition reaches to the next break or to the end of the text.

No pass looks over a break, because neither the name of a definition nor a marker holds a blank. So
the passes do to every line what they would do to it alone:

* `pieces_append`: what is found in a line is found in the text;
* `scan_eq_ofText`, `rewritePointers_pieces`, `substitute_mapLines`: each pass is a pass over lines;
* `resolve_lineByLine`: what this means for the lines of a resolved text.
-/

namespace DesignTokens.Alias

open Text

/-! ## The passes -/

/-- A piece of a text. -/
inductive Piece where
  | plain (c : Char)
  /-- A definition with its name and the rest of its line. -/
  | definition (name rest : List Char)
  deriving DecidableEq, Repr

/-- The definitions of a text, leftmost first and not overlapping, and the characters between
them. -/
def pieces : List Char → List Piece
  | [] => []
  | c :: text =>
    match _h : if c = '&' then Definition.body? text else none with
    | some (name, rest) =>
      .definition name (rest.takeWhile fun c => !isBreak c)
        :: pieces (rest.dropWhile fun c => !isBreak c)
    | none => .plain c :: pieces text
termination_by text => text.length
decreasing_by
  · split at _h
    · have hlength := congrArg List.length (Definition.body?_eq_some_iff.mp _h).1
      have hdrop := (List.dropWhile_sublist (l := rest) fun c => !isBreak c).length_le
      simp only [List.length_append, List.length_cons] at hlength ⊢
      omega
    · exact absurd _h (by simp)
  · simp

/-- The anchor that a piece defines. -/
def Piece.anchor? : Piece → Option Anchor
  | plain _ => none
  | definition name rest => some ⟨name, trimEnd rest⟩

/-- The first pass: the definitions, in order. -/
def Anchors.scan (text : List Char) : Anchors :=
  (pieces text).filterMap Piece.anchor?

/-- The second pass: every definition uses up one value, and a pointer gets it. -/
def rewritePointers : List (List Char) → List Piece → List Char
  | _, [] => []
  | values, .plain c :: ps => c :: rewritePointers values ps
  | [], .definition name rest :: ps => '&' :: name ++ ' ' :: rest ++ rewritePointers [] ps
  | value :: values, .definition name rest :: ps =>
    '&' :: name ++ ' ' :: (if (pointerTarget? rest).isSome then value else rest)
      ++ rewritePointers values ps

/-! ## What is found in a line -/

/-- A text that does not go on with the line before it. -/
def StartsLine (text : List Char) : Prop := ∀ c ∈ text.head?, isBreak c = true

theorem not_mem_head?_space {text : List Char} (h : StartsLine text) : ' ' ∉ text.head? :=
  fun hmem => absurd (h _ hmem) (by decide)

/-- A name with a space behind it does not reach over the end of a line. -/
theorem Definition.body?_append {line text : List Char} (htext : StartsLine text) :
    body? (line ++ text) = (body? line).map fun found => (found.1, found.2 ++ text) := by
  cases hline : body? line with
  | some found =>
    obtain ⟨hcut, hname⟩ := body?_eq_some_iff.mp hline
    refine body?_eq_some_iff.mpr ⟨?_, hname⟩
    rw [hcut, List.append_assoc, List.cons_append]
  | none =>
    cases hboth : body? (line ++ text) with
    | none => rfl
    | some found =>
      exfalso
      obtain ⟨hcut, hname⟩ := body?_eq_some_iff.mp hboth
      rcases List.append_eq_append_iff.mp hcut with ⟨m, hm, hr⟩ | ⟨m, hm, hr⟩
      · cases m with
        | nil => exact not_mem_head?_space htext (by rw [hr]; rfl)
        | cons c m =>
          -- the break would stand in the name
          have hbreak : isBreak c = true := htext c (by rw [hr]; rfl)
          have hmem : c ∈ found.1 := by rw [hm]; exact List.mem_append_right _ List.mem_cons_self
          have hblank := isBlank_of_isBreak hbreak
          rw [hname c hmem] at hblank
          exact Bool.false_ne_true hblank
      · cases m with
        | nil => exact not_mem_head?_space htext (by rw [← List.nil_append text, ← hr]; rfl)
        | cons c m =>
          rw [hm, ← (List.cons.inj hr).1, body?_eq_some_iff.mpr ⟨rfl, hname⟩] at hline
          exact absurd hline (by simp)

/-- The pieces of a line: what is before its definition, and the definition. -/
def linePieces (line : List Char) : List Piece :=
  match Definition.find? line with
  | none => line.map .plain
  | some d => d.before.map .plain ++ [.definition d.name d.rest]

theorem pieces_of_body? {text name rest : List Char} (h : Definition.body? text = some (name, rest)) :
    pieces ('&' :: text)
      = .definition name (rest.takeWhile fun c => !isBreak c)
        :: pieces (rest.dropWhile fun c => !isBreak c) := by
  rw [pieces]
  split
  · rename_i n r heq
    rw [if_pos rfl, h] at heq
    obtain ⟨rfl, rfl⟩ := Prod.mk.inj (Option.some.inj heq)
    rfl
  · rename_i heq
    rw [if_pos rfl, h] at heq
    exact absurd heq (by simp)

theorem pieces_cons {c : Char} {text : List Char} (h : c = '&' → Definition.body? text = none) :
    pieces (c :: text) = .plain c :: pieces text := by
  rw [pieces]
  split
  · rename_i heq
    split at heq
    · rename_i hc
      rw [h hc] at heq
      exact absurd heq (by simp)
    · exact absurd heq (by simp)
  · rfl

theorem linePieces_cons {c : Char} {line : List Char} (h : c = '&' → Definition.body? line = none) :
    linePieces (c :: line) = .plain c :: linePieces line := by
  unfold linePieces
  rw [Definition.find?_cons_of_none h]
  cases Definition.find? line <;> rfl

/-- **What is found in a line is found in the text**, and nothing that is found reaches behind the
line. -/
theorem pieces_append {line text : List Char} (hline : Unbroken line) (htext : StartsLine text) :
    pieces (line ++ text) = linePieces line ++ pieces text := by
  induction line with
  | nil => rfl
  | cons c line ih =>
    have htail : Unbroken line := fun d hd => hline d (List.mem_cons_of_mem _ hd)
    by_cases hfound : c = '&' ∧ (Definition.body? line).isSome
    · obtain ⟨rfl, hsome⟩ := hfound
      obtain ⟨⟨name, rest⟩, hbody⟩ := Option.isSome_iff_exists.mp hsome
      have hboth : Definition.body? (line ++ text) = some (name, rest ++ text) := by
        rw [Definition.body?_append htext, hbody]
        rfl
      have hfind : Definition.find? ('&' :: line) = some ⟨[], name, rest⟩ := by
        rw [Definition.find?, if_pos rfl, hbody]
      have hrest : ∀ d ∈ rest, (!isBreak d) = true := by
        intro d hd
        have hmem : d ∈ line := by
          rw [(Definition.body?_eq_some_iff.mp hbody).1]
          exact List.mem_append_right _ (List.mem_cons_of_mem _ hd)
        rw [htail d hmem]
        rfl
      have hstop : ∀ d ∈ text.head?, (!isBreak d) = false := fun d hd => by
        rw [htext d hd]
        rfl
      unfold linePieces
      rw [List.cons_append, pieces_of_body? hboth, hfind, takeWhile_append_stop hrest hstop,
        dropWhile_append_stop hrest hstop]
      rfl
    · have hnone : c = '&' → Definition.body? line = none := fun hc =>
        Option.not_isSome_iff_eq_none.mp fun hsome => hfound ⟨hc, hsome⟩
      have hboth : c = '&' → Definition.body? (line ++ text) = none := fun hc => by
        rw [Definition.body?_append htext, hnone hc]
        rfl
      rw [List.cons_append, pieces_cons hboth, linePieces_cons hnone, ih htail, List.cons_append]

theorem pieces_of_unbroken {line : List Char} (hline : Unbroken line) :
    pieces line = linePieces line := by
  have h : pieces (line ++ []) = linePieces line ++ pieces [] :=
    pieces_append hline fun c hc => absurd hc (by simp)
  rwa [List.append_nil, pieces, List.append_nil] at h

theorem pieces_append_break {line : List Char} (hline : Unbroken line) {b : Char}
    (hb : isBreak b = true) (text : List Char) :
    pieces (line ++ b :: text) = linePieces line ++ .plain b :: pieces text := by
  have hstart : StartsLine (b :: text) := fun c hc => by
    rw [← Option.some.inj hc]
    exact hb
  have hne : b = '&' → Definition.body? text = none := by
    rintro rfl
    exact absurd hb (by decide)
  rw [pieces_append hline hstart, pieces_cons hne]

/-! ## Each pass is a pass over lines -/

namespace Anchors

theorem filterMap_anchor?_linePieces {line : List Char} (hline : Unbroken line) :
    (linePieces line).filterMap Piece.anchor? = ofText line := by
  have hplain : ∀ run : List Char, (run.map Piece.plain).filterMap Piece.anchor? = [] := by
    intro run
    rw [List.filterMap_map]
    exact List.filterMap_eq_nil_iff.mpr fun _ _ => rfl
  unfold linePieces
  rw [ofText_of_unbroken hline]
  cases Definition.find? line with
  | none => exact hplain line
  | some d =>
    show (d.before.map Piece.plain ++ [Piece.definition d.name d.rest]).filterMap _ = _
    rw [List.filterMap_append, hplain]
    rfl

/-- **The first pass finds the definitions of the lines.** -/
theorem scan_eq_ofText (text : List Char) : scan text = ofText text := by
  unfold scan
  induction text using lineInduction with
  | last line hline => rw [pieces_of_unbroken hline, filterMap_anchor?_linePieces hline]
  | more line b text hline hb ih =>
    rw [pieces_append_break hline hb, ofText_append_break hline hb, List.filterMap_append,
      filterMap_anchor?_linePieces hline, ← ih]
    rfl

theorem scan_eq_flatMap_lines (text : List Char) : scan text = (lines text).flatMap scan := by
  rw [funext scan_eq_ofText]
  exact ofText_eq_flatMap_lines text

theorem length_scan_le {line : List Char} (hline : Unbroken line) : (scan line).length ≤ 1 := by
  rw [scan_eq_ofText, ofText_of_unbroken hline]
  exact Option.length_toList_le

end Anchors

theorem rewritePointers_map_plain (values : List (List Char)) (run : List Char) (ps : List Piece) :
    rewritePointers values (run.map .plain ++ ps) = run ++ rewritePointers values ps := by
  induction run with
  | nil => rfl
  | cons c run ih =>
    show rewritePointers values (.plain c :: (run.map .plain ++ ps)) = _
    rw [rewritePointers, ih]
    rfl

/-- A line uses up the value of its definition, if it has one. -/
theorem rewritePointers_linePieces (anchors : Anchors) {line : List Char} (hline : Unbroken line)
    (values : List (List Char)) (ps : List Piece) :
    rewritePointers ((Anchors.ofText line).map (fun a => (anchors.trace a).value) ++ values)
        (linePieces line ++ ps)
      = anchors.settleDefinition line ++ rewritePointers values ps := by
  unfold linePieces
  rw [Anchors.ofText_of_unbroken hline]
  cases hd : Definition.find? line with
  | none =>
    rw [Anchors.settleDefinition_of_find?_eq_none hd]
    exact rewritePointers_map_plain values line ps
  | some d =>
    show rewritePointers ((anchors.trace ⟨d.name, d.value⟩).value :: values)
      (d.before.map .plain ++ [.definition d.name d.rest] ++ ps) = _
    rw [Anchors.settleDefinition_eq hd, List.append_assoc, rewritePointers_map_plain,
      List.append_assoc]
    show d.before ++ rewritePointers _ (.definition d.name d.rest :: ps) = _
    -- the second pass looks at the value as it stands, blanks at its end included
    have hpointer : (pointerTarget? d.rest).isSome ↔ (pointerTarget? d.value).isSome :=
      isSome_pointerTarget?_trimEnd.symm
    rw [rewritePointers]
    unfold Definition.matched Anchors.settled Anchors.settledRest
    simp only [hpointer]

/-- **The values are used up by the definitions they belong to**, so the second pass settles every
line. -/
theorem rewritePointers_pieces (anchors : Anchors) (text : List Char) :
    rewritePointers ((Anchors.ofText text).map fun a => (anchors.trace a).value) (pieces text)
      = mapLines anchors.settleDefinition text := by
  induction text using lineInduction with
  | last line hline =>
    have h := rewritePointers_linePieces anchors hline [] []
    rw [List.append_nil, List.append_nil, rewritePointers, List.append_nil] at h
    rw [pieces_of_unbroken hline, mapLines_of_unbroken _ hline, h]
  | more line b text hline hb ih =>
    rw [pieces_append_break hline hb, mapLines_append_break _ hline hb,
      Anchors.ofText_append_break hline hb, List.map_append, rewritePointers_linePieces _ hline,
      rewritePointers, ih]

/-- The third pass goes over one line after the other. -/
theorem substitute_mapLines (value f : List Char → List Char) (text : List Char) :
    substitute value (mapLines f text) = mapLines (fun line => substitute value (f line)) text := by
  induction text using lineInduction with
  | last line hline => rw [mapLines_of_unbroken _ hline, mapLines_of_unbroken _ hline]
  | more line b text hline hb ih =>
    rw [mapLines_append_break _ hline hb, mapLines_append_break _ hline hb,
      substitute_append_blank _ (isBlank_of_isBreak hb), ih]

/-- **The resolved text is what the three passes make of the text as one string.** -/
theorem text_resolve_eq_passes (raw : String) :
    (resolve raw).text.toList
      = substitute (Anchors.scan raw.toList).markerValue
          (rewritePointers ((Anchors.scan raw.toList).traces.map Trace.value)
            (pieces raw.toList)) := by
  rw [text_resolve_toList, Anchors.scan_eq_ofText, Anchors.traces, List.map_map]
  show _ = substitute _ (rewritePointers
    ((Anchors.ofText raw.toList).map fun a => ((Anchors.ofText raw.toList).trace a).value) _)
  rw [rewritePointers_pieces, substitute_mapLines]
  rfl

/-! ## The lines of a resolved text -/

theorem breaks_resolve (raw : String) : breaks (resolve raw).text.toList = breaks raw.toList := by
  rw [text_resolve_toList]
  exact breaks_mapLines fun line hline => Anchors.unbroken_resolveLine hline

theorem getElem?_lines_resolve {raw : String} {i : Nat} {line : List Char}
    (h : (lines raw.toList)[i]? = some line) :
    (lines (resolve raw).text.toList)[i]?
      = some ((Anchors.ofText raw.toList).resolveLine line) := by
  rw [lines_resolve, List.getElem?_map, h]
  rfl

/--
**Resolution works line by line.**

The three passes over a text keep its breaks, and so its lines by their positions. A line without a
marker and without a pointer stays as it is. No marker and no definition reaches over a break, and no
line has two definitions. What becomes of a line depends on the rest of the text by the first
definitions of the names and by the traced values of their last definitions, and by nothing else.
-/
theorem resolve_lineByLine (raw : String) :
    (resolve raw).text.toList
        = substitute (Anchors.scan raw.toList).markerValue
            (rewritePointers ((Anchors.scan raw.toList).traces.map Trace.value)
              (pieces raw.toList))
    ∧ breaks (resolve raw).text.toList = breaks raw.toList
    ∧ (lines (resolve raw).text.toList).length = (lines raw.toList).length
    ∧ (∀ (i : Nat) (line : List Char), (lines raw.toList)[i]? = some line →
        markerNames line = [] → (∀ a ∈ Anchors.scan line, pointerTarget? a.value = none) →
        (lines (resolve raw).text.toList)[i]? = some line)
    ∧ markerNames raw.toList = (lines raw.toList).flatMap markerNames
    ∧ (Anchors.scan raw.toList = (lines raw.toList).flatMap Anchors.scan
        ∧ ∀ line ∈ lines raw.toList, (Anchors.scan line).length ≤ 1)
    ∧ ∀ other : String,
        (Anchors.scan other.toList).first? = (Anchors.scan raw.toList).first? →
        (Anchors.scan other.toList).tableValue? = (Anchors.scan raw.toList).tableValue? →
        ∀ (i j : Nat) (line : List Char), (lines raw.toList)[i]? = some line →
          (lines other.toList)[j]? = some line →
          (lines (resolve other).text.toList)[j]? = (lines (resolve raw).text.toList)[i]? := by
  refine ⟨text_resolve_eq_passes raw, breaks_resolve raw, ?_, ?_, markerNames_eq_flatMap_lines _,
    ⟨Anchors.scan_eq_flatMap_lines _, ?_⟩, ?_⟩
  · rw [lines_resolve, List.length_map]
  · intro i line hline hmarkers hpointer
    have hunbroken := unbroken_of_mem_lines line (List.mem_of_getElem? hline)
    rw [getElem?_lines_resolve hline, Anchors.resolveLine_eq_self hmarkers fun d hd => ?_]
    refine hpointer ⟨d.name, d.value⟩ ?_
    rw [Anchors.scan_eq_ofText, Anchors.ofText_of_unbroken hunbroken, hd]
    exact List.mem_singleton_self _
  · exact fun line hline => Anchors.length_scan_le (unbroken_of_mem_lines line hline)
  · intro other hfirst htable i j line hi hj
    rw [Anchors.scan_eq_ofText, Anchors.scan_eq_ofText] at hfirst htable
    rw [getElem?_lines_resolve hi, getElem?_lines_resolve hj,
      Anchors.resolveLine_of_agree (fun d _ => Anchors.trace_of_first?_eq hfirst _)
        fun name _ => congrFun htable name]

/-- A text that uses names before it defines them. -/
def earlyText : String :=
  "x: !{*b}!{*c}\nb: &b *a \na: &a \"4px\"\n"

/-- The same definitions in another order, with other lines and other breaks between them. -/
def lateText : String :=
  "a: &a \"4px\"\r\r# sizes\nb: &b *a \nx: !{*b}!{*c}"

theorem resolve_lineByLine_lateText :
    (Anchors.scan lateText.toList).first? = (Anchors.scan earlyText.toList).first?
    ∧ (Anchors.scan lateText.toList).tableValue? = (Anchors.scan earlyText.toList).tableValue?
    ∧ (lines earlyText.toList)[0]? = some "x: !{*b}!{*c}".toList
    ∧ (lines lateText.toList)[4]? = some "x: !{*b}!{*c}".toList
    ∧ (lines (resolve lateText).text.toList)[4]? = (lines (resolve earlyText).text.toList)[0]?
    ∧ (lines lateText.toList)[2]? = some "# sizes".toList
    ∧ (lines (resolve lateText).text.toList)[2]? = some "# sizes".toList :=
  have hperm : (Anchors.scan lateText.toList).Perm (Anchors.scan earlyText.toList) := by
    decide +kernel
  have hunique : ((Anchors.scan earlyText.toList).map Anchor.name).Nodup := by decide +kernel
  have hearly : (lines earlyText.toList)[0]? = some "x: !{*b}!{*c}".toList := by decide +kernel
  have hlate : (lines lateText.toList)[4]? = some "x: !{*b}!{*c}".toList := by decide +kernel
  have hplain : (lines lateText.toList)[2]? = some "# sizes".toList := by decide +kernel
  have hfirst := Anchors.first?_of_perm hperm hunique
  have htable := Anchors.tableValue?_of_perm hperm hunique
  ⟨hfirst, htable, hearly, hlate,
    (resolve_lineByLine earlyText).2.2.2.2.2.2 lateText hfirst htable 0 4 _ hearly hlate, hplain,
    (resolve_lineByLine lateText).2.2.2.1 2 _ hplain (by decide +kernel) (by decide +kernel)⟩

end DesignTokens.Alias
