import DesignTokens.Proofs.Alias.Report
import Mathlib.Data.List.Infix

/-!
# The edges of values that are put in

A reference is what resolution looks for: a marker, or a definition whose value is a pointer. When
values are put in the place of markers, a reference can come up that was not there before, of which
one part was put in and another part stood beside it. It lies across an edge then.

* `exists_run_of_starts`: with no reference in a value and none across an edge, every reference of
  the filled text stood between two markers already;
* `mem_markerNames_trace`: the markers of a traced value are markers of the anchors.
-/

namespace DesignTokens.Alias

open Text

/-! ## References -/

/-- Whether a text begins with a definition whose value is a pointer. -/
def beginsPointer : List Char → Bool
  | '&' :: text =>
    match Definition.body? text with
    | some (_, rest) => (pointerTarget? rest).isSome
    | none => false
  | _ => false

/-- Whether a text begins with something that is resolved: a marker or a pointer. -/
def refers (text : List Char) : Bool :=
  (marker? text).isSome || beginsPointer text

theorem beginsPointer_iff {text : List Char} :
    beginsPointer text = true
      ↔ ∃ name rest, text = '&' :: (name ++ ' ' :: rest) ∧ (∀ c ∈ name, isBlank c = false)
          ∧ (pointerTarget? rest).isSome := by
  constructor
  · intro h
    unfold beginsPointer at h
    split at h
    · split at h
      · rename_i name rest hbody
        obtain ⟨htext, hname⟩ := Definition.body?_eq_some_iff.mp hbody
        exact ⟨name, rest, by rw [htext], hname, h⟩
      · exact absurd h Bool.false_ne_true
    · exact absurd h Bool.false_ne_true
  · rintro ⟨name, rest, rfl, hname, htarget⟩
    have hbody : Definition.body? (name ++ ' ' :: rest) = some (name, rest) :=
      Definition.body?_eq_some_iff.mpr ⟨rfl, hname⟩
    simp only [beginsPointer, hbody, htarget]

theorem begins_of_beginsPointer {text : List Char} (h : beginsPointer text = true) :
    Definition.begins text = true := by
  obtain ⟨name, rest, htext, hname, -⟩ := beginsPointer_iff.mp h
  exact Definition.begins_iff.mpr ⟨name, rest, htext, hname⟩

/-- Something that begins in a text and ends in the text behind it, where `starts` tells whether it
begins with a text. -/
def Across (starts : List Char → Bool) (left right : List Char) : Prop :=
  ∃ u, u <:+ left ∧ u ≠ [] ∧ starts (u ++ right) = true ∧ starts u = false

/-- A reference that begins in a text and ends in the text behind it. -/
def Straddles (left right : List Char) : Prop :=
  ∃ u, u <:+ left ∧ u ≠ [] ∧ refers (u ++ right) = true ∧ refers u = false

instance (left right : List Char) : Decidable (Straddles left right) :=
  decidable_of_iff
    (∃ u ∈ left.tails, u ≠ [] ∧ refers (u ++ right) = true ∧ refers u = false)
    (by simp only [List.mem_tails, Straddles])

/-! ## Pieces with values put in -/

/-- Whether a piece is a marker. -/
def Segment.isMarker : Segment → Bool
  | plain _ => false
  | marker _ => true

/-- A piece, with its value put in if it is a marker. -/
def Segment.filled (value : List Char → List Char) : Segment → List Char
  | plain c => [c]
  | marker name => value name

/-- Pieces one after the other, with values for the markers. -/
def fill (value : List Char → List Char) (pieces : List Segment) : List Char :=
  pieces.flatMap (Segment.filled value)

section Fill

variable {value : List Char → List Char}

theorem substitute_eq_fill (text : List Char) :
    substitute value text = fill value (segments text) := by
  unfold substitute fill
  refine List.flatMap_congr fun piece _ => ?_
  cases piece <;> rfl

theorem fill_cons (piece : Segment) (pieces : List Segment) :
    fill value (piece :: pieces) = piece.filled value ++ fill value pieces :=
  List.flatMap_cons

theorem fill_append (front back : List Segment) :
    fill value (front ++ back) = fill value front ++ fill value back :=
  List.flatMap_append

theorem fill_map_plain (run : List Char) : fill value (run.map .plain) = run := by
  unfold fill
  rw [List.flatMap_map]
  exact List.flatMap_singleton' run

/-- The place at which a part of a filled text begins lies in one of the pieces. -/
theorem exists_piece_of_suffix {pieces : List Segment} {u : List Char}
    (hu : u <:+ fill value pieces) (hne : u ≠ []) :
    ∃ front piece back w, pieces = front ++ piece :: back ∧ w ≠ [] ∧ w <:+ piece.filled value
      ∧ u = w ++ fill value back := by
  induction pieces with
  | nil => exact absurd (List.suffix_nil.mp hu) hne
  | cons piece pieces ih =>
    by_cases hrest : u <:+ fill value pieces
    · obtain ⟨front, p, back, w, hsplit, hw⟩ := ih hrest
      exact ⟨piece :: front, p, back, w, by rw [hsplit, List.cons_append], hw⟩
    · obtain ⟨before, hbefore⟩ := hu
      have hcons : before ++ u = piece.filled value ++ fill value pieces := hbefore
      rcases List.append_eq_append_iff.mp hcons with ⟨w, hw, hu⟩ | ⟨w, hw, hu⟩
      · refine ⟨[], piece, pieces, w, rfl, ?_, ⟨before, hw.symm⟩, hu⟩
        rintro rfl
        rw [List.nil_append] at hu
        exact hrest (hu ▸ List.suffix_rfl)
      · exact absurd ⟨w, hu.symm⟩ hrest

/-- Pieces begin with characters up to their end or up to a marker. -/
theorem exists_run (pieces : List Segment) :
    ∃ (run : List Char) (back : List Segment), pieces = run.map .plain ++ back
      ∧ (back = [] ∨ ∃ name rest, back = .marker name :: rest) := by
  induction pieces with
  | nil => exact ⟨[], [], rfl, Or.inl rfl⟩
  | cons piece pieces ih =>
    cases piece with
    | marker name => exact ⟨[], .marker name :: pieces, rfl, Or.inr ⟨name, pieces, rfl⟩⟩
    | plain c =>
      obtain ⟨run, back, hsplit, hback⟩ := ih
      exact ⟨c :: run, back, by rw [hsplit]; rfl, hback⟩

/-- **What a filled text has, it had before**, between two markers, if no value holds it and it does
not lie across the edge of a value. -/
theorem exists_run_of_starts {starts : List Char → Bool} (hnil : starts [] = false)
    {pieces : List Segment}
    (hvalue : ∀ name, .marker name ∈ pieces → ∀ w, w <:+ value name → starts w = false)
    (hedge : ∀ front back, pieces = front ++ back →
      (front.getLast?.any Segment.isMarker || back.head?.any Segment.isMarker) = true →
      ¬ Across starts (fill value front) (fill value back))
    {u : List Char} (hu : u <:+ fill value pieces) (hstarts : starts u = true) :
    ∃ (front : List Segment) (run : List Char) (back : List Segment),
      pieces = front ++ (run.map .plain ++ back) ∧ starts run = true ∧ u = run ++ fill value back := by
  have hne : u ≠ [] := by
    rintro rfl
    rw [hnil] at hstarts
    exact Bool.false_ne_true hstarts
  obtain ⟨front, piece, back, w, hsplit, hw, hsuffix, rfl⟩ := exists_piece_of_suffix hu hne
  cases piece with
  | marker name =>
    -- it begins in a value, and the value does not hold it
    have hnone := hvalue name (hsplit ▸ List.mem_append_right _ List.mem_cons_self) w hsuffix
    have hwithin : w <:+ fill value (front ++ [.marker name]) := by
      rw [fill_append]
      refine hsuffix.trans ?_
      have hfill : fill value [.marker name] = value name := List.append_nil _
      rw [hfill]
      exact List.suffix_append _ _
    have hedge' := hedge (front ++ [.marker name]) back (by rw [hsplit, List.append_assoc]; rfl)
      (by simp [Segment.isMarker])
    exact absurd ⟨w, hwithin, hw, hstarts, hnone⟩ hedge'
  | plain c =>
    obtain ⟨run, rest, hrun, hrest⟩ := exists_run back
    have hwc : w = [c] := by
      rcases List.suffix_cons_iff.mp hsuffix with h | h
      · exact h
      · exact absurd (List.suffix_nil.mp h) hw
    have htext : w ++ fill value back = (c :: run) ++ fill value rest := by
      rw [hwc, hrun, fill_append, fill_map_plain]
      rfl
    have hpieces : pieces = front ++ ((c :: run).map .plain ++ rest) := by
      rw [hsplit, hrun]
      rfl
    rw [htext] at hstarts ⊢
    refine ⟨front, c :: run, rest, hpieces, ?_, rfl⟩
    cases hwhole : starts (c :: run) with
    | true => rfl
    | false =>
      rcases hrest with rfl | ⟨name, more, rfl⟩
      · rw [show fill value [] = [] from rfl, List.append_nil, hwhole] at hstarts
        exact hstarts
      · -- it would reach over the edge of the next value
        have hwithin : c :: run <:+ fill value (front ++ (c :: run).map .plain) := by
          rw [fill_append, fill_map_plain]
          exact List.suffix_append _ _
        have hedge' := hedge (front ++ (c :: run).map .plain) (.marker name :: more)
          (by rw [hpieces, List.append_assoc]) (by simp [Segment.isMarker])
        exact absurd ⟨c :: run, hwithin, List.cons_ne_nil c run, hstarts, hwhole⟩ hedge'

theorem Segment.text_ne_nil (piece : Segment) : piece.text ≠ [] := by
  cases piece <;> simp [Segment.text, markerText]

/-- No marker begins with characters that are pieces of their own. -/
theorem marker?_eq_none_of_run {text run : List Char} {front back : List Segment}
    (h : segments text = front ++ (run.map .plain ++ back)) : marker? run = none := by
  cases hm : marker? run with
  | none => rfl
  | some found =>
    have hcut := segments_flatMap_text h
    rw [List.flatMap_append, flatMap_text_map_plain, segments_of_marker (marker?_append hm _)]
      at hcut
    cases run with
    | nil => exact absurd hm (by simp [marker?])
    | cons c run => exact absurd (List.cons.inj hcut).1 (by simp)

/-- Of two ends of the pieces of a text, the one with less text lies within the other. -/
theorem suffix_of_length_le {all pieces back : List Segment} (hpieces : pieces <:+ all)
    (hback : back <:+ all)
    (hlength : (pieces.flatMap Segment.text).length ≤ (back.flatMap Segment.text).length) :
    pieces <:+ back := by
  rcases List.suffix_or_suffix_of_suffix hpieces hback with h | h
  · exact h
  · obtain ⟨front, rfl⟩ := h
    cases front with
    | nil => exact List.suffix_rfl
    | cons piece front =>
      have hpos := List.length_pos_iff.mpr piece.text_ne_nil
      rw [List.flatMap_append, List.flatMap_cons, List.length_append, List.length_append] at hlength
      omega

theorem flatMap_text_suffix {text : List Char} {pieces : List Segment}
    (h : pieces <:+ segments text) : pieces.flatMap Segment.text <:+ text := by
  obtain ⟨front, hfront⟩ := h
  refine ⟨front.flatMap Segment.text, ?_⟩
  rw [← List.flatMap_append, hfront, flatMap_text_segments]

theorem fill_suffix {text : List Char} {pieces : List Segment} (h : pieces <:+ segments text) :
    fill value pieces <:+ substitute value text := by
  obtain ⟨front, hfront⟩ := h
  refine ⟨fill value front, ?_⟩
  rw [← fill_append, hfront, substitute_eq_fill]

/-- Nothing is missing at the left of pieces that begin with a character other than an exclamation
mark, if nothing is missing when they are filled. -/
theorem eq_of_length_fill_le {pieces all : List Segment} {c : Char} {rest : List Char}
    (h : pieces <:+ all) (htext : all.flatMap Segment.text = c :: rest) (hc : c ≠ '!')
    (hlength : (fill value all).length ≤ (fill value pieces).length) : pieces = all := by
  obtain ⟨front, rfl⟩ := h
  cases front with
  | nil => rfl
  | cons piece front =>
    cases piece with
    | marker name => exact absurd (List.cons.inj htext).1.symm hc
    | plain d =>
      rw [List.cons_append, fill_cons, fill_append] at hlength
      simp only [Segment.filled, List.length_append, List.length_singleton] at hlength
      omega

end Fill

/-! ## The markers of traced values -/

/-- An arrow neither begins nor ends a marker. -/
theorem exists_of_mem_markerNames_intercalate {names : List (List Char)} {name : List Char}
    (h : name ∈ markerNames (" -> ".toList.intercalate names)) :
    ∃ n ∈ names, name ∈ markerNames n := by
  induction names with
  | nil =>
    rw [show " -> ".toList.intercalate [] = [] from rfl, markerNames_eq_nil List.not_mem_nil] at h
    exact absurd h List.not_mem_nil
  | cons n names ih =>
    by_cases hne : names = []
    · rw [hne, List.intercalate_singleton] at h
      exact ⟨n, List.mem_cons_self, h⟩
    · have harrow : " -> ".toList = ' ' :: "-> ".toList := by decide +kernel
      have hbang : '!' ∉ "-> ".toList := by decide +kernel
      rw [List.intercalate_cons_of_ne_nil hne, harrow, List.append_assoc, List.cons_append,
        markerNames_append_blank (by decide), ← harrow, markerNames_append_of_notMem hbang] at h
      rcases List.mem_append.mp h with h | h
      · exact ⟨n, List.mem_cons_self, h⟩
      · obtain ⟨n', hn', h⟩ := ih h
        exact ⟨n', List.mem_cons_of_mem _ hn', h⟩

namespace Anchors

variable {anchors : Anchors}

/-- A walk meets names that stand in values. -/
theorem Walk.isInfix_of_mem {value last : List Char} {names : List (List Char)}
    (h : Walk anchors value names last) :
    ∀ n ∈ names, n <:+: value ∨ ∃ b ∈ anchors, n <:+: b.value := by
  induction h with
  | stay value => exact fun n hn => absurd hn List.not_mem_nil
  | @step value target next last names htarget hdef _ ih =>
    obtain ⟨b, hb, -, rfl⟩ := mem_of_first? hdef
    intro n hn
    rcases List.mem_cons.mp hn with rfl | hn
    · exact Or.inl (pointerTarget?_isInfix htarget)
    · rcases ih n hn with h | h
      · exact Or.inr ⟨b, hb, h⟩
      · exact Or.inr h

/-- **The markers of a traced value are markers of the anchors.** -/
theorem mem_markerNames_trace {a : Anchor} {name : List Char}
    (h : name ∈ markerNames (anchors.trace a).value) :
    name ∈ markerNames a.name ∨ name ∈ markerNames a.value
      ∨ ∃ b ∈ anchors, name ∈ markerNames b.value := by
  have hmet : ∀ {part : List Char}, part <:+: a.value ∨ (∃ b ∈ anchors, part <:+: b.value) →
      name ∈ markerNames part →
      name ∈ markerNames a.value ∨ ∃ b ∈ anchors, name ∈ markerNames b.value := by
    rintro part (hpart | ⟨b, hb, hpart⟩) hmem
    · exact Or.inl (mem_markerNames_of_isInfix hpart hmem)
    · exact Or.inr ⟨b, hb, mem_markerNames_of_isInfix hpart hmem⟩
  have hlast : ∀ {names : List (List Char)} {last part : List Char},
      Walk anchors a.value names last → part <:+: last →
      part <:+: a.value ∨ ∃ b ∈ anchors, part <:+: b.value := by
    intro names last part hwalk hpart
    rcases hwalk.last_eq with rfl | ⟨b, hb, rfl⟩
    · exact Or.inl hpart
    · exact Or.inr ⟨b, hb, hpart⟩
  have hends := ends_follow anchors [a.name] a.value
  unfold trace at h
  generalize anchors.follow [a.name] a.value = t at hends h
  cases hends with
  | literal hwalk _ _ _ => exact Or.inr (hmet (hlast hwalk List.infix_rfl) h)
  | @missing names last target hwalk _ _ htarget _ _ =>
    have hbang := (Diagnostic.unresolvedAlias "").bang_notMem_opening
    have hcut : name ∈ markerNames ((Diagnostic.unresolvedAlias "").opening ++ target) := h
    rw [markerNames_append_of_notMem hbang] at hcut
    exact Or.inr (hmet (hlast hwalk (pointerTarget?_isInfix htarget)) hcut)
  | @cycle names last target hwalk _ _ htarget _ =>
    have hbang := (Diagnostic.cyclicAnchorChain []).bang_notMem_opening
    have hcut : name ∈ markerNames ((Diagnostic.cyclicAnchorChain []).opening
        ++ " -> ".toList.intercalate ([a.name] ++ names ++ [target])) := h
    rw [markerNames_append_of_notMem hbang] at hcut
    obtain ⟨n, hn, hmem⟩ := exists_of_mem_markerNames_intercalate hcut
    -- the name is that of the anchor, of one met on the walk, or of the pointer that closes it
    rcases List.mem_append.mp hn with hn | hn
    · rcases List.mem_cons.mp hn with rfl | hn
      · exact Or.inl hmem
      · exact Or.inr (hmet (hwalk.isInfix_of_mem n hn) hmem)
    · rw [List.mem_singleton.mp hn] at hmem
      exact Or.inr (hmet (hlast hwalk (pointerTarget?_isInfix htarget)) hmem)

/-- Traced values hold no markers if the anchors hold none. -/
theorem markerNames_trace (hvalues : ∀ b ∈ anchors, markerNames b.value = []) {a : Anchor}
    (hvalue : markerNames a.value = []) (hname : markerNames a.name = []) :
    markerNames (anchors.trace a).value = [] := by
  rw [List.eq_nil_iff_forall_not_mem] at hvalue hname ⊢
  intro name hmem
  rcases mem_markerNames_trace hmem with h | h | ⟨b, hb, h⟩
  · exact hname name h
  · exact hvalue name h
  · rw [hvalues b hb] at h
    exact absurd h List.not_mem_nil

/-- What takes the place of a marker holds no markers. -/
theorem markerNames_markerValue (hvalues : ∀ b ∈ anchors, markerNames b.value = [])
    {name : List Char} (hname : ∀ c ∈ name, isMarkerNameChar c = true) :
    markerNames (anchors.markerValue name) = [] := by
  have hnone : markerNames name = [] :=
    markerNames_eq_nil_of_brace fun hmem => absurd (hname _ hmem) (by decide)
  unfold markerValue markerValue?
  cases hlast : anchors.last? name with
  | none =>
    have hbang := (Diagnostic.unresolvedAlias "").bang_notMem_opening
    show markerNames ((Diagnostic.unresolvedAlias "").opening ++ name) = []
    rw [markerNames_append_of_notMem hbang, hnone]
  | some a =>
    have ha : a.name = name := by simpa using List.find?_some hlast
    have htrace := markerNames_trace hvalues (hvalues a (mem_of_last? hlast)) (ha ▸ hnone)
    obtain ⟨opening, closing, hquoted, -, -⟩ := unquotes_unquote (anchors.trace a).value
    exact markerNames_of_isInfix ⟨opening, closing, hquoted.symm⟩ htrace

end Anchors

end DesignTokens.Alias
