import DesignTokens.Alias.Marker
import DesignTokens.Proofs.Text.Blank
import DesignTokens.Proofs.Text.Lines
import Mathlib.Data.List.Basic

/-!
# Where the markers of a text are

`segments` cuts a text into its markers and the characters between them. The pieces written one
after the other are the text again, and a cut never runs over a blank, so the markers of a text are
the markers of its lines:

* `flatMap_text_segments`: the pieces of a text are the text;
* `segments_append_blank`: the text behind a blank is cut by itself;
* `segments_of_append_plain`: neither does a cut change when a part without markers is taken off
  the end;
* `substitute_append_blank`, `substitute_append_of_notMem`: what stands beside the markers stays
  when these are replaced;
* `mem_markerNames_of_isInfix`: two markers never overlap, so every marker that stands anywhere in a
  text is cut out of it.
-/

namespace DesignTokens.Alias

open Text

/-- The marker of a name. -/
def markerText (name : List Char) : List Char :=
  '!' :: '{' :: '*' :: name ++ ['}']

/-- What a piece of a text looks like in the text. -/
def Segment.text : Segment → List Char
  | plain c => [c]
  | marker name => markerText name

/-! ## Reading one marker -/

/-- The text of a marker holds no blanks. -/
theorem not_isBlank_of_mem_markerText {name : List Char}
    (hname : ∀ c ∈ name, isMarkerNameChar c = true) {c : Char} (hc : c ∈ markerText name) :
    isBlank c = false := by
  have hcases : c = '!' ∨ c = '{' ∨ c = '*' ∨ c ∈ name ∨ c = '}' := by
    simpa [markerText] using hc
  rcases hcases with h | h | h | h | h
  · rw [h]; decide
  · rw [h]; decide
  · rw [h]; decide
  · have hchar := hname c h
    simp only [isMarkerNameChar, Bool.and_eq_true, Bool.not_eq_true'] at hchar
    exact hchar.1.1
  · rw [h]; decide

/-- A text begins with a marker exactly if the marker is written there. -/
theorem marker?_eq_some_iff {text name rest : List Char} :
    marker? text = some (name, rest)
      ↔ text = markerText name ++ rest ∧ ∀ c ∈ name, isMarkerNameChar c = true := by
  constructor
  · intro h
    unfold marker? at h
    split at h
    · rename_i cs
      split at h
      · rename_i r hr
        obtain ⟨hname, hrest⟩ := Prod.mk.inj (Option.some.inj h)
        subst hname hrest
        refine ⟨?_, fun c hc => List.mem_takeWhile_imp hc⟩
        have hcs : cs.takeWhile isMarkerNameChar ++ '}' :: r = cs := by
          rw [← hr]; exact List.takeWhile_append_dropWhile
        conv => lhs; rw [← hcs]
        simp [markerText]
      · exact absurd h (by simp)
    · exact absurd h (by simp)
  · rintro ⟨rfl, hname⟩
    have hstop : ∀ c ∈ ('}' :: rest).head?, isMarkerNameChar c = false := fun | _, rfl => rfl
    have hdrop : (name ++ '}' :: rest).dropWhile isMarkerNameChar = '}' :: rest :=
      dropWhile_append_stop hname hstop
    have htake : (name ++ '}' :: rest).takeWhile isMarkerNameChar = name :=
      takeWhile_append_stop hname hstop
    simp only [markerText, List.cons_append, List.append_assoc, List.nil_append, marker?, hdrop,
      htake]

/-- A marker stays one when more text follows. -/
theorem marker?_append {text name rest : List Char} (h : marker? text = some (name, rest))
    (more : List Char) : marker? (text ++ more) = some (name, rest ++ more) := by
  obtain ⟨htext, hname⟩ := marker?_eq_some_iff.mp h
  exact marker?_eq_some_iff.mpr ⟨by rw [htext, List.append_assoc], hname⟩

/-! ## Cutting a text -/

@[simp] theorem segments_nil : segments [] = [] := by
  rw [segments]
  rfl

theorem segments_of_marker {text name rest : List Char} (h : marker? text = some (name, rest)) :
    segments text = .marker name :: segments rest := by
  rw [segments]
  split
  · rename_i n r heq
    obtain ⟨hn, hr⟩ := Prod.mk.inj (Option.some.inj (heq.symm.trans h))
    rw [hn, hr]
  · rename_i heq
    exact absurd (heq.symm.trans h) (by simp)

theorem segments_cons {c : Char} {text : List Char} (h : marker? (c :: text) = none) :
    segments (c :: text) = .plain c :: segments text := by
  rw [segments]
  split
  · rename_i heq
    exact absurd (heq.symm.trans h) (by simp)
  · rfl

theorem marker?_cons_of_ne {c : Char} (h : c ≠ '!') (text : List Char) :
    marker? (c :: text) = none := by
  unfold marker?
  split
  · rename_i heq
    exact absurd (List.cons.inj heq).1 h
  · rfl

/-- Without an exclamation mark there is no marker. -/
theorem segments_eq_map_plain {text : List Char} (h : '!' ∉ text) :
    segments text = text.map .plain := by
  induction text with
  | nil => exact segments_nil
  | cons c text ih =>
    have hc : c ≠ '!' := fun heq => h (heq ▸ List.mem_cons_self)
    rw [segments_cons (marker?_cons_of_ne hc text), ih fun hm => h (List.mem_cons_of_mem _ hm)]
    rfl

/-- The pieces of a text, one after the other, are the text. -/
theorem flatMap_text_segments (text : List Char) :
    (segments text).flatMap Segment.text = text := by
  induction text using segments.induct with
  | case1 text name rest h ih =>
    rw [segments_of_marker h, List.flatMap_cons, ih]
    exact (marker?_eq_some_iff.mp h).1.symm
  | case2 h => rw [segments_nil]; rfl
  | case3 c text h ih =>
    rw [segments_cons h, List.flatMap_cons, ih]
    rfl

/-- The names of the markers that are cut out of a text. -/
theorem isMarkerNameChar_of_mem_segments {text name : List Char}
    (h : .marker name ∈ segments text) : ∀ c ∈ name, isMarkerNameChar c = true := by
  induction text using segments.induct with
  | case1 text n rest hm ih =>
    rw [segments_of_marker hm] at h
    rcases List.mem_cons.mp h with h | h
    · rw [Segment.marker.inj h]; exact (marker?_eq_some_iff.mp hm).2
    · exact ih h
  | case2 hm => rw [segments_nil] at h; exact absurd h List.not_mem_nil
  | case3 c text hm ih =>
    rw [segments_cons hm] at h
    rcases List.mem_cons.mp h with h | h
    · exact absurd h (by simp)
    · exact ih h

/-- A name holds no blanks, so no marker runs over one. -/
theorem marker?_append_blank {b : Char} (hb : isBlank b = true) (text rest : List Char)
    (h : marker? text = none) : marker? (text ++ b :: rest) = none := by
  cases hsome : marker? (text ++ b :: rest) with
  | none => rfl
  | some found =>
    exfalso
    obtain ⟨htext, hname⟩ := marker?_eq_some_iff.mp hsome
    -- the marker and `text` are two beginnings of one text: either is a beginning of the other
    rcases List.append_eq_append_iff.mp htext with ⟨m, hm, hr⟩ | ⟨m, hm, hr⟩
    · cases m with
      | nil =>
        rw [List.append_nil] at hm
        rw [← hm, ← List.append_nil (markerText found.1),
          marker?_eq_some_iff.mpr ⟨rfl, hname⟩] at h
        exact Option.some_ne_none _ h
      | cons d m =>
        -- the blank would stand within the marker
        have hd : b ∈ markerText found.1 := by
          rw [hm, (List.cons.inj hr).1]; exact List.mem_append_right _ List.mem_cons_self
        rw [not_isBlank_of_mem_markerText hname hd] at hb
        exact Bool.false_ne_true hb
    · rw [hm, marker?_eq_some_iff.mpr ⟨rfl, hname⟩] at h
      exact Option.some_ne_none _ h

/-- **A text is cut on the two sides of a blank by itself.** -/
theorem segments_append_blank {b : Char} (hb : isBlank b = true) (text rest : List Char) :
    segments (text ++ b :: rest) = segments text ++ .plain b :: segments rest := by
  have hbang : b ≠ '!' := by rintro rfl; exact absurd hb (by decide)
  induction text using segments.induct with
  | case1 text name r h ih =>
    rw [segments_of_marker h, segments_of_marker (marker?_append h _), ih, List.cons_append]
  | case2 h =>
    rw [List.nil_append, segments_cons (marker?_cons_of_ne hbang rest), segments_nil]
    rfl
  | case3 c text h ih =>
    have hnone : marker? (c :: (text ++ b :: rest)) = none :=
      marker?_append_blank hb (c :: text) rest h
    rw [segments_cons h, List.cons_append, segments_cons hnone, ih, List.cons_append]

theorem flatMap_text_map_plain (tail : List Char) :
    (tail.map Segment.plain).flatMap Segment.text = tail := by
  induction tail with
  | nil => rfl
  | cons c tail ih => rw [List.map_cons, List.flatMap_cons, ih]; rfl

/-- The pieces before a part without markers are the text before it. -/
theorem eq_flatMap_text_of_append_plain {text tail : List Char} {pieces : List Segment}
    (h : segments (text ++ tail) = pieces ++ tail.map .plain) :
    text = pieces.flatMap Segment.text := by
  have hall := flatMap_text_segments (text ++ tail)
  rw [h, List.flatMap_append, flatMap_text_map_plain] at hall
  exact (List.append_cancel_right hall).symm

/-- A part without markers may be taken off the end, and the pieces before it stay. -/
theorem segments_of_append_plain {text tail : List Char} {pieces : List Segment}
    (h : segments (text ++ tail) = pieces ++ tail.map .plain) : segments text = pieces := by
  induction text using segments.induct generalizing pieces with
  | case1 text name rest hm ih =>
    rw [segments_of_marker (marker?_append hm tail)] at h
    rcases List.cons_eq_append_iff.mp h with ⟨-, hplain⟩ | ⟨ps, hps, hrest⟩
    · -- a marker is no plain character
      obtain ⟨c, -, hc⟩ := List.mem_map.mp (hplain ▸ List.mem_cons_self)
      exact absurd hc (by simp)
    · rw [segments_of_marker hm, ih hrest, hps]
  | case2 hm =>
    -- every piece has some text, so there is none
    have hnil := eq_flatMap_text_of_append_plain h
    cases pieces with
    | nil => exact segments_nil
    | cons p ps => cases p <;> exact absurd hnil (by simp [Segment.text, markerText])
  | case3 c text hm ih =>
    have htext := eq_flatMap_text_of_append_plain h
    cases pieces with
    | nil => exact absurd htext (by simp)
    | cons p ps =>
      cases p with
      | marker name =>
        -- the marker stands in the shorter text too, which begins with none
        have hmem : .marker name ∈ segments (c :: text ++ tail) := by
          rw [h]; exact List.mem_append_left _ List.mem_cons_self
        have hname := isMarkerNameChar_of_mem_segments hmem
        rw [htext, List.flatMap_cons, Segment.text, marker?_eq_some_iff.mpr ⟨rfl, hname⟩] at hm
        exact absurd hm (by simp)
      | plain d =>
        obtain ⟨hd, -⟩ := List.cons.inj htext
        subst hd
        rw [List.cons_append] at h
        cases hmore : marker? (c :: (text ++ tail)) with
        | none =>
          rw [segments_cons hmore] at h
          rw [segments_cons hm, ih (List.cons.inj h).2]
        | some found =>
          -- a marker that reaches into the tail would be the first piece
          rw [segments_of_marker hmore] at h
          exact absurd (List.cons.inj h).1 (by simp)

/-- If every exclamation mark of a text is in a marker, no marker begins in it and ends behind. -/
theorem segments_append {text : List Char} (h : .plain '!' ∉ segments text) (tail : List Char) :
    segments (text ++ tail) = segments text ++ segments tail := by
  induction text using segments.induct with
  | case1 text name rest hm ih =>
    rw [segments_of_marker hm] at h ⊢
    rw [segments_of_marker (marker?_append hm tail),
      ih fun hmem => h (List.mem_cons_of_mem _ hmem)]
    rfl
  | case2 hm => rw [segments_nil]; rfl
  | case3 c text hm ih =>
    rw [segments_cons hm] at h ⊢
    have hc : c ≠ '!' := fun heq => h (heq ▸ List.mem_cons_self)
    rw [List.cons_append, segments_cons (marker?_cons_of_ne hc _),
      ih fun hmem => h (List.mem_cons_of_mem _ hmem)]
    rfl

theorem mem_of_plain_mem_segments {text : List Char} {c : Char} (h : .plain c ∈ segments text) :
    c ∈ text := by
  rw [← flatMap_text_segments text]
  exact List.mem_flatMap.mpr ⟨.plain c, h, List.mem_singleton_self c⟩

/-- A piece of a line is a piece of the text. -/
theorem mem_segments_of_mem_lines {text line : List Char} (hline : line ∈ lines text)
    {piece : Segment} (hpiece : piece ∈ segments line) : piece ∈ segments text := by
  induction text using lineInduction with
  | last l hl =>
    rw [lines_of_unbroken hl] at hline
    rwa [List.mem_singleton.mp hline] at hpiece
  | more l b text hl hb ih =>
    rw [lines_append_break hl hb] at hline
    rw [segments_append_blank (isBlank_of_isBreak hb)]
    rcases List.mem_cons.mp hline with h | h
    · rw [h] at hpiece; exact List.mem_append_left _ hpiece
    · exact List.mem_append_right _ (List.mem_cons_of_mem _ (ih h))

/-! ## Substitution -/

theorem mem_markerNames {text name : List Char} :
    name ∈ markerNames text ↔ .marker name ∈ segments text := by
  unfold markerNames
  rw [List.mem_filterMap]
  constructor
  · rintro ⟨piece, hpiece, h⟩
    cases piece with
    | plain c => exact absurd h (by simp)
    | marker n => rw [← Option.some.inj h]; exact hpiece
  · intro h
    exact ⟨.marker name, h, rfl⟩

theorem mem_markerNames_of_mem_lines {text line name : List Char} (hline : line ∈ lines text)
    (h : name ∈ markerNames line) : name ∈ markerNames text :=
  mem_markerNames.mpr (mem_segments_of_mem_lines hline (mem_markerNames.mp h))

/-- A text without markers is cut into single characters. -/
theorem segments_of_markerNames_eq_nil {text : List Char} (h : markerNames text = []) :
    segments text = text.map .plain := by
  have hplain : ∀ piece ∈ segments text, ∃ c, piece = .plain c := by
    intro piece hpiece
    cases piece with
    | plain c => exact ⟨c, rfl⟩
    | marker name =>
      have hname := mem_markerNames.mpr hpiece
      rw [h] at hname
      exact absurd hname List.not_mem_nil
  have hmap : ∀ {pieces : List Segment}, (∀ piece ∈ pieces, ∃ c, piece = .plain c) →
      pieces = (pieces.flatMap Segment.text).map .plain := by
    intro pieces hpieces
    induction pieces with
    | nil => rfl
    | cons piece pieces ih =>
      obtain ⟨c, hc⟩ := hpieces piece List.mem_cons_self
      rw [List.flatMap_cons, List.map_append,
        ← ih fun p hp => hpieces p (List.mem_cons_of_mem _ hp), hc]
      rfl
  conv => lhs; rw [hmap hplain, flatMap_text_segments]

theorem markerNames_eq_nil {text : List Char} (h : '!' ∉ text) : markerNames text = [] := by
  rw [List.eq_nil_iff_forall_not_mem]
  intro name hname
  rw [mem_markerNames, segments_eq_map_plain h] at hname
  obtain ⟨c, -, hc⟩ := List.mem_map.mp hname
  exact absurd hc (by simp)

/-- Without markers there is nothing to substitute. -/
theorem substitute_eq_self (value : List Char → List Char) {text : List Char}
    (h : markerNames text = []) : substitute value text = text := by
  unfold substitute
  rw [segments_of_markerNames_eq_nil h, List.flatMap_map]
  exact List.flatMap_singleton' text

/-- Only the values of the markers that are there matter. -/
theorem substitute_congr {value other : List Char → List Char} {text : List Char}
    (h : ∀ name ∈ markerNames text, other name = value name) :
    substitute other text = substitute value text := by
  unfold substitute
  refine List.flatMap_congr fun piece hpiece => ?_
  cases piece with
  | plain c => rfl
  | marker name => exact h name (mem_markerNames.mpr hpiece)

/-- Every character of a substituted text was a plain one before or comes with a value. -/
theorem mem_substitute {value : List Char → List Char} {text : List Char} {c : Char} :
    c ∈ substitute value text
      ↔ .plain c ∈ segments text ∨ ∃ name ∈ markerNames text, c ∈ value name := by
  unfold substitute
  rw [List.mem_flatMap]
  constructor
  · rintro ⟨piece, hpiece, hc⟩
    cases piece with
    | plain d => rw [List.mem_singleton.mp hc]; exact Or.inl hpiece
    | marker name => exact Or.inr ⟨name, mem_markerNames.mpr hpiece, hc⟩
  · rintro (h | ⟨name, hname, hc⟩)
    · exact ⟨.plain c, h, List.mem_singleton_self c⟩
    · exact ⟨.marker name, mem_markerNames.mp hname, hc⟩

/-- A part behind the markers is left as it is. -/
theorem substitute_append_plain (value : List Char → List Char) {text tail : List Char}
    (h : segments (text ++ tail) = segments text ++ tail.map .plain) :
    substitute value (text ++ tail) = substitute value text ++ tail := by
  unfold substitute
  rw [h, List.flatMap_append, List.flatMap_map]
  exact congrArg _ (List.flatMap_singleton' tail)

/-! ## What stands beside the markers stays -/

section Beside

variable (value : List Char → List Char)

theorem substitute_of_marker {text name rest : List Char} (h : marker? text = some (name, rest)) :
    substitute value text = value name ++ substitute value rest := by
  unfold substitute
  rw [segments_of_marker h, List.flatMap_cons]

theorem substitute_cons {c : Char} {text : List Char} (h : marker? (c :: text) = none) :
    substitute value (c :: text) = c :: substitute value text := by
  unfold substitute
  rw [segments_cons h, List.flatMap_cons]
  rfl

/-- Substitution works on the two sides of a blank by itself. -/
theorem substitute_append_blank {b : Char} (hb : isBlank b = true) (text rest : List Char) :
    substitute value (text ++ b :: rest) = substitute value text ++ b :: substitute value rest := by
  unfold substitute
  rw [segments_append_blank hb, List.flatMap_append, List.flatMap_cons]
  rfl

/-- No marker begins in a text without exclamation marks. -/
theorem segments_append_of_notMem {text : List Char} (h : '!' ∉ text) (rest : List Char) :
    segments (text ++ rest) = text.map .plain ++ segments rest := by
  have hplain : .plain '!' ∉ segments text := by
    rw [segments_eq_map_plain h]
    simpa using h
  rw [segments_append hplain, segments_eq_map_plain h]

theorem substitute_append_of_notMem {text : List Char} (h : '!' ∉ text) (rest : List Char) :
    substitute value (text ++ rest) = text ++ substitute value rest := by
  unfold substitute
  rw [segments_append_of_notMem h, List.flatMap_append, List.flatMap_map]
  exact congrArg (· ++ _) (List.flatMap_singleton' text)

end Beside

theorem markerNames_append_blank {b : Char} (hb : isBlank b = true) (text rest : List Char) :
    markerNames (text ++ b :: rest) = markerNames text ++ markerNames rest := by
  unfold markerNames
  rw [segments_append_blank hb, List.filterMap_append]
  rfl

/-- The markers of a text are those of its lines, in order, also when the lines are changed. -/
theorem markerNames_mapLines (f : List Char → List Char) (text : List Char) :
    markerNames (mapLines f text) = (lines text).flatMap fun line => markerNames (f line) := by
  induction text using lineInduction with
  | last line hline =>
    rw [mapLines_of_unbroken f hline, lines_of_unbroken hline, List.flatMap_cons, List.flatMap_nil,
      List.append_nil]
  | more line b text hline hb ih =>
    rw [mapLines_append_break f hline hb, lines_append_break hline hb, List.flatMap_cons, ← ih,
      markerNames_append_blank (isBlank_of_isBreak hb)]

theorem markerNames_eq_flatMap_lines (text : List Char) :
    markerNames text = (lines text).flatMap markerNames := by
  have h := markerNames_mapLines (fun line => line) text
  rwa [mapLines_eq_self fun _ _ => rfl] at h

theorem markerNames_append_of_notMem {text : List Char} (h : '!' ∉ text) (rest : List Char) :
    markerNames (text ++ rest) = markerNames rest := by
  unfold markerNames
  rw [segments_append_of_notMem h, List.filterMap_append, List.filterMap_map]
  exact congrArg (· ++ _) (List.filterMap_eq_nil_iff.mpr fun _ _ => rfl)

/-! ## Texts without markers -/

/-- Where a text is cut, the cuts behind do not depend on what is before. -/
theorem segments_flatMap_text {text : List Char} {front back : List Segment}
    (h : segments text = front ++ back) : segments (back.flatMap Segment.text) = back := by
  induction text using segments.induct generalizing front with
  | case1 text name rest hm ih =>
    cases front with
    | nil => rw [List.nil_append] at h; rw [← h, flatMap_text_segments]
    | cons p front =>
      rw [segments_of_marker hm, List.cons_append] at h
      exact ih (List.cons.inj h).2
  | case2 hm =>
    rw [segments_nil] at h
    rw [(List.append_eq_nil_iff.mp h.symm).2]
    exact segments_nil
  | case3 c text hm ih =>
    cases front with
    | nil => rw [List.nil_append] at h; rw [← h, flatMap_text_segments]
    | cons p front =>
      rw [segments_cons hm, List.cons_append] at h
      exact ih (List.cons.inj h).2

/-- A text has no markers exactly if none begins at any place of it. -/
theorem markerNames_eq_nil_iff {text : List Char} :
    markerNames text = [] ↔ ∀ u, u <:+ text → marker? u = none := by
  constructor
  · rintro h u ⟨before, rfl⟩
    cases hm : marker? u with
    | none => rfl
    | some found =>
      have hplain := segments_of_markerNames_eq_nil h
      rw [List.map_append] at hplain
      have hcut := segments_flatMap_text hplain
      rw [flatMap_text_map_plain, segments_of_marker hm] at hcut
      cases u with
      | nil => exact absurd hcut (by simp)
      | cons c u => exact absurd (List.cons.inj hcut).1 (by simp)
  · intro h
    rw [List.eq_nil_iff_forall_not_mem]
    intro name hname
    obtain ⟨front, back, hsplit⟩ := List.append_of_mem (mem_markerNames.mp hname)
    have hchars := isMarkerNameChar_of_mem_segments (mem_markerNames.mp hname)
    have htext := flatMap_text_segments text
    rw [hsplit, List.flatMap_append, List.flatMap_cons] at htext
    have hnone := h _ ⟨_, htext⟩
    rw [Segment.text, marker?_eq_some_iff.mpr ⟨rfl, hchars⟩] at hnone
    exact absurd hnone (by simp)

/-- No marker begins within another one and outside its beginning, because the name of a marker
holds no brace. -/
theorem eq_nil_of_marker?_within {name before inner rest : List Char}
    (hname : ∀ c ∈ name, isMarkerNameChar c = true) (hcut : markerText name = before ++ inner)
    (hne : inner ≠ []) (h : (marker? (inner ++ rest)).isSome) : before = [] := by
  obtain ⟨found, hfound⟩ := Option.isSome_iff_exists.mp h
  have htext := (marker?_eq_some_iff.mp hfound).1
  obtain ⟨i, inner, rfl⟩ := List.exists_cons_of_ne_nil hne
  have hi : i = '!' := (List.cons.inj htext).1
  subst hi
  cases before with
  | nil => rfl
  | cons b before =>
    exfalso
    have htail : '{' :: '*' :: (name ++ ['}']) = before ++ '!' :: inner := (List.cons.inj hcut).2
    cases before with
    | nil => exact absurd (List.cons.inj htail).1 (by decide)
    | cons b' before =>
      have hrest : '*' :: (name ++ ['}']) = before ++ '!' :: inner := (List.cons.inj htail).2
      cases inner with
      | nil =>
        -- the marker ends in a closing brace
        have hlast := congrArg List.getLast? hrest
        rw [← List.cons_append, List.getLast?_append, List.getLast?_append] at hlast
        exact absurd hlast (by simp)
      | cons c inner =>
        have hc : c = '{' := (List.cons.inj (List.cons.inj htext).2).1
        have hmem : '{' ∈ '*' :: (name ++ ['}']) := by
          rw [hrest, hc]
          exact List.mem_append_right _ (List.mem_cons_of_mem _ List.mem_cons_self)
        have hmem : '{' ∈ name := by simpa using hmem
        exact absurd (hname _ hmem) (by decide)

/-- **What begins with a marker at any place of a text is one of its markers.** -/
theorem mem_markerNames_of_suffix {text u name rest : List Char} (hu : u <:+ text)
    (h : marker? u = some (name, rest)) : name ∈ markerNames text := by
  rw [mem_markerNames]
  induction text using segments.induct with
  | case1 text n r hm ih =>
    rw [segments_of_marker hm]
    obtain ⟨htext, hn⟩ := marker?_eq_some_iff.mp hm
    obtain ⟨before, hbefore⟩ := hu
    rw [htext] at hbefore
    rcases List.append_eq_append_iff.mp hbefore with ⟨inner, hcut, hinner⟩ | ⟨between, -, hr⟩
    · by_cases hne : inner = []
      · refine List.mem_cons_of_mem _ (ih ?_)
        rw [hinner, hne]
        exact List.suffix_rfl
      · -- it begins within the first marker, so it is the first marker
        have hnil : before = [] :=
          eq_nil_of_marker?_within hn hcut hne (by rw [← hinner, h]; rfl)
        have hwhole : u = text := by rw [htext, ← hbefore, hnil, List.nil_append]
        rw [hwhole, hm] at h
        rw [(Prod.mk.inj (Option.some.inj h)).1]
        exact List.mem_cons_self
    · exact List.mem_cons_of_mem _ (ih ⟨between, hr.symm⟩)
  | case2 hm =>
    rw [List.suffix_nil.mp hu] at h
    exact absurd h (by simp [marker?])
  | case3 c text hm ih =>
    rw [segments_cons hm]
    rcases List.suffix_cons_iff.mp hu with rfl | hu
    · rw [hm] at h
      exact absurd h (by simp)
    · exact List.mem_cons_of_mem _ (ih hu)

/-- The markers of a part of a text are markers of the text. -/
theorem mem_markerNames_of_isInfix {part text name : List Char} (hpart : part <:+: text)
    (h : name ∈ markerNames part) : name ∈ markerNames text := by
  have hname := isMarkerNameChar_of_mem_segments (mem_markerNames.mp h)
  obtain ⟨front, back, hsplit⟩ := List.append_of_mem (mem_markerNames.mp h)
  have hcut := flatMap_text_segments part
  rw [hsplit, List.flatMap_append, List.flatMap_cons] at hcut
  obtain ⟨before, after, rfl⟩ := hpart
  have hsuffix : markerText name ++ (back.flatMap Segment.text ++ after)
      <:+ before ++ part ++ after := by
    refine ⟨before ++ front.flatMap Segment.text, ?_⟩
    rw [← hcut]
    simp only [Segment.text, List.append_assoc]
  exact mem_markerNames_of_suffix hsuffix (marker?_eq_some_iff.mpr ⟨rfl, hname⟩)

/-- A part of a text without markers has none. -/
theorem markerNames_of_isInfix {part text : List Char} (hpart : part <:+: text)
    (h : markerNames text = []) : markerNames part = [] := by
  rw [List.eq_nil_iff_forall_not_mem] at h ⊢
  exact fun name hname => h name (mem_markerNames_of_isInfix hpart hname)

/-- A marker has an opening brace. -/
theorem markerNames_eq_nil_of_brace {text : List Char} (h : '{' ∉ text) : markerNames text = [] := by
  rw [markerNames_eq_nil_iff]
  rintro u ⟨before, rfl⟩
  cases hm : marker? u with
  | none => rfl
  | some found =>
    refine absurd (List.mem_append_right before ?_) h
    rw [(marker?_eq_some_iff.mp hm).1]
    exact List.mem_cons_of_mem _ List.mem_cons_self

end DesignTokens.Alias
