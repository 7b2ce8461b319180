import DesignTokens.Alias.Anchor
import DesignTokens.Proofs.Text.Blank
import DesignTokens.Proofs.Text.Lines

/-!
# Where the definitions of a text are

A definition that is found in a line is a way to cut the line, and a line with one ampersand, where
a name and a space follow it, defines that name:

* `line_of_find?`: the parts of a definition that is found are the line;
* `find?_eq_some`: a definition without an ampersand before it is found;
* `find?_eq_none`: without an ampersand there is none.
-/

namespace DesignTokens.Alias

open Text

namespace Definition

/-- What a definition takes of its line: from the ampersand to the end. -/
def matched (d : Definition) : List Char :=
  '&' :: d.name ++ ' ' :: d.rest

theorem line_eq (d : Definition) : d.line = d.before ++ d.matched := by
  unfold line matched
  rw [List.append_assoc]

/-! ## Finding a definition -/

theorem body?_eq_some_iff {text name rest : List Char} :
    body? text = some (name, rest)
      ↔ text = name ++ ' ' :: rest ∧ ∀ c ∈ name, isBlank c = false := by
  constructor
  · intro h
    unfold body? at h
    split at h
    · rename_i r hr
      obtain ⟨hname, hrest⟩ := Prod.mk.inj (Option.some.inj h)
      subst hname hrest
      refine ⟨?_, fun c hc => by simpa using List.mem_takeWhile_imp hc⟩
      rw [← hr]
      exact List.takeWhile_append_dropWhile.symm
    · exact absurd h (by simp)
  · rintro ⟨rfl, hname⟩
    have hpos : ∀ c ∈ name, (!isBlank c) = true := fun c hc => by rw [hname c hc]; rfl
    have hstop : ∀ c ∈ (' ' :: rest).head?, (!isBlank c) = false := fun | _, rfl => rfl
    have hdrop : (name ++ ' ' :: rest).dropWhile (fun c => !isBlank c) = ' ' :: rest :=
      dropWhile_append_stop hpos hstop
    have htake : (name ++ ' ' :: rest).takeWhile (fun c => !isBlank c) = name :=
      takeWhile_append_stop hpos hstop
    simp only [body?, hdrop, htake]

/-- A definition takes what its name and its value are, because the name ends at a space. -/
theorem eq_of_matched_eq {d e : Definition} (h : d.matched = e.matched)
    (hd : ∀ c ∈ d.name, isBlank c = false) (he : ∀ c ∈ e.name, isBlank c = false) :
    d.name = e.name ∧ d.rest = e.rest := by
  have hbody : some (d.name, d.rest) = some (e.name, e.rest) := by
    rw [← body?_eq_some_iff.mpr ⟨rfl, hd⟩, ← body?_eq_some_iff.mpr ⟨rfl, he⟩]
    exact congrArg body? (List.cons.inj h).2
  exact Prod.mk.inj (Option.some.inj hbody)

theorem find?_cons_of_ne {c : Char} (h : c ≠ '&') (text : List Char) :
    find? (c :: text) = (find? text).map fun d => { d with before := c :: d.before } := by
  rw [find?, if_neg h]

/-- Without an ampersand there is no definition. -/
theorem find?_eq_none {line : List Char} (h : '&' ∉ line) : find? line = none := by
  induction line with
  | nil => rfl
  | cons c line ih =>
    rw [find?_cons_of_ne fun hc => h (hc ▸ List.mem_cons_self),
      ih fun hm => h (List.mem_cons_of_mem _ hm)]
    rfl

/-- The parts of a definition that is found are the line, and its name holds no blanks. -/
theorem line_of_find? {line : List Char} {d : Definition} (h : find? line = some d) :
    d.line = line ∧ ∀ c ∈ d.name, isBlank c = false := by
  induction line generalizing d with
  | nil => exact absurd h (by simp [find?])
  | cons c line ih =>
    rw [find?] at h
    split at h
    · rename_i name rest hbody
      rw [← Option.some.inj h]
      split at hbody
      · rename_i hc
        obtain ⟨htext, hname⟩ := body?_eq_some_iff.mp hbody
        refine ⟨?_, hname⟩
        rw [hc, htext]
        rfl
      · exact absurd hbody (by simp)
    · -- no definition begins here, so one is found further on
      obtain ⟨d', hd', hd⟩ := Option.map_eq_some_iff.mp h
      obtain ⟨hline, hname⟩ := ih hd'
      rw [← hd]
      exact ⟨by rw [← hline]; rfl, hname⟩

/-- A definition with no ampersand before it is found. -/
theorem find?_eq_some {d : Definition} (hbefore : '&' ∉ d.before)
    (hname : ∀ c ∈ d.name, isBlank c = false) : find? d.line = some d := by
  obtain ⟨before, name, rest⟩ := d
  rw [line_eq]
  induction before with
  | nil =>
    have hbody : body? (name ++ ' ' :: rest) = some (name, rest) :=
      body?_eq_some_iff.mpr ⟨rfl, hname⟩
    show find? ('&' :: (name ++ ' ' :: rest)) = _
    rw [find?, if_pos rfl, hbody]
  | cons c before ih =>
    have hc : c ≠ '&' := fun heq => hbefore (heq ▸ List.mem_cons_self)
    have hfind := ih (fun hm => hbefore (List.mem_cons_of_mem _ hm)) hname
    show find? (c :: (before ++ matched ⟨before, name, rest⟩)) = _
    rw [find?_cons_of_ne hc, hfind]
    rfl

/-- What is behind a space does not decide whether a name and a space come first. -/
theorem body?_eq_none_of_space {text rest : List Char} (h : body? (text ++ ' ' :: rest) = none)
    (other : List Char) : body? (text ++ ' ' :: other) = none := by
  cases hbody : body? (text ++ ' ' :: other) with
  | none => rfl
  | some found =>
    obtain ⟨htext, hname⟩ := body?_eq_some_iff.mp hbody
    -- the name ends at the space or before it
    have hsome : ∃ more, text ++ ' ' :: rest = found.1 ++ ' ' :: more := by
      rcases List.append_eq_append_iff.mp htext with ⟨m, hm, hr⟩ | ⟨m, hm, hr⟩
      · cases m with
        | nil => exact ⟨rest, by rw [hm, List.append_nil]⟩
        | cons c m =>
          have hmem : ' ' ∈ found.1 := by
            rw [hm, (List.cons.inj hr).1]
            exact List.mem_append_right _ List.mem_cons_self
          exact absurd (hname _ hmem) (by decide)
      · cases m with
        | nil => exact ⟨rest, by rw [hm, List.append_nil]⟩
        | cons c m =>
          refine ⟨m ++ ' ' :: rest, ?_⟩
          rw [hm, ← (List.cons.inj hr).1, List.append_assoc, List.cons_append]
    obtain ⟨more, hmore⟩ := hsome
    rw [hmore, body?_eq_some_iff.mpr ⟨rfl, hname⟩] at h
    exact absurd h (by simp)

/-- Whether a text begins with a definition. -/
def begins : List Char → Bool
  | '&' :: text => (body? text).isSome
  | _ => false

theorem begins_iff {text : List Char} :
    begins text = true
      ↔ ∃ name rest, text = '&' :: (name ++ ' ' :: rest) ∧ ∀ c ∈ name, isBlank c = false := by
  constructor
  · intro h
    unfold begins at h
    split at h
    · obtain ⟨⟨name, rest⟩, hbody⟩ := Option.isSome_iff_exists.mp h
      obtain ⟨htext, hname⟩ := body?_eq_some_iff.mp hbody
      exact ⟨name, rest, by rw [htext], hname⟩
    · exact absurd h Bool.false_ne_true
  · rintro ⟨name, rest, rfl, hname⟩
    rw [begins, body?_eq_some_iff.mpr ⟨rfl, hname⟩]
    rfl

theorem begins_append {text : List Char} (h : begins text = true) (more : List Char) :
    begins (text ++ more) = true := by
  obtain ⟨name, rest, rfl, hname⟩ := begins_iff.mp h
  refine begins_iff.mpr ⟨name, rest ++ more, ?_, hname⟩
  rw [List.cons_append, List.append_assoc, List.cons_append]

/-- Where a definition could begin, one is found there or further to the left. -/
theorem exists_find? {line text : List Char} (hsuffix : text <:+ line)
    (hbegins : begins text = true) :
    ∃ d, find? line = some d ∧ text.length ≤ d.matched.length := by
  obtain ⟨name, rest, rfl, hname⟩ := begins_iff.mp hbegins
  induction line with
  | nil => exact absurd (List.suffix_nil.mp hsuffix) (by simp)
  | cons c line ih =>
    rcases List.suffix_cons_iff.mp hsuffix with heq | hsuffix
    · obtain ⟨rfl, rfl⟩ := List.cons.inj heq
      have hbody : body? (name ++ ' ' :: rest) = some (name, rest) :=
        body?_eq_some_iff.mpr ⟨rfl, hname⟩
      exact ⟨⟨[], name, rest⟩, by rw [find?, if_pos rfl, hbody], Nat.le_refl _⟩
    · obtain ⟨d, hd, hlength⟩ := ih hsuffix
      rw [find?]
      split
      · -- one begins here already, and it takes all of the line
        rename_i name' rest' hhere
        split at hhere
        · refine ⟨⟨[], name', rest'⟩, rfl, ?_⟩
          have hline : line = name' ++ ' ' :: rest' := (body?_eq_some_iff.mp hhere).1
          have hlength := hsuffix.length_le
          show _ ≤ ('&' :: (name' ++ ' ' :: rest')).length
          rw [← hline]
          exact Nat.le_succ_of_le hlength
        · exact absurd hhere (by simp)
      · exact ⟨{ d with before := c :: d.before }, by rw [hd]; rfl, hlength⟩

/-- Where none begins, one is looked for further to the right. -/
theorem find?_cons_of_none {c : Char} {text : List Char} (h : c = '&' → body? text = none) :
    find? (c :: text) = (find? text).map fun d => { d with before := c :: d.before } := by
  have hnone : (if c = '&' then body? text else none) = none := by
    by_cases hc : c = '&'
    · rw [if_pos hc, h hc]
    · rw [if_neg hc]
  rw [find?, hnone]

/-- A definition is found where it is, whatever its value. -/
theorem find?_with_rest {before name rest : List Char}
    (h : find? (line ⟨before, name, rest⟩) = some ⟨before, name, rest⟩) (other : List Char) :
    find? (line ⟨before, name, other⟩) = some ⟨before, name, other⟩ := by
  have hname := (line_of_find? h).2
  induction before with
  | nil => exact @find?_eq_some ⟨[], name, other⟩ List.not_mem_nil hname
  | cons c before ih =>
    have hcut : ∀ r, line ⟨c :: before, name, r⟩ = c :: (before ++ '&' :: name ++ ' ' :: r) :=
      fun r => rfl
    rw [hcut] at h ⊢
    have hnone : c = '&' → body? (before ++ '&' :: name ++ ' ' :: rest) = none := by
      rintro rfl
      cases hbody : body? (before ++ '&' :: name ++ ' ' :: rest) with
      | none => rfl
      | some found =>
        -- the definition would begin with the line
        rw [find?, if_pos rfl, hbody] at h
        exact absurd (congrArg Definition.before (Option.some.inj h)) (by simp)
    rw [find?_cons_of_none hnone] at h
    obtain ⟨d, hd, heq⟩ := Option.map_eq_some_iff.mp h
    obtain ⟨b, n, r⟩ := d
    obtain ⟨hb, rfl, rfl⟩ : c :: b = c :: before ∧ n = name ∧ r = rest := by simpa using heq
    obtain rfl := (List.cons.inj hb).2
    rw [find?_cons_of_none fun hc => body?_eq_none_of_space (hnone hc) other]
    exact congrArg (Option.map _) (ih hd hname)

end Definition

/-! ## Pointers -/

/-- The name a pointer holds is a word of its value. -/
theorem pointerTarget?_spec {value target : List Char} (h : pointerTarget? value = some target) :
    target ≠ [] ∧ (∀ c ∈ target, isBlank c = false) ∧ ∀ c ∈ target, c ∈ value := by
  unfold pointerTarget? at h
  split at h
  · rename_i rest hrest
    obtain ⟨hne, hblank, hmem⟩ := firstWord?_spec h
    refine ⟨hne, hblank, fun c hc => mem_of_mem_trimStart ?_⟩
    rw [hrest]
    exact List.mem_cons_of_mem _ (hmem c hc)
  · exact absurd h (by simp)

/-- A text that begins with a character other than a star is no pointer. -/
theorem pointerTarget?_cons_of_ne {c : Char} (hblank : isBlank c = false) (h : c ≠ '*')
    (text : List Char) : pointerTarget? (c :: text) = none := by
  unfold pointerTarget?
  rw [trimStart_cons hblank]
  split
  · rename_i heq
    exact absurd (List.cons.inj heq).1 h
  · rfl

/-- The name a pointer holds stands in its value, all of it in one place. -/
theorem pointerTarget?_isInfix {value target : List Char} (h : pointerTarget? value = some target) :
    target <:+: value := by
  unfold pointerTarget? at h
  split at h
  · rename_i rest hrest
    have hsuffix : '*' :: rest <:+ value := hrest ▸ List.dropWhile_suffix isBlank
    exact (firstWord?_isInfix h).trans ((List.suffix_cons '*' rest).trans hsuffix).isInfix
  · exact absurd h (by simp)

/-- A pointer stays one when more text follows. -/
theorem isSome_pointerTarget?_append {value : List Char} (h : (pointerTarget? value).isSome)
    (more : List Char) : (pointerTarget? (value ++ more)).isSome := by
  unfold pointerTarget? at h
  split at h
  · rename_i rest hrest
    have hstart : trimStart (value ++ more) = '*' :: (rest ++ more) := by
      unfold trimStart at hrest ⊢
      rw [List.dropWhile_append, hrest]
      rfl
    obtain ⟨c, hc, hblank⟩ := isSome_firstWord?_iff.mp h
    unfold pointerTarget?
    rw [hstart]
    exact isSome_firstWord?_iff.mpr ⟨c, List.mem_append_left _ hc, hblank⟩
  · exact absurd h (by simp)

/-- What is trimmed off the end of a value does not decide whether it is a pointer. -/
theorem isSome_pointerTarget?_trimEnd {rest : List Char} :
    (pointerTarget? (trimEnd rest)).isSome ↔ (pointerTarget? rest).isSome := by
  have hcut : trimEnd rest ++ rest.rtakeWhile isBlank = rest := List.rdropWhile_append_rtakeWhile
  constructor
  · intro h
    rw [← hcut]
    exact isSome_pointerTarget?_append h _
  · intro h
    unfold pointerTarget? at h
    split at h
    · rename_i more hmore
      obtain ⟨c, hc, hblank⟩ := isSome_firstWord?_iff.mp h
      have hblanks : ∀ b ∈ rest.rtakeWhile isBlank, isBlank b = true :=
        fun b hb => List.mem_rtakeWhile_imp hb
      generalize trimEnd rest = kept, rest.rtakeWhile isBlank = blanks at hcut hblanks ⊢
      subst hcut
      unfold trimStart at hmore
      rw [List.dropWhile_append] at hmore
      split at hmore
      · -- the star is no blank, so something is left before the blanks
        rw [List.dropWhile_eq_nil_iff.mpr hblanks] at hmore
        exact absurd hmore (by simp)
      · rename_i hkept
        rcases List.append_eq_cons_iff.mp hmore with ⟨hnil, -⟩ | ⟨word, hword, rfl⟩
        · rw [hnil] at hkept
          exact absurd rfl hkept
        · have hmem : c ∈ word := by
            rcases List.mem_append.mp hc with hc | hc
            · exact hc
            · rw [hblanks c hc] at hblank
              exact absurd hblank (by decide)
          unfold pointerTarget? trimStart
          rw [hword]
          exact isSome_firstWord?_iff.mpr ⟨c, hmem, hblank⟩
    · exact absurd h (by simp)

/-! ## The anchors of a text -/

namespace Anchors

/-- The anchors of a text are those of its lines. -/
theorem mem_ofText {text : List Char} {a : Anchor} :
    a ∈ ofText text
      ↔ ∃ line ∈ lines text, ∃ d, Definition.find? line = some d ∧ a = ⟨d.name, d.value⟩ := by
  unfold ofText
  rw [List.mem_filterMap]
  constructor
  · rintro ⟨line, hline, h⟩
    obtain ⟨d, hd, ha⟩ := Option.map_eq_some_iff.mp h
    exact ⟨line, hline, d, hd, ha.symm⟩
  · rintro ⟨line, hline, d, hd, ha⟩
    exact ⟨line, hline, by rw [hd, ha]; rfl⟩

/-- The anchors of a text are those of its first line and those of the text behind it. -/
theorem ofText_append_break {line : List Char} (hline : Unbroken line) {b : Char}
    (hb : isBreak b = true) (text : List Char) :
    ofText (line ++ b :: text) = ofText line ++ ofText text := by
  unfold ofText
  rw [lines_append_break hline hb, lines_of_unbroken hline, ← List.filterMap_append,
    List.singleton_append]

/-- A line holds at most one definition. -/
theorem ofText_of_unbroken {line : List Char} (hline : Unbroken line) :
    ofText line = ((Definition.find? line).map fun d => ⟨d.name, d.value⟩).toList := by
  unfold ofText
  rw [lines_of_unbroken hline]
  cases hd : Definition.find? line <;> simp [hd]

theorem ofText_eq_flatMap_lines (text : List Char) : ofText text = (lines text).flatMap ofText := by
  induction text using lineInduction with
  | last line hline =>
    rw [lines_of_unbroken hline, List.flatMap_cons, List.flatMap_nil, List.append_nil]
  | more line b text hline hb ih =>
    rw [ofText_append_break hline hb, lines_append_break hline hb, List.flatMap_cons, ← ih]

theorem mem_of_last? {anchors : Anchors} {name : List Char} {a : Anchor}
    (h : anchors.last? name = some a) : a ∈ anchors :=
  List.mem_reverse.mp (List.mem_of_find?_eq_some h)

theorem mem_of_first? {anchors : Anchors} {name value : List Char}
    (h : anchors.first? name = some value) : ∃ a ∈ anchors, a.name = name ∧ a.value = value := by
  obtain ⟨a, ha, hv⟩ := Option.map_eq_some_iff.mp h
  exact ⟨a, List.mem_of_find?_eq_some ha, by simpa using List.find?_some ha, hv⟩

/-- The last definition of a name has no other definition of that name behind it. -/
theorem last?_append_cons {earlier later : Anchors} {a : Anchor}
    (h : ∀ b ∈ later, b.name ≠ a.name) : last? (earlier ++ a :: later) a.name = some a := by
  unfold last?
  rw [List.reverse_append, List.reverse_cons, List.find?_append, List.find?_append]
  have hnone : later.reverse.find? (fun b => decide (b.name = a.name)) = none := by
    rw [List.find?_eq_none]
    intro b hb
    rw [decide_eq_true_eq]
    exact h b (List.mem_reverse.mp hb)
  rw [hnone]
  simp

theorem last?_eq_none {anchors : Anchors} {name : List Char}
    (h : ∀ a ∈ anchors, a.name ≠ name) : anchors.last? name = none := by
  unfold last?
  rw [List.find?_eq_none]
  intro a ha
  rw [decide_eq_true_eq]
  exact h a (List.mem_reverse.mp ha)

end Anchors

end DesignTokens.Alias
