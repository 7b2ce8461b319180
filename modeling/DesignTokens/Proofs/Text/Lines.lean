import DesignTokens.Text.Blank
import DesignTokens.Text.Lines

/-!
# Lines, put together and taken apart

A text is determined by its lines and its breaks, and every choice of lines without breaks is the
lines of some text. So a function that keeps lines free of breaks acts on each line by itself:

* `joinLines_lines`: the lines and the breaks of a text put together are the text;
* `lineInduction`: a text is a line, or a line with a break and a text behind it;
* `lines_mapLines`, `breaks_mapLines`: what `mapLines` does, seen through the two views.
-/

namespace DesignTokens.Text

/-- A piece of a text that could be one of its lines. -/
def Unbroken (line : List Char) : Prop := ∀ c ∈ line, isBreak c = false

instance (line : List Char) : Decidable (Unbroken line) :=
  decidable_of_iff (line.all fun c => !isBreak c) (by simp [Unbroken])

theorem isBlank_of_isBreak {c : Char} (h : isBreak c = true) : isBlank c = true := by
  unfold isBreak at h
  rw [Bool.or_eq_true, beq_iff_eq, beq_iff_eq] at h
  rcases h with h | h <;> (subst h; decide)

/-! ## Taking a text apart -/

theorem lines_ne_nil (text : List Char) : lines text ≠ [] :=
  List.splitOnP_ne_nil isBreak text

/-- A line without breaks in front of a break is the first line. -/
theorem lines_append_break {line : List Char} (hline : Unbroken line) {b : Char}
    (hb : isBreak b = true) (text : List Char) :
    lines (line ++ b :: text) = line :: lines text :=
  List.splitOnP_append_cons_of_forall_mem hline b hb text

/-- A text without breaks is one line. -/
theorem lines_of_unbroken {line : List Char} (hline : Unbroken line) : lines line = [line] :=
  List.splitOnP_eq_singleton hline

theorem breaks_append_break {line : List Char} (hline : Unbroken line) {b : Char}
    (hb : isBreak b = true) (text : List Char) :
    breaks (line ++ b :: text) = b :: breaks text := by
  have hnone : line.filter isBreak = [] :=
    List.filter_eq_nil_iff.mpr fun c hc => by rw [hline c hc]; exact Bool.false_ne_true
  unfold breaks
  rw [List.filter_append, hnone, List.nil_append, List.filter_cons_of_pos hb]

theorem breaks_of_unbroken {line : List Char} (hline : Unbroken line) : breaks line = [] :=
  List.filter_eq_nil_iff.mpr fun c hc => by rw [hline c hc]; exact Bool.false_ne_true

/-- **Every text is a line, or a line and a break in front of a text.** The induction that the
rest of the development uses on texts. -/
theorem lineInduction {motive : List Char → Prop}
    (last : ∀ line, Unbroken line → motive line)
    (more : ∀ line b text, Unbroken line → isBreak b = true → motive text →
      motive (line ++ b :: text)) :
    ∀ text, motive text := by
  intro text
  -- the line read so far is carried along, so that the induction can be on the text
  suffices h : ∀ line, Unbroken line → motive (line ++ text) from h [] (by simp [Unbroken])
  induction text with
  | nil => intro line hline; rw [List.append_nil]; exact last line hline
  | cons c text ih =>
    intro line hline
    cases hc : isBreak c with
    | true => exact more line c text hline hc (ih [] (by simp [Unbroken]))
    | false =>
      have hsnoc : Unbroken (line ++ [c]) := by
        intro d hd
        rcases List.mem_append.mp hd with hd | hd
        · exact hline d hd
        · rw [List.mem_singleton.mp hd]; exact hc
      have := ih (line ++ [c]) hsnoc
      rwa [List.append_assoc] at this

theorem unbroken_of_mem_lines {text : List Char} : ∀ line ∈ lines text, Unbroken line := by
  induction text using lineInduction with
  | last line hline =>
    rw [lines_of_unbroken hline]
    intro l hl
    rw [List.mem_singleton.mp hl]
    exact hline
  | more line b text hline hb ih =>
    rw [lines_append_break hline hb]
    intro l hl
    rcases List.mem_cons.mp hl with hl | hl
    · rw [hl]; exact hline
    · exact ih l hl

/-- What stands in a text and is not a break stands in one of its lines. -/
theorem exists_line_of_mem {text : List Char} {c : Char} (hc : c ∈ text)
    (hb : isBreak c = false) : ∃ line ∈ lines text, c ∈ line := by
  induction text using lineInduction with
  | last l hl => exact ⟨l, by rw [lines_of_unbroken hl]; exact List.mem_singleton_self l, hc⟩
  | more l b text hl hbreak ih =>
    rw [lines_append_break hl hbreak]
    rcases List.mem_append.mp hc with h | h
    · exact ⟨l, List.mem_cons_self, h⟩
    · rcases List.mem_cons.mp h with h | h
      · rw [h, hbreak] at hb; exact absurd hb (by decide)
      · obtain ⟨line, hline, hmem⟩ := ih h
        exact ⟨line, List.mem_cons_of_mem _ hline, hmem⟩

/-! ## Putting a text together -/

/-- The lines and the breaks of a text, put together, are the text. -/
theorem joinLines_lines (text : List Char) : joinLines (lines text) (breaks text) = text := by
  induction text using lineInduction with
  | last line hline => rw [lines_of_unbroken hline]; rfl
  | more line b text hline hb ih =>
    rw [lines_append_break hline hb, breaks_append_break hline hb]
    obtain ⟨l, ls, hls⟩ := List.exists_cons_of_ne_nil (lines_ne_nil text)
    rw [hls] at ih ⊢
    rw [joinLines, ih]
    exact List.cons_ne_nil l ls

theorem mapLines_of_unbroken (f : List Char → List Char) {line : List Char}
    (hline : Unbroken line) : mapLines f line = f line := by
  unfold mapLines
  rw [lines_of_unbroken hline]
  rfl

/-- `mapLines` goes on behind the first break. -/
theorem mapLines_append_break (f : List Char → List Char) {line : List Char}
    (hline : Unbroken line) {b : Char} (hb : isBreak b = true) (text : List Char) :
    mapLines f (line ++ b :: text) = f line ++ b :: mapLines f text := by
  unfold mapLines
  rw [lines_append_break hline hb, breaks_append_break hline hb]
  obtain ⟨l, ls, hls⟩ := List.exists_cons_of_ne_nil (lines_ne_nil text)
  rw [hls, List.map_cons, List.map_cons, joinLines]
  exact List.cons_ne_nil _ _

/-! ## Texts side by side -/

/-- A break ends a line, whatever is before it. -/
theorem lines_append_cons (front : List Char) {b : Char} (hb : isBreak b = true)
    (text : List Char) : lines (front ++ b :: text) = lines front ++ lines text :=
  List.splitOnP_append_cons front text hb

theorem mapLines_append_cons (f : List Char → List Char) (front : List Char) {b : Char}
    (hb : isBreak b = true) (text : List Char) :
    mapLines f (front ++ b :: text) = mapLines f front ++ b :: mapLines f text := by
  induction front using lineInduction with
  | last line hline => rw [mapLines_append_break f hline hb, mapLines_of_unbroken f hline]
  | more line c front hline hc ih =>
    rw [List.append_assoc, List.cons_append, mapLines_append_break f hline hc, ih,
      mapLines_append_break f hline hc, List.append_assoc, List.cons_append]

/-- A text that ends where a line ends, so that a text behind it begins with a line of its own. -/
def EndsLine (text : List Char) : Prop :=
  text = [] ∨ ∃ body, text = body ++ ['\n']

section EndsLine

variable {front : List Char} (hfront : EndsLine front)

include hfront

/-- What is collected from the lines of two texts, where an empty line gives nothing. -/
theorem flatMap_lines_append {α : Type} {g : List Char → List α} (hg : g [] = [])
    (back : List Char) :
    (lines (front ++ back)).flatMap g = (lines front).flatMap g ++ (lines back).flatMap g := by
  have hempty : (lines []).flatMap g = [] := by
    rw [lines_of_unbroken (by simp [Unbroken]), List.flatMap_cons, hg]
    rfl
  rcases hfront with rfl | ⟨body, rfl⟩
  · rw [hempty, List.nil_append, List.nil_append]
  · rw [List.append_assoc, List.singleton_append, lines_append_cons body rfl,
      lines_append_cons body rfl, List.flatMap_append, List.flatMap_append, hempty, List.append_nil]

theorem mapLines_append {f : List Char → List Char} (hf : f [] = []) (back : List Char) :
    mapLines f (front ++ back) = mapLines f front ++ mapLines f back := by
  have hempty : mapLines f [] = [] := by
    rw [mapLines_of_unbroken f (by simp [Unbroken]), hf]
  rcases hfront with rfl | ⟨body, rfl⟩
  · rw [hempty, List.nil_append, List.nil_append]
  · rw [List.append_assoc, List.singleton_append, mapLines_append_cons f body rfl,
      mapLines_append_cons f body rfl, hempty, List.append_assoc, List.singleton_append]

end EndsLine

/-- Lines joined with line feeds are the lines of the joined text. -/
theorem lines_intercalate {ls : List (List Char)} (hne : ls ≠ []) (hls : ∀ l ∈ ls, Unbroken l) :
    lines (['\n'].intercalate ls) = ls := by
  induction ls with
  | nil => exact absurd rfl hne
  | cons l ls ih =>
    have hl := hls l List.mem_cons_self
    by_cases hnil : ls = []
    · rw [hnil, List.intercalate_singleton, lines_of_unbroken hl]
    · rw [List.intercalate_cons_of_ne_nil hnil, List.append_assoc, List.singleton_append,
        lines_append_break hl rfl, ih hnil fun l' h => hls l' (List.mem_cons_of_mem _ h)]

theorem mapLines_intercalate (f : List Char → List Char) {ls : List (List Char)} (hne : ls ≠ [])
    (hls : ∀ l ∈ ls, Unbroken l) :
    mapLines f (['\n'].intercalate ls) = ['\n'].intercalate (ls.map f) := by
  induction ls with
  | nil => exact absurd rfl hne
  | cons l ls ih =>
    have hl := hls l List.mem_cons_self
    by_cases hnil : ls = []
    · rw [hnil, List.intercalate_singleton, mapLines_of_unbroken f hl, List.map_cons, List.map_nil,
        List.intercalate_singleton]
    · have hmap : ls.map f ≠ [] := fun h => hnil (List.map_eq_nil_iff.mp h)
      rw [List.intercalate_cons_of_ne_nil hnil, List.append_assoc, List.singleton_append,
        mapLines_append_break f hl rfl, ih hnil fun l' h => hls l' (List.mem_cons_of_mem _ h),
        List.map_cons, List.intercalate_cons_of_ne_nil hmap, List.append_assoc,
        List.singleton_append]

section Preserving

variable {f : List Char → List Char} {text : List Char}

theorem lines_mapLines (hf : ∀ line ∈ lines text, Unbroken (f line)) :
    lines (mapLines f text) = (lines text).map f := by
  induction text using lineInduction with
  | last line hline =>
    rw [lines_of_unbroken hline] at hf ⊢
    rw [mapLines_of_unbroken f hline, lines_of_unbroken (hf line (List.mem_singleton_self line))]
    rfl
  | more line b text hline hb ih =>
    rw [lines_append_break hline hb] at hf ⊢
    rw [mapLines_append_break f hline hb, lines_append_break (hf line List.mem_cons_self) hb,
      ih fun l hl => hf l (List.mem_cons_of_mem _ hl)]
    rfl

theorem breaks_mapLines (hf : ∀ line ∈ lines text, Unbroken (f line)) :
    breaks (mapLines f text) = breaks text := by
  induction text using lineInduction with
  | last line hline =>
    rw [lines_of_unbroken hline] at hf
    rw [mapLines_of_unbroken f hline, breaks_of_unbroken hline,
      breaks_of_unbroken (hf line (List.mem_singleton_self line))]
  | more line b text hline hb ih =>
    rw [lines_append_break hline hb] at hf
    rw [mapLines_append_break f hline hb, breaks_append_break (hf line List.mem_cons_self) hb,
      breaks_append_break hline hb, ih fun l hl => hf l (List.mem_cons_of_mem _ hl)]

/-- A function that keeps every line keeps the text. -/
theorem mapLines_eq_self (hf : ∀ line ∈ lines text, f line = line) : mapLines f text = text := by
  unfold mapLines
  rw [List.map_congr_left hf, List.map_id', joinLines_lines]

end Preserving

end DesignTokens.Text
