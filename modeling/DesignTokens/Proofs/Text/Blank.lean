import DesignTokens.Text.Blank
import Mathlib.Data.List.DropRight
import Mathlib.Data.List.TakeWhile

/-!
# Runs, trimming and first words

A run of characters is cut off where the first one fails a test (`takeWhile_append_stop`). `trimEnd`
takes blanks off the end and nothing else, so it leaves a text alone whose last character is no
blank; `firstWord?` finds a nonempty run of characters that are not blank.
-/

namespace DesignTokens.Text

/-! ## Runs -/

theorem takeWhile_append_stop {p : Char → Bool} {run rest : List Char}
    (hrun : ∀ c ∈ run, p c = true) (hrest : ∀ c ∈ rest.head?, p c = false) :
    (run ++ rest).takeWhile p = run := by
  rw [List.takeWhile_append_of_pos hrun]
  cases rest with
  | nil => rw [List.takeWhile_nil, List.append_nil]
  | cons c cs =>
    have hc : p c = false := hrest c rfl
    rw [List.takeWhile_cons_of_neg (by rw [hc]; exact Bool.false_ne_true), List.append_nil]

theorem dropWhile_append_stop {p : Char → Bool} {run rest : List Char}
    (hrun : ∀ c ∈ run, p c = true) (hrest : ∀ c ∈ rest.head?, p c = false) :
    (run ++ rest).dropWhile p = rest := by
  rw [List.dropWhile_append_of_pos hrun]
  cases rest with
  | nil => rw [List.dropWhile_nil]
  | cons c cs =>
    have hc : p c = false := hrest c rfl
    rw [List.dropWhile_cons_of_neg (by rw [hc]; exact Bool.false_ne_true)]

/-! ## Trimming -/

theorem trimEnd_eq_rdropWhile (text : List Char) : trimEnd text = text.rdropWhile isBlank := rfl

theorem mem_of_mem_trimEnd {text : List Char} {c : Char} (hc : c ∈ trimEnd text) : c ∈ text := by
  rw [trimEnd_eq_rdropWhile] at hc
  exact (List.rdropWhile_prefix isBlank text).subset hc

@[simp] theorem trimEnd_trimEnd (text : List Char) : trimEnd (trimEnd text) = trimEnd text := by
  rw [trimEnd_eq_rdropWhile, trimEnd_eq_rdropWhile]
  exact List.rdropWhile_idempotent isBlank text

/-- A text that ends in a word has nothing to trim. -/
theorem trimEnd_append_word (text : List Char) {word : List Char} (hne : word ≠ [])
    (hword : ∀ c ∈ word, isBlank c = false) : trimEnd (text ++ word) = text ++ word := by
  rw [trimEnd_eq_rdropWhile, List.rdropWhile_eq_self_iff]
  intro hl
  rw [List.getLast_append_of_ne_nil hl hne, hword _ (List.getLast_mem hne)]
  exact Bool.false_ne_true

/-! ## First words -/

theorem trimStart_cons {c : Char} (h : isBlank c = false) (text : List Char) :
    trimStart (c :: text) = c :: text :=
  List.dropWhile_cons_of_neg (by rw [h]; exact Bool.false_ne_true)

theorem mem_of_mem_trimStart {text : List Char} {c : Char} (hc : c ∈ trimStart text) : c ∈ text :=
  (List.dropWhile_sublist isBlank).subset hc

/-- A first word is not empty, holds no blanks, and stands in the text. -/
theorem firstWord?_spec {text word : List Char} (h : firstWord? text = some word) :
    word ≠ [] ∧ (∀ c ∈ word, isBlank c = false) ∧ ∀ c ∈ word, c ∈ text := by
  unfold firstWord? at h
  split at h
  · exact absurd h (by simp)
  · rename_i hne
    have hw : ((trimStart text).takeWhile fun c => !isBlank c) = word := Option.some.inj h
    refine ⟨fun he => hne (hw.trans he), ?_, ?_⟩
    · intro c hc
      rw [← hw] at hc
      simpa using List.mem_takeWhile_imp hc
    · intro c hc
      rw [← hw] at hc
      exact mem_of_mem_trimStart ((List.takeWhile_sublist _).subset hc)

/-- The first word stands in the text, all of it in one place. -/
theorem firstWord?_isInfix {text word : List Char} (h : firstWord? text = some word) :
    word <:+: text := by
  unfold firstWord? at h
  split at h
  · exact absurd h (by simp)
  · rw [← Option.some.inj h]
    exact (List.takeWhile_prefix _).isInfix.trans (List.dropWhile_suffix _).isInfix

/-- There is a first word where not everything is blank. -/
theorem isSome_firstWord?_iff {text : List Char} :
    (firstWord? text).isSome ↔ ∃ c ∈ text, isBlank c = false := by
  induction text with
  | nil => simp [firstWord?, trimStart]
  | cons c text ih =>
    cases hc : isBlank c with
    | true =>
      have hskip : firstWord? (c :: text) = firstWord? text := by
        simp [firstWord?, trimStart, hc]
      rw [hskip, ih]
      simp [hc]
    | false => simp [firstWord?, trimStart, hc]

end DesignTokens.Text
