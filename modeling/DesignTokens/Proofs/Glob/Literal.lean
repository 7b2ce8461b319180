import DesignTokens.FileSystem
import DesignTokens.Proofs.Text.Bytes

/-!
# Patterns behind a directory

A pattern for what is below a directory can be put behind the name of the directory, which is then
matched as it is written. The whole pattern holds of exactly the texts that begin with that name and
go on with a match (`holds_behind`). Names along a path cannot run into each other, since a slash
stands between them and none of them has one, so a file whose absolute path begins with that of the
directory is a file below it (`directory_prefix_iff`).
-/

namespace DesignTokens

open Glob (slash)
open Text (bytes)

namespace Glob

theorem mem_patternRests_cons {part : Part} {parts : List Part} {text rest : List UInt8} :
    rest ∈ Part.patternRests (part :: parts) text
      ↔ ∃ mid ∈ part.rests text, rest ∈ Part.patternRests parts mid := by
  rw [Part.patternRests, List.mem_eraseDups, List.mem_flatMap]

theorem mem_rests_literal {front text mid : List UInt8} :
    mid ∈ (Part.literal front).rests text ↔ text = front ++ mid := by
  rw [Part.rests]
  split
  · rename_i hfront
    obtain ⟨rest, rfl⟩ := List.isPrefixOf_iff_prefix.mp hfront
    rw [List.drop_left, List.mem_singleton, List.append_cancel_left_eq, eq_comm]
  · rename_i hfront
    refine iff_of_false List.not_mem_nil fun htext => hfront ?_
    exact List.isPrefixOf_iff_prefix.mpr ⟨mid, htext.symm⟩

/-- A run without a slash may take everything. -/
theorem nil_mem_afterRun {text : List UInt8} (h : slash ∉ text) : [] ∈ afterRun text := by
  induction text with
  | nil => exact List.mem_singleton.mpr rfl
  | cons b text ih =>
    have hb : b ≠ slash := fun heq => h (heq ▸ List.mem_cons_self)
    rw [afterRun, if_neg hb]
    exact List.mem_cons_of_mem _ (ih fun hmem => h (List.mem_cons_of_mem _ hmem))

/-- Behind its last slash a text has none. -/
theorem exists_last_name (text : List UInt8) :
    ∃ name ∈ text :: afterSlashes text, slash ∉ name := by
  induction text with
  | nil => exact ⟨[], List.mem_cons_self, List.not_mem_nil⟩
  | cons b text ih =>
    obtain ⟨name, hname, hslash⟩ := ih
    by_cases hb : b = slash
    · rw [afterSlashes, if_pos hb]
      exact ⟨name, List.mem_cons_of_mem _ hname, hslash⟩
    · rw [afterSlashes, if_neg hb]
      rcases List.mem_cons.mp hname with rfl | hname
      · refine ⟨b :: name, List.mem_cons_self, fun hmem => ?_⟩
        rcases List.mem_cons.mp hmem with heq | hmem
        · exact hb heq.symm
        · exact hslash hmem
      · exact ⟨name, List.mem_cons_of_mem _ hname, hslash⟩

/-- Two stars at the beginning of a pattern and a name behind them match every text. -/
theorem nil_mem_patternRests_everything (text : List UInt8) :
    [] ∈ Part.patternRests [.leadingDirectories, .anyRun] text := by
  obtain ⟨name, hname, hslash⟩ := exists_last_name text
  rw [mem_patternRests_cons]
  refine ⟨name, by rwa [Part.rests], mem_patternRests_cons.mpr ⟨[], ?_, ?_⟩⟩
  · rw [Part.rests]
    exact nil_mem_afterRun hslash
  · rw [Part.patternRests]
    exact List.mem_singleton.mpr rfl

namespace Pattern

/-- A pattern behind a literal text. Two stars alone would be taken for directories there, and need
a name behind them. -/
def behind (front : List UInt8) : Pattern → Pattern
  | [.leadingDirectories] => [.literal front, .leadingDirectories, .anyRun]
  | pattern => .literal front :: pattern

theorem behind_eq {pattern : Pattern} (h : pattern ≠ [.leadingDirectories]) (front : List UInt8) :
    pattern.behind front = .literal front :: pattern := by
  unfold behind
  split
  · exact absurd rfl h
  · rfl

theorem holds_iff {pattern : Pattern} (h : pattern ≠ [.leadingDirectories]) {text : List UInt8} :
    pattern.holds text = true ↔ [] ∈ Part.patternRests pattern text := by
  unfold holds
  split
  · exact absurd rfl h
  · exact List.contains_iff_mem

/-- **A pattern behind a literal text holds of that text with a match behind it.** -/
theorem holds_behind {pattern : Pattern} {front text : List UInt8} :
    (pattern.behind front).holds text = true
      ↔ ∃ rest, text = front ++ rest ∧ pattern.holds rest = true := by
  have hbehind : ∀ parts : Pattern, [] ∈ Part.patternRests (.literal front :: parts) text
      ↔ ∃ rest, text = front ++ rest ∧ [] ∈ Part.patternRests parts rest := fun parts => by
    simp only [mem_patternRests_cons, mem_rests_literal]
  by_cases hstars : pattern = [.leadingDirectories]
  · subst hstars
    rw [behind, holds_iff (by simp), hbehind]
    exact exists_congr fun rest => and_congr_right fun _ =>
      iff_of_true (nil_mem_patternRests_everything rest) rfl
  · rw [behind_eq hstars, holds_iff (by simp), hbehind]
    exact exists_congr fun rest => and_congr_right fun _ => (holds_iff hstars).symm

end Pattern

end Glob

namespace Location

/-- The absolute path of a location: each name behind a slash. -/
def text : Location → String
  | [] => ""
  | name :: rest => "/" ++ name ++ text rest

/-- The names with slashes between them, behind one more. -/
theorem text_eq_intercalate {names : Location} (hne : names ≠ []) :
    names.text = "/" ++ "/".intercalate names := by
  induction names with
  | nil => exact absurd rfl hne
  | cons name rest ih =>
    by_cases hnil : rest = []
    · rw [hnil, String.intercalate_singleton, text, text, String.append_empty]
    · rw [text, ih hnil, String.intercalate_cons_of_ne_nil hnil]
      simp only [String.append_assoc]

/-- Where both texts go on with a slash, if they go on, they part at the same place. -/
theorem append_inj_of_slash {a b x y : List UInt8} (ha : slash ∉ a) (hb : slash ∉ b)
    (hx : ∀ c ∈ x.head?, c = slash) : a ++ x = b ++ slash :: y ↔ a = b ∧ x = slash :: y := by
  refine ⟨fun h => ?_, fun ⟨hab, hxy⟩ => by rw [hab, hxy]⟩
  induction a generalizing b with
  | nil =>
    cases b with
    | nil => exact ⟨rfl, h⟩
    | cons c b =>
      have hc : c = slash := hx c (by rw [show x = _ from h]; rfl)
      exact absurd (hc ▸ List.mem_cons_self) hb
  | cons c a ih =>
    cases b with
    | nil => exact absurd ((List.cons.inj h).1 ▸ List.mem_cons_self) ha
    | cons d b =>
      obtain ⟨hcd, htail⟩ := List.cons.inj h
      obtain ⟨hab, hxy⟩ := ih (fun hmem => ha (List.mem_cons_of_mem _ hmem))
        (fun hmem => hb (List.mem_cons_of_mem _ hmem)) htail
      exact ⟨by rw [hcd, hab], hxy⟩

theorem bytes_text_cons (name : String) (rest : Location) :
    bytes (text (name :: rest)) = slash :: (bytes name ++ bytes rest.text) := by
  rw [text, Text.bytes_append, Text.bytes_append, Text.bytes_slash]
  rfl

/-- The path of a location is blank or begins with a slash. -/
theorem head?_bytes_text (l : Location) : ∀ c ∈ (bytes l.text).head?, c = slash := by
  cases l with
  | nil => simp [text]
  | cons name rest =>
    rw [bytes_text_cons]
    exact fun c hc => (Option.mem_some.mp hc).symm

theorem exists_bytes_directory (l : Location) : ∃ more, bytes (l.text ++ "/") = slash :: more := by
  cases l with
  | nil => exact ⟨[], by rw [text, String.empty_append, Text.bytes_slash]⟩
  | cons name rest => exact ⟨_, by rw [Text.bytes_append, bytes_text_cons]; rfl⟩

variable {location l : Location}

/-- **A file is below a directory if its path begins with that of the directory and a slash.** -/
theorem directory_prefix_iff (hlocation : ∀ name ∈ location, '/' ∉ name.toList)
    (hl : ∀ name ∈ l, '/' ∉ name.toList) {rest : List UInt8} :
    bytes l.text = bytes (location.text ++ "/") ++ rest
      ↔ ∃ names, names ≠ [] ∧ l = location ++ names ∧ rest = bytes ("/".intercalate names) := by
  induction location generalizing l with
  | nil =>
    by_cases hnil : l = []
    · subst hnil
      refine iff_of_false (by simp [text]) ?_
      rintro ⟨names, hne, heq, -⟩
      exact hne heq.symm
    · rw [text_eq_intercalate hnil, text, String.empty_append, Text.bytes_append,
        List.append_cancel_left_eq]
      constructor
      · exact fun h => ⟨l, hnil, rfl, h.symm⟩
      · rintro ⟨names, -, rfl, h⟩
        exact h.symm
  | cons name location ih =>
    obtain ⟨hname, hlocation⟩ := List.forall_mem_cons.mp hlocation
    cases l with
    | nil => exact iff_of_false (by simp [text]) (by simp)
    | cons first l =>
      obtain ⟨hfirst, hl⟩ := List.forall_mem_cons.mp hl
      obtain ⟨more, hmore⟩ := exists_bytes_directory location
      have hbehind : slash :: (more ++ rest) = bytes (text location ++ "/") ++ rest := by
        rw [hmore]
        rfl
      have hdirectory : bytes (text (name :: location) ++ "/") ++ rest
          = slash :: (bytes name ++ slash :: (more ++ rest)) := by
        rw [hbehind, Text.bytes_append, Text.bytes_append, bytes_text_cons]
        simp only [List.append_assoc, List.cons_append]
      rw [bytes_text_cons, hdirectory, List.cons_eq_cons, and_iff_right rfl,
        append_inj_of_slash (mt Text.slash_mem_bytes_iff.mp hfirst)
          (mt Text.slash_mem_bytes_iff.mp hname) (head?_bytes_text l),
        Text.bytes_inj, hbehind, ih hlocation hl]
      constructor
      · rintro ⟨rfl, names, hne, rfl, h⟩
        exact ⟨names, hne, rfl, h⟩
      · rintro ⟨names, hne, heq, h⟩
        obtain ⟨hname, hrest⟩ := List.cons.inj heq
        exact ⟨hname, names, hne, hrest, h⟩

end Location

end DesignTokens
