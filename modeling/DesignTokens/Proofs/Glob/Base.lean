import DesignTokens.Glob.Sources
import DesignTokens.Proofs.Path.Names
import DesignTokens.Proofs.Text.Bytes
import Mathlib.Data.List.TakeWhile

/-!
# The base of a pattern

A path that is a pattern is cut in front of its first component with a glob character. What stands
before is the base, and what is behind, put together again, is matched against paths below the base.
There, paths are texts that begin with the base, and the base is taken away from them byte by byte.
However the base is written, what is left are the names behind it.

* `exists_cut`: a pattern is cut in two;
* `base_cases`: how a base may be written;
* `holds_below`: a file matches exactly if the names behind the base match.
-/

namespace DesignTokens.Sources

open DesignTokens.Path (Component IsName)
open Glob (slash)
open Text (bytes)

variable {pattern b : Path} {names : List String}

/-! ## Cutting a pattern -/

/-- A glob character is neither a slash nor a point, so some component has it. -/
theorem exists_isGlob_component (h : isGlob pattern.text = true) :
    ∃ c ∈ pattern.components, isGlob c.text = true := by
  obtain ⟨c, hc, hglob⟩ := List.any_eq_true.mp h
  have hslash : c ≠ '/' := fun heq => by
    rw [heq] at hglob
    exact absurd hglob (by decide)
  obtain ⟨first, rest, hsplit, htext, -⟩ := Path.exists_pieces pattern.text.toList
  obtain ⟨piece, hpiece, hmem⟩ : ∃ piece ∈ first :: rest, c ∈ piece := by
    rw [htext] at hc
    rcases List.mem_append.mp hc with hc | hc
    · exact ⟨first, List.mem_cons_self, hc⟩
    · obtain ⟨piece, hpiece, hc⟩ := List.mem_flatMap.mp hc
      exact ⟨piece, List.mem_cons_of_mem _ hpiece, (List.mem_cons.mp hc).resolve_left hslash⟩
  have hisGlob : isGlob (String.ofList piece) = true := by
    refine List.any_eq_true.mpr ⟨c, ?_, hglob⟩
    rwa [String.toList_ofList]
  have hname : String.ofList piece ∈ pattern.names := by
    rw [Path.names_eq, List.mem_filter, Path.pieces, hsplit]
    refine ⟨List.mem_map_of_mem hpiece, decide_eq_true ⟨fun heq => ?_, fun heq => ?_⟩⟩ <;>
      rw [heq] at hisGlob <;> exact absurd hisGlob (by decide)
  refine ⟨Component.ofName (String.ofList piece), ?_, ?_⟩
  · rw [Path.components_eq]
    exact List.mem_append_right _ (List.mem_map_of_mem hname)
  · rwa [Component.text_ofName]

/-- **A pattern is cut at its first component with a glob character.** -/
theorem exists_cut (h : isGlob pattern.text = true) :
    ∃ literal first rest, pattern.components = literal ++ first :: rest
      ∧ (∀ c ∈ literal, isGlob c.text = false) ∧ isGlob first.text = true
      ∧ base pattern = (if literal = [] then ⟨"."⟩ else .ofComponents literal)
      ∧ globText pattern = "/".intercalate ((first :: rest).map Component.text) := by
  have hcut := List.takeWhile_append_dropWhile
    (p := fun c : Component => !isGlob c.text) (l := pattern.components)
  have hne : pattern.components.dropWhile (fun c => !isGlob c.text) ≠ [] := by
    intro hnil
    obtain ⟨c, hc, hglob⟩ := exists_isGlob_component h
    have hplain := List.dropWhile_eq_nil_iff.mp hnil c hc
    rw [hglob] at hplain
    exact absurd hplain (by decide)
  have hfirst := @List.head_dropWhile_not _ (fun c : Component => !isGlob c.text) _ hne
  obtain ⟨first, rest, htail⟩ := List.exists_cons_of_ne_nil hne
  refine ⟨_, first, rest, htail ▸ hcut.symm, fun c hc => ?_, ?_, ?_, ?_⟩
  · simpa using List.mem_takeWhile_imp hc
  · simpa [htail] using hfirst
  · unfold base
    cases pattern.components.takeWhile fun c => !isGlob c.text with
    | nil => rfl
    | cons c literal => rfl
  · unfold globText
    rw [htail]

/-- What stands before the first glob character are the beginning of the path and names. -/
theorem exists_takeWhile_components (pattern : Path) :
    ∃ names : List String, (∀ s ∈ names, IsName s)
      ∧ pattern.components.takeWhile (fun c => !isGlob c.text)
        = pattern.lead ++ names.map Component.ofName := by
  have hlead : ∀ c ∈ pattern.lead, (!isGlob c.text) = true := by
    unfold Path.lead
    split
    · decide
    · split <;> decide
  refine ⟨pattern.names.takeWhile fun s => !isGlob s, fun s hs =>
    Path.isName_of_mem_names ((List.takeWhile_sublist _).subset hs), ?_⟩
  rw [Path.components_eq, List.takeWhile_append_of_pos hlead, List.takeWhile_map]
  simp [Function.comp_def]

/-- A base that is not the root or the current directory has names. -/
theorem base_cases (pattern : Path) :
    base pattern = ⟨"/"⟩ ∨ base pattern = ⟨"."⟩ ∨ (base pattern).names ≠ [] := by
  obtain ⟨names, hnames, hliteral⟩ := exists_takeWhile_components pattern
  unfold base
  rw [hliteral]
  split
  · exact Or.inr (Or.inl rfl)
  · rename_i hne
    rw [Path.ofComponents_lead_append]
    cases names with
    | nil =>
      rw [List.map_nil, List.append_nil] at hne
      exact (Path.origin_cases hne).imp_right Or.inl
    | cons s names =>
      rw [Path.names_below hnames]
      exact Or.inr (Or.inr (by simp))

/-! ## Taking the base away -/

theorem dropStart_append (start text : List UInt8) : dropStart start (start ++ text) = text := by
  unfold dropStart
  rw [if_pos (List.isPrefixOf_iff_prefix.mpr (List.prefix_append _ _)), List.drop_left]

theorem dropStart_eq_self {start text : List UInt8} (h : ¬ start <+: text) :
    dropStart start text = text := by
  unfold dropStart
  rw [if_neg (mt List.isPrefixOf_iff_prefix.mp h)]

theorem bytes_here : bytes "./" = bytes "." ++ [slash] := by
  rw [← Text.bytes_slash, ← Text.bytes_append]
  rfl

theorem bytes_point : bytes "." = ['.'.toUInt8] := by
  rw [Text.bytes_eq_flatMap]
  decide

/-- Drop the root from the beginning of a text, and the slash behind it. -/
def dropRoot (root text : List UInt8) : List UInt8 :=
  if root = bytes "." || !text.contains slash || !root.isPrefixOf text then text
  else dropStart [slash] (text.drop root.length)

theorem matchedPart_eq_dropRoot (b p : Path) :
    matchedPart b p
      = dropRoot (dropStart (bytes "./") (bytes b.text)) (dropStart (bytes "./") (bytes p.text)) :=
  rfl

theorem dropRoot_point (text : List UInt8) : dropRoot (bytes ".") text = text := by
  unfold dropRoot
  rw [decide_eq_true rfl, Bool.true_or, Bool.true_or, if_pos rfl]

/-- What begins with the root loses it, together with the slash that may follow. -/
theorem dropRoot_append {root gap rest : List UInt8} (hroot : root ≠ bytes ".")
    (hrest : ¬ [slash] <+: rest) (hgap : gap = [slash] ∨ gap = [] ∧ (root = [] ∨ slash ∈ root)) :
    dropRoot root (root ++ (gap ++ rest)) = rest := by
  have hbegins : root.isPrefixOf (root ++ (gap ++ rest)) = true :=
    List.isPrefixOf_iff_prefix.mpr (List.prefix_append _ _)
  unfold dropRoot
  rw [hbegins, decide_eq_false hroot, Bool.false_or, Bool.not_true, Bool.or_false, List.drop_left]
  rcases hgap with rfl | ⟨rfl, rfl | hmem⟩
  · rw [if_neg (by simp), dropStart_append]
  · -- without a slash the text stays as it is, and with one nothing is dropped
    rw [List.nil_append, List.nil_append, dropStart_eq_self hrest, ite_self]
  · rw [if_neg (by simp [hmem]), List.nil_append, dropStart_eq_self hrest]

/-- Names put together do not begin with a slash. -/
theorem not_slash_prefix_intercalate (hnames : ∀ s ∈ names, IsName s) :
    ¬ [slash] <+: bytes ("/".intercalate names) := by
  cases names with
  | nil => simp
  | cons s names =>
    have hs := hnames s List.mem_cons_self
    obtain ⟨byte, more, hbytes⟩ : ∃ byte more, bytes s = byte :: more :=
      List.exists_cons_of_ne_nil fun hnil => hs.ne_empty (Text.bytes_inj.mp (by simpa using hnil))
    have hbyte : slash ≠ byte := fun heq =>
      hs.slash (Text.slash_mem_bytes_iff.mp (by rw [hbytes, heq]; exact List.mem_cons_self))
    have hfirst : ∃ rest, bytes ("/".intercalate (s :: names)) = byte :: rest := by
      cases names with
      | nil => exact ⟨more, by rw [String.intercalate_singleton, hbytes]⟩
      | cons next names =>
        rw [String.intercalate_cons_cons, Text.bytes_append, Text.bytes_append, hbytes]
        exact ⟨_, rfl⟩
    obtain ⟨rest, hfirst⟩ := hfirst
    rw [hfirst, List.cons_prefix_cons]
    exact fun h => hbyte h.1

/-- With something behind it, a text other than a point begins with a point and a slash only if it
does so itself. -/
theorem here_prefix_of_append {text : String} {rest : List UInt8} (hblank : text ≠ "")
    (hpoint : text ≠ ".") (h : bytes "./" <+: bytes text ++ rest) :
    bytes "./" <+: bytes text := by
  rcases List.prefix_or_prefix_of_prefix h (List.prefix_append _ _) with h | h
  · exact h
  · -- then the text is a beginning of the two
    rcases List.prefix_concat_iff.mp (bytes_here ▸ h) with h | h
    · exact ⟨[], by rw [List.append_nil, bytes_here, h]⟩
    · rw [bytes_point] at h
      rcases List.prefix_cons_iff.mp h with h | ⟨more, h, hmore⟩
      · exact absurd (Text.bytes_inj.mp (h.trans Text.bytes_empty.symm)) hblank
      · rw [List.prefix_nil.mp hmore, ← bytes_point] at h
        exact absurd (Text.bytes_inj.mp h) hpoint

/-- The bytes of a path below a base. Without a slash of their own in between, the base ends in
one. -/
theorem exists_bytes_below (hblank : b.text ≠ "") (hnames : ∀ s ∈ names, IsName s)
    (hne : names ≠ []) :
    ∃ gap, bytes (b.below names).text = bytes b.text ++ (gap ++ bytes ("/".intercalate names))
      ∧ (gap = [slash] ∨ gap = [] ∧ ∃ front, bytes b.text = front ++ [slash]) := by
  obtain ⟨gap, htext, hgap⟩ := Path.text_below hnames hblank hne
  refine ⟨bytes gap, by rw [htext, Text.bytes_append, Text.bytes_append, List.append_assoc], ?_⟩
  rcases hgap with rfl | ⟨rfl, hlast⟩
  · exact Or.inl Text.bytes_slash
  · obtain ⟨front, hfront⟩ := List.getLast?_eq_some_iff.mp hlast
    have hsplit : b.text = String.ofList front ++ "/" := by
      rw [← String.toList_inj, hfront, String.toList_append, String.toList_ofList]
      rfl
    exact Or.inr ⟨Text.bytes_empty, _, by rw [hsplit, Text.bytes_append, Text.bytes_slash]⟩

/-- Of a text that ends in a slash, an end has a slash, if there is anything in it. -/
theorem nil_or_slash_mem {start root front : List UInt8} (h : start ++ root = front ++ [slash]) :
    root = [] ∨ slash ∈ root := by
  rcases List.eq_nil_or_concat root with rfl | ⟨root, last, rfl⟩
  · exact Or.inl rfl
  · rw [List.concat_eq_append, ← List.append_assoc] at h
    obtain ⟨-, hlast⟩ := List.append_inj' h rfl
    rw [List.concat_eq_append, hlast]
    exact Or.inr (by simp)

/-- **What is matched of a path below a base are the names behind the base.** -/
theorem matchedPart_below (hblank : b.text ≠ "") (hpoints : b.text ≠ "./.")
    (hnames : ∀ s ∈ names, IsName s) (hne : names ≠ []) :
    matchedPart b (b.below names) = bytes ("/".intercalate names) := by
  have hrest := not_slash_prefix_intercalate hnames
  obtain ⟨gap, hpath, hgap⟩ := exists_bytes_below hblank hnames hne
  rw [matchedPart_eq_dropRoot, hpath]
  by_cases hhere : bytes "./" <+: bytes b.text
  · -- the point and the slash in front do not count
    obtain ⟨root, hroot⟩ := hhere
    rw [← hroot, List.append_assoc, dropStart_append, dropStart_append]
    refine dropRoot_append (fun hpoint => hpoints ?_) hrest ?_
    · rw [← Text.bytes_inj, ← hroot, hpoint, ← Text.bytes_append]
      rfl
    · exact hgap.imp_right fun ⟨hnil, front, hfront⟩ =>
        ⟨hnil, nil_or_slash_mem (hroot.trans hfront)⟩
  · by_cases hpoint : b.text = "."
    · -- the point that stands for the current directory goes with the slash behind it
      have hslash : gap = [slash] := by
        refine hgap.resolve_right fun ⟨_, front, hfront⟩ => ?_
        rw [hpoint, bytes_point] at hfront
        have hlast : ['.'.toUInt8].getLast? = some slash := by rw [hfront, List.getLast?_concat]
        exact absurd hlast (by decide)
      rw [hpoint] at hhere ⊢
      rw [dropStart_eq_self hhere, hslash, ← List.append_assoc, ← bytes_here, dropStart_append,
        dropRoot_point]
    · rw [dropStart_eq_self hhere,
        dropStart_eq_self (mt (here_prefix_of_append hblank hpoint) hhere)]
      refine dropRoot_append (mt Text.bytes_inj.mp hpoint) hrest ?_
      refine hgap.imp_right fun ⟨hnil, front, hfront⟩ => ⟨hnil, Or.inr ?_⟩
      rw [hfront]
      simp

/-- Whether the names behind the base match. -/
def FileGlob.matches (g : FileGlob) (text : String) : Bool :=
  !g.directoriesOnly && g.pattern.holds (bytes text)

/-- A base is neither blank nor written with two points. -/
theorem base_text_ne (pattern : Path) :
    (base pattern).text ≠ "" ∧ (base pattern).text ≠ "./." := by
  have hwritten : ∀ text, (base pattern).text = text →
      (base pattern).names = (Path.mk text).names := fun text h => by rw [← h]
  rcases base_cases pattern with h | h | h
  · rw [h]; decide
  · rw [h]; decide
  · -- such texts have no names
    refine ⟨fun hblank => h ?_, fun hpoints => h ?_⟩
    · rw [hwritten _ hblank]; decide +kernel
    · rw [hwritten _ hpoints]; decide +kernel

/-- **A file below a base matches exactly if the names behind the base match.** -/
theorem holds_below (g : FileGlob) (pattern : Path) (hnames : ∀ s ∈ names, IsName s)
    (hne : names ≠ []) :
    g.holds (base pattern) ((base pattern).below names) = g.matches ("/".intercalate names) := by
  obtain ⟨hblank, hpoints⟩ := base_text_ne pattern
  unfold FileGlob.holds FileGlob.matches
  rw [matchedPart_below hblank hpoints hnames hne]

end DesignTokens.Sources
