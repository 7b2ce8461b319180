import DesignTokens.Proofs.FileSystem.Files
import DesignTokens.Proofs.Glob.Base
import DesignTokens.Proofs.Glob.Literal
import DesignTokens.Proofs.Path.Order

/-!
# What a pattern expands to

A pattern is expanded by a walk over the files below its base, of which those are kept whose names
behind the base match. Nothing depends on the order of the walk: the files are sorted, and as no two
of them have the same names, they come out strictly increasing.

The walk is no restriction. A file elsewhere in the tree cannot match the whole pattern, because the
base stands literally in front of it, and so the same files are found by testing every file of the
tree (`matches_behind`).

* `mem_found_iff`: what is kept of the files below the base;
* `mem_sources_iff_matches`: what a path expands to.
-/

namespace DesignTokens.Sources

open FileSystem (IsFileName)
open DesignTokens.Path (Component IsName)
open Text (bytes)

variable {fs : FileSystem} {g : FileGlob} {b p pattern : Path} {location : Location}

/-! ## The files below a base -/

theorem filesAt?_of_target? (hdash : b.text ≠ "-") (h : fs.target? b = some location) :
    ∃ node, fs.root.get? location = some node
      ∧ filesAt? fs b = some (node.files.map fun f => b.below f.1) := by
  obtain ⟨node, hlocate⟩ := FileSystem.target?_eq_some_iff.mp h
  have hnode := FileSystem.locate_occupied hlocate
  refine ⟨node, hnode, ?_⟩
  unfold filesAt?
  rw [if_neg hdash, FileSystem.node?_eq, h, Option.bind_some, hnode]
  rfl

theorem filesAt?_of_target?_eq_none (hdash : b.text ≠ "-") (h : fs.target? b = none) :
    filesAt? fs b = none := by
  unfold filesAt?
  rw [if_neg hdash, FileSystem.node?_eq, h]
  rfl

/-- The files below a base differ in their components. -/
theorem pairwise_filesAt? (hroot : fs.root.IsProper) (b : Path) :
    ((filesAt? fs b).getD []).Pairwise fun p q => p.components ≠ q.components := by
  by_cases hdash : b.text = "-"
  · unfold filesAt?
    rw [if_pos hdash]
    exact List.Pairwise.nil
  · cases htarget : fs.target? b with
    | none =>
      rw [filesAt?_of_target?_eq_none hdash htarget]
      exact List.Pairwise.nil
    | some location =>
      obtain ⟨node, hnode, hfiles⟩ := filesAt?_of_target? hdash htarget
      have hnodup := List.pairwise_map.mp (Node.nodup_files node (hroot.of_get? hnode).1)
      rw [hfiles, Option.getD_some, List.pairwise_map]
      have hnames : ∀ f ∈ node.files, ∀ s ∈ f.1, IsName s := fun f hf =>
        hroot.isName_of_content?
          (Option.isSome_of_eq_some ((hroot.mem_files_iff_content? hnode).mp hf))
      exact hnodup.imp_of_mem fun hf hf' hne hsame =>
        hne (Path.eq_of_components_below (hnames _ hf) (hnames _ hf') hsame)

/-- The files below a base that match. -/
def found (fs : FileSystem) (g : FileGlob) (b : Path) : List Path :=
  ((filesAt? fs b).getD []).filter (g.holds b)

/-- **A file below a base that is no file itself is found if its names behind the base match.** -/
theorem mem_found_iff (hroot : fs.root.IsProper) (hdash : (base pattern).text ≠ "-")
    (hfile : fs.isFile (base pattern) = false) :
    p ∈ found fs g (base pattern)
      ↔ ∃ location names, fs.target? (base pattern) = some location ∧ names ≠ []
        ∧ (fs.content? (location ++ names)).isSome ∧ p = (base pattern).below names
        ∧ g.matches ("/".intercalate names) = true := by
  unfold found
  rw [List.mem_filter]
  cases htarget : fs.target? (base pattern) with
  | none =>
    rw [filesAt?_of_target?_eq_none hdash htarget]
    exact iff_of_false (fun h => absurd h.1 List.not_mem_nil) (by simp)
  | some location =>
    obtain ⟨node, hnode, hfiles⟩ := filesAt?_of_target? hdash htarget
    rw [hfiles, Option.getD_some, List.mem_map]
    constructor
    · rintro ⟨⟨f, hf, rfl⟩, hholds⟩
      have hcontent := (hroot.mem_files_iff_content? hnode).mp hf
      have hne : f.1 ≠ [] := by
        intro hnil
        rw [hnil, List.append_nil] at hcontent
        unfold FileSystem.isFile at hfile
        rw [FileSystem.read?_eq, htarget, Option.bind_some, hcontent] at hfile
        exact absurd hfile (by simp)
      have hsome := Option.isSome_of_eq_some hcontent
      rw [holds_below g pattern (hroot.isName_of_content? hsome) hne] at hholds
      exact ⟨location, f.1, rfl, hne, hsome, rfl, hholds⟩
    · rintro ⟨_, names, hlocation, hne, hsome, rfl, hmatches⟩
      obtain rfl := Option.some.inj hlocation
      obtain ⟨content, hcontent⟩ := Option.isSome_iff_exists.mp hsome
      refine ⟨⟨(names, content), (hroot.mem_files_iff_content? hnode).mpr hcontent, rfl⟩, ?_⟩
      rw [holds_below g pattern (hroot.isName_of_content? hsome) hne]
      exact hmatches

/-! ## Testing every file of the tree -/

/-- A pattern for the files of the whole tree that are below a location, whose path stands literally
in front of it. -/
def FileGlob.behind (g : FileGlob) (location : Location) : FileGlob :=
  { g with pattern := g.pattern.behind (bytes (location.text ++ "/")) }

/-- **The whole pattern matches the files below the location whose names behind it match.** -/
theorem matches_behind (hlocation : ∀ name ∈ location, IsFileName name) {l : Location}
    (hl : ∀ name ∈ l, IsFileName name) :
    (g.behind location).matches l.text = true
      ↔ ∃ names, names ≠ [] ∧ l = location ++ names ∧ g.matches ("/".intercalate names) = true := by
  have hbelow : ∀ rest, bytes l.text = bytes (location.text ++ "/") ++ rest
      ↔ ∃ names, names ≠ [] ∧ l = location ++ names ∧ rest = bytes ("/".intercalate names) :=
    fun rest => Location.directory_prefix_iff (fun name hname => (hlocation name hname).slash)
      fun name hname => (hl name hname).slash
  unfold FileGlob.matches FileGlob.behind
  simp only [Bool.and_eq_true, Glob.Pattern.holds_behind, hbelow]
  constructor
  · rintro ⟨hfiles, _, ⟨names, hne, hsplit, rfl⟩, hrest⟩
    exact ⟨names, hne, hsplit, hfiles, hrest⟩
  · rintro ⟨names, hne, hsplit, hfiles, hrest⟩
    exact ⟨hfiles, _, ⟨names, hne, hsplit, rfl⟩, hrest⟩

/-- **The same files are found by testing every file of the tree.** -/
theorem matches_behind_iff_mem_found (hroot : fs.root.IsProper)
    (hdash : (base pattern).text ≠ "-") (hfile : fs.isFile (base pattern) = false)
    (htarget : fs.target? (base pattern) = some location) {l : Location}
    (hl : (fs.content? l).isSome) :
    (g.behind location).matches l.text = true
      ↔ ∃ names, l = location ++ names
        ∧ (base pattern).below names ∈ found fs g (base pattern) := by
  obtain ⟨node, hnode, -⟩ := filesAt?_of_target? hdash htarget
  rw [matches_behind (hroot.of_get? hnode).2 (hroot.isFileName_of_content? hl)]
  constructor
  · rintro ⟨names, hne, rfl, hmatches⟩
    exact ⟨names, rfl, (mem_found_iff hroot hdash hfile).mpr
      ⟨location, names, htarget, hne, hl, rfl, hmatches⟩⟩
  · rintro ⟨names, rfl, hmem⟩
    obtain ⟨_, names', hlocation, hne, hsome, hsame, hmatches⟩ :=
      (mem_found_iff hroot hdash hfile).mp hmem
    have heq : names = names' := Path.eq_of_components_below (hroot.isName_of_content? hl)
      (hroot.isName_of_content? hsome) (by rw [hsame])
    exact ⟨names, heq ▸ hne, rfl, heq ▸ hmatches⟩

/-! ## What a path expands to -/

/--
**A pattern expands to the files that it matches, strictly increasing.**

A path without glob characters expands to itself. A pattern is cut at its first component with a
glob character: what stands before is the base, or the current directory if there is nothing, and
the rest is matched behind it. If the rest cannot be read, the expansion fails. Otherwise, unless
the base is a single dash or a file, it gives paths that are strictly increasing by components, so
that none is given twice: the base with the names behind it of each regular file below it whose
names, with slashes between them, match the rest. These are the files of the whole tree that match
the rest behind the path of the base, taken literally.
-/
theorem mem_sources_iff_matches (hroot : fs.root.IsProper) (pattern : Path) :
    (isGlob pattern.text = false → expand? fs pattern = some { sources := [pattern] })
    ∧ (isGlob pattern.text = true →
      ∃ literal first rest, pattern.components = literal ++ first :: rest
        ∧ (∀ c ∈ literal, isGlob c.text = false) ∧ isGlob first.text = true
        ∧ base pattern = (if literal = [] then ⟨"."⟩ else .ofComponents literal)
        ∧ globText pattern = "/".intercalate ((first :: rest).map Component.text)
        ∧ (FileGlob.ofText? (globText pattern) = none → expand? fs pattern = none)
        ∧ ∀ g, FileGlob.ofText? (globText pattern) = some g →
          (base pattern).text ≠ "-" → fs.isFile (base pattern) = false →
          ∃ e, expand? fs pattern = some e
            ∧ e.sources.Pairwise (fun p q => p.sortKey < q.sortKey)
            ∧ (∀ p, p ∈ e.sources ↔ ∃ location names, fs.target? (base pattern) = some location
                ∧ names ≠ [] ∧ (fs.content? (location ++ names)).isSome
                ∧ p = (base pattern).below names ∧ g.matches ("/".intercalate names) = true)
            ∧ ∀ location, fs.target? (base pattern) = some location → ∀ f ∈ fs.root.files,
                ((g.behind location).matches f.1.text = true
                  ↔ ∃ names, f.1 = location ++ names ∧ (base pattern).below names ∈ e.sources)) := by
  refine ⟨fun hplain => ?_, fun hglob => ?_⟩
  · unfold expand?
    rw [hplain]
    rfl
  have hexpand : ∀ g?, FileGlob.ofText? (globText pattern) = g? →
      (expand? fs pattern).map Expansion.sources
        = g?.map fun g => (found fs g (base pattern)).mergeSort Path.le := by
    rintro _ rfl
    unfold expand?
    rw [hglob, Bool.not_true, if_neg Bool.false_ne_true, Option.map_map]
    rfl
  obtain ⟨literal, first, rest, hcomponents, hliteral, hfirst, hbase, htext⟩ := exists_cut hglob
  refine ⟨literal, first, rest, hcomponents, hliteral, hfirst, hbase, htext,
    fun hnone => Option.map_eq_none_iff.mp (hexpand none hnone), fun g hg hdash hfile => ?_⟩
  obtain ⟨e, he, hsources⟩ := Option.map_eq_some_iff.mp (hexpand (some g) hg)
  refine ⟨e, he, ?_⟩
  rw [hsources]
  refine ⟨Path.pairwise_mergeSort_le ((pairwise_filesAt? hroot _).filter _), ?_, ?_⟩
  · intro p
    rw [List.mem_mergeSort]
    exact mem_found_iff hroot hdash hfile
  · intro location htarget f hf
    have hcontent := hroot.mem_root_files_iff.mp hf
    rw [matches_behind_iff_mem_found hroot hdash hfile htarget (Option.isSome_of_eq_some hcontent)]
    simp only [List.mem_mergeSort]

/-- A directory with hidden files, one of which names another file to be ignored, and a file beside
it. -/
def tokensTree : FileSystem :=
  ⟨.directory [("work", .directory [
      ("tokens", .directory [
        (".draft.yaml", .file ByteArray.empty),
        (".ignore", .file "app.yaml".toUTF8),
        ("app.yaml", .file ByteArray.empty),
        ("nested", .directory [("deep.yaml", .file ByteArray.empty)])]),
      ("top.yaml", .file ByteArray.empty)])], ["work"]⟩

theorem mem_sources_iff_matches_tokensTree :
    tokensTree.root.IsProper ∧ isGlob "./tokens/**/*.yaml" = true
    ∧ ∃ e, expand? tokensTree ⟨"./tokens/**/*.yaml"⟩ = some e
      ∧ e.sources.Pairwise (fun p q => p.sortKey < q.sortKey)
      ∧ ∀ names ∈ [[".draft.yaml"], ["app.yaml"], ["nested", "deep.yaml"]],
          ⟨"./tokens/" ++ "/".intercalate names⟩ ∈ e.sources := by
  have hroot : tokensTree.root.IsProper := by decide +kernel
  have hglob : isGlob "./tokens/**/*.yaml" = true := by decide +kernel
  obtain ⟨_, _, _, _, _, _, _, _, _, hspec⟩ :=
    (mem_sources_iff_matches hroot ⟨"./tokens/**/*.yaml"⟩).2 hglob
  obtain ⟨g, hg⟩ : ∃ g, FileGlob.ofText? (globText ⟨"./tokens/**/*.yaml"⟩) = some g :=
    Option.isSome_iff_exists.mp (by decide +kernel)
  obtain ⟨e, he, hsorted, hmem, -⟩ := hspec g hg (by decide +kernel) (by decide +kernel)
  have htarget : tokensTree.target? (base ⟨"./tokens/**/*.yaml"⟩) = some ["work", "tokens"] := by
    decide +kernel
  have hfiles : ∀ names ∈ [[".draft.yaml"], ["app.yaml"], ["nested", "deep.yaml"]],
      names ≠ [] ∧ (tokensTree.content? (["work", "tokens"] ++ names)).isSome = true
      ∧ ⟨"./tokens/" ++ "/".intercalate names⟩ = (base ⟨"./tokens/**/*.yaml"⟩).below names
      ∧ (FileGlob.ofText? (globText ⟨"./tokens/**/*.yaml"⟩)).map
          (fun g => g.matches ("/".intercalate names)) = some true := by decide +kernel
  refine ⟨hroot, hglob, e, he, hsorted, fun names hnames => (hmem _).mpr ?_⟩
  obtain ⟨hne, hcontent, hpath, hmatches⟩ := hfiles names hnames
  rw [hg] at hmatches
  exact ⟨_, names, htarget, hne, hcontent, hpath, Option.some.inj hmatches⟩

/-- A directory whose name is a dash. -/
def dashTree : FileSystem :=
  ⟨.directory [("-", .directory [("a.yaml", .file ByteArray.empty)]),
    ("a.yaml", .file ByteArray.empty)], []⟩

/-- A pattern that cannot be read has no expansion. Below a directory whose name is a dash no file
is found, though it matches, and a base that is a file is found itself, though nothing is below
it. -/
theorem sources_of_dashTree :
    dashTree.root.IsProper ∧ dashTree.root.isLinkFree = true
    ∧ isGlob "[" = true ∧ (expand? dashTree ⟨"["⟩).map Expansion.sources = none
    ∧ isGlob "-/*.yaml" = true ∧ dashTree.target? (base ⟨"-/*.yaml"⟩) = some ["-"]
    ∧ (FileGlob.ofText? (globText ⟨"-/*.yaml"⟩)).map (fun g => g.matches "a.yaml") = some true
    ∧ (dashTree.content? ["-", "a.yaml"]).isSome = true
    ∧ (expand? dashTree ⟨"-/*.yaml"⟩).map Expansion.sources = some []
    ∧ (expand? dashTree ⟨"a.yaml/*.yaml"⟩).map Expansion.sources = some [⟨"a.yaml"⟩]
    ∧ dashTree.root.look ["a.yaml"] = some (.file ByteArray.empty) := by
  have hnone : (expand? dashTree ⟨"["⟩).map Expansion.sources = none := by decide +kernel
  have hdash : (expand? dashTree ⟨"-/*.yaml"⟩).map Expansion.sources = some [] := by decide +kernel
  have hfile : (expand? dashTree ⟨"a.yaml/*.yaml"⟩).map Expansion.sources = some [⟨"a.yaml"⟩] := by
    decide +kernel
  exact ⟨by decide +kernel, by decide +kernel, by decide, hnone, by decide, by decide +kernel,
    by decide +kernel, by decide +kernel, hdash, hfile, rfl⟩

end DesignTokens.Sources
