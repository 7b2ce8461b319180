import DesignTokens.Proofs.Conversion.Formats

/-!
# What a report says is so

A report accounts for every format that was asked for, and what it says of them is what is found in
the files: the written ones hold the tokens of the source, and nothing else has changed.

* `Reading.tree_ofText`, `Reading.problem?_ofText`: what reading a text gives;
* `convert_accounted`: a report and the files it speaks of.
-/

namespace DesignTokens

/-- The tokens of a text: its aliases are resolved, and then it is loaded. -/
def Tree.ofText (text : String) : Tree :=
  Tree.loadOrEmpty (Alias.resolve text).text

namespace Reading

/-- What reading a text gives depends on the resolved text and the document in it. -/
theorem ofText_cases (text : String) :
    (∃ e, Tree.load (Alias.resolve text).text = .error e
      ∧ ofText text = .malformed (Alias.resolve text) e)
    ∨ ∃ tree skippedKeys, Tree.load (Alias.resolve text).text = .ok tree
      ∧ ofText text = .loaded (Alias.resolve text) tree skippedKeys := by
  unfold ofText Tree.load
  dsimp only
  generalize Alias.resolve text = resolution
  cases Yaml.Value.ofText? resolution.text with
  | none => exact Or.inl ⟨_, rfl, rfl⟩
  | some document =>
    dsimp only
    cases Tree.ofDocument document with
    | ok tree => exact Or.inr ⟨_, _, rfl, rfl⟩
    | error e => exact Or.inl ⟨_, rfl, rfl⟩

theorem tree_ofText (text : String) : (ofText text).tree = Tree.ofText text := by
  unfold Tree.ofText Tree.loadOrEmpty
  rcases ofText_cases text with ⟨e, hload, hread⟩ | ⟨tree, skippedKeys, hload, hread⟩ <;>
    (rw [hload, hread]; rfl)

/-- A problem is reported exactly if the resolved text cannot be loaded. -/
theorem problem?_ofText (text : String) :
    (ofText text).problem?.isSome = true
      ↔ ∃ e, Tree.load (Alias.resolve text).text = .error e := by
  rcases ofText_cases text with ⟨e, hload, hread⟩ | ⟨tree, skippedKeys, hload, hread⟩
  · rw [hload, hread]
    exact ⟨fun _ => ⟨e, rfl⟩, fun _ => rfl⟩
  · rw [hload, hread]
    exact ⟨fun h => absurd h (by simp [problem?]), fun ⟨_, h⟩ => absurd h (by simp)⟩

end Reading

namespace FileSystem

variable {fs : FileSystem} {options : ConversionOptions} {source : Path}

/-- The tokens of a source; none if it is not a text. -/
def tokens (fs : FileSystem) (source : Path) : Tree :=
  ((fs.readText? source).map Tree.ofText).getD .empty

theorem rendering_eq (hsource : fs.contains source = true) (options : ConversionOptions)
    (format : OutputFormat) :
    fs.rendering options source format
      = (format.render (fs.tokens source) options.space source.baseName).toUTF8 := by
  unfold rendering Reading.rendering readSource tokens
  rw [hsource]
  cases fs.readText? source with
  | none => rfl
  | some text => simp [Reading.tree_ofText]

theorem problem?_convert (hsource : fs.contains source = true) :
    (fs.convert options source).2.problem?.isSome = true
      ↔ fs.readText? source = none
        ∨ ∃ text e, fs.readText? source = some text
            ∧ Tree.load (Alias.resolve text).text = .error e := by
  obtain ⟨-, hreading, -⟩ := convert_spec fs options source
  unfold Report.problem?
  rw [hreading]
  unfold readSource
  rw [hsource]
  cases fs.readText? source with
  | none => simp [Reading.problem?]
  | some text =>
    dsimp only [if_pos, Option.map_some, Option.getD_some, Option.bind_some]
    rw [if_pos rfl, Option.bind_some, Reading.problem?_ofText]
    simp

/-- Whether a format of a source comes out. -/
def succeeds (fs : FileSystem) (options : ConversionOptions) (source : Path)
    (format : OutputFormat) : Bool :=
  (fs.outcome options source format).isOk

theorem outcome_of_succeeds {format : OutputFormat} (h : fs.succeeds options source format = true) :
    fs.outcome options source format = .ok (options.outputPath source.baseName format) := by
  unfold succeeds at h
  cases houtcome : fs.outcome options source format with
  | error e =>
    rw [houtcome] at h
    exact absurd h (by simp [Except.isOk, Except.toBool])
  | ok path => rw [path_of_outcome houtcome]

theorem error_of_not_succeeds {format : OutputFormat}
    (h : ¬fs.succeeds options source format = true) :
    ∃ e, fs.outcome options source format = .error e := by
  unfold succeeds at h
  cases houtcome : fs.outcome options source format with
  | error e => exact ⟨e, rfl⟩
  | ok path =>
    rw [houtcome] at h
    exact absurd rfl h

/-- A directory in which a file of a name can be written. -/
structure HasRoom (fs : FileSystem) (directory : Path) (name : String) : Prop where
  /-- The path of the file can be followed at all. -/
  walkable : IsWalkable (directory.join ⟨name⟩)
  /-- Every name on the way to the directory leads into one. -/
  passable : fs.Passable (fs.start directory) directory.names
  there : fs.look (fs.site directory) = some .directory
  short : name.utf8ByteSize ≤ 255
  /-- No directory stands where the file would. -/
  free : fs.look (fs.site directory ++ [name]) ≠ some .directory

theorem hasRoom_iff {directory : Path} {name : String} :
    HasRoom fs directory name
      ↔ IsWalkable (directory.join ⟨name⟩) ∧ fs.Passable (fs.start directory) directory.names
        ∧ fs.look (fs.site directory) = some .directory ∧ name.utf8ByteSize ≤ 255
        ∧ fs.look (fs.site directory ++ [name]) ≠ some .directory :=
  ⟨fun ⟨hwalkable, hpassable, hthere, hshort, hfree⟩ =>
    ⟨hwalkable, hpassable, hthere, hshort, hfree⟩,
    fun ⟨hwalkable, hpassable, hthere, hshort, hfree⟩ =>
      ⟨hwalkable, hpassable, hthere, hshort, hfree⟩⟩

instance (fs : FileSystem) (directory : Path) (name : String) :
    Decidable (HasRoom fs directory name) :=
  decidable_of_iff _ hasRoom_iff.symm

/-- **A format comes out if its directory can be made and has room for its file then.** -/
theorem succeeds_iff (hlinks : fs.IsLinkFree) (options : ConversionOptions) (source : Path)
    (format : OutputFormat) :
    fs.succeeds options source format = true
      ↔ (fs.makeDirectories options.outputDirectory).2 = true
        ∧ HasRoom (fs.makeDirectories options.outputDirectory).1 options.outputDirectory
            (source.baseName ++ "." ++ format.extension) := by
  have hlinks' := isLinkFree_makeDirectories hlinks options.outputDirectory
  have hname := isFileName_output source.slash_notMem_baseName format
  unfold succeeds outcome
  cases hmake : fs.makeDirectories options.outputDirectory with
  | mk made isMade =>
  rw [hmake] at hlinks'
  cases isMade with
  | false =>
    rw [writeFormat_of_not_made hmake]
    exact iff_of_false Bool.false_ne_true fun h => Bool.false_ne_true h.1
  | true =>
    rw [outcome_of_made hmake, hasRoom_iff, ← write?_isSome_iff hname hlinks']
    unfold ConversionOptions.outputPath
    split
    · rename_i hwrite
      exact iff_of_true rfl ⟨rfl, hwrite⟩
    · rename_i hwrite
      exact iff_of_false Bool.false_ne_true fun h => hwrite h.2

theorem written_convert (hlinks : fs.IsLinkFree) (hsource : fs.contains source = true) :
    (fs.convert options source).2.written
      = (options.formats.filter (fs.succeeds options source)).map
          (options.outputPath source.baseName) := by
  unfold Report.written
  rw [convert_outcomes hlinks, if_pos hsource, List.filterMap_map]
  induction options.formats with
  | nil => rfl
  | cons format formats ih =>
    by_cases hok : fs.succeeds options source format = true
    · rw [List.filter_cons_of_pos hok, List.map_cons, ← ih]
      exact List.filterMap_cons_some (congrArg Except.toOption (outcome_of_succeeds hok))
    · obtain ⟨e, he⟩ := error_of_not_succeeds hok
      rw [List.filter_cons_of_neg hok, ← ih]
      exact List.filterMap_cons_none (congrArg Except.toOption he)

theorem failures_convert (hlinks : fs.IsLinkFree) (hsource : fs.contains source = true) :
    (fs.convert options source).2.failures.map Prod.fst
      = options.formats.filter fun format => !fs.succeeds options source format := by
  unfold Report.failures
  rw [convert_outcomes hlinks, if_pos hsource, List.filterMap_map]
  induction options.formats with
  | nil => rfl
  | cons format formats ih =>
    by_cases hok : fs.succeeds options source format = true
    · rw [List.filter_cons_of_neg (by simp [hok]), ← ih, List.filterMap_cons_none]
      simp only [Function.comp_apply, outcome_of_succeeds hok]
    · obtain ⟨e, he⟩ := error_of_not_succeeds hok
      rw [List.filter_cons_of_pos (by simp [hok]), ← ih,
        List.filterMap_cons_some (b := (format, e)), List.map_cons]
      simp only [Function.comp_apply, he]

/--
**A report tells the truth about the files.**

A missing source is skipped, and nothing changes. For any other source each format that was asked
for has either been written or has failed, in the order in which they were asked for; it is written
if the output directory can be made and has room for its file then. A file that was
written holds the tokens that the source held before, which are none if the source is not a text; a
problem is reported exactly if the source is not a text or its resolved text cannot be loaded. No
other file has changed.
-/
theorem convert_accounted (hlinks : fs.IsLinkFree) (options : ConversionOptions) (source : Path) :
    (fs.contains source = false →
      (fs.convert options source).1 = fs
      ∧ (fs.convert options source).2.isSkipped = true
      ∧ (fs.convert options source).2.problem? = none
      ∧ (fs.convert options source).2.diagnostics = []
      ∧ (fs.convert options source).2.written = []
      ∧ (fs.convert options source).2.failures = [])
    ∧ (fs.contains source = true →
      (fs.convert options source).2.isSkipped = false
      ∧ (∃ succeeds : OutputFormat → Bool,
          (∀ format, succeeds format = true
            ↔ (fs.makeDirectories options.outputDirectory).2 = true
              ∧ HasRoom (fs.makeDirectories options.outputDirectory).1 options.outputDirectory
                  (source.baseName ++ "." ++ format.extension))
          ∧ (fs.convert options source).2.written
              = (options.formats.filter succeeds).map (options.outputPath source.baseName)
          ∧ (fs.convert options source).2.failures.map Prod.fst
              = options.formats.filter (fun format => !succeeds format)
          ∧ ∀ format ∈ options.formats.filter succeeds,
              (fs.convert options source).1.read? (options.outputPath source.baseName format)
                = some (format.render (fs.tokens source) options.space source.baseName).toUTF8)
      ∧ ((fs.convert options source).2.problem?.isSome = true
          ↔ fs.readText? source = none
            ∨ ∃ text e, fs.readText? source = some text
                ∧ Tree.load (Alias.resolve text).text = .error e)
      ∧ ∀ l, (fs.convert options source).1.content? l ≠ fs.content? l →
          ∃ path ∈ (fs.convert options source).2.written,
            (fs.convert options source).1.target? path = some l) := by
  refine ⟨fun hmissing => ?_, fun hsource => ⟨?_, ⟨fs.succeeds options source,
    succeeds_iff hlinks options source, written_convert hlinks hsource, failures_convert hlinks hsource, fun format hformat => ?_⟩,
    problem?_convert hsource, fun l hl => ?_⟩⟩
  · rw [convert_of_missing hmissing]
    exact ⟨rfl, rfl, rfl, rfl, rfl, rfl⟩
  · obtain ⟨-, hreading, -⟩ := convert_spec fs options source
    unfold Report.isSkipped
    rw [hreading, Option.isNone_eq_false_iff, readSource_isSome, hsource]
  · obtain ⟨hformat, hok⟩ := List.mem_filter.mp hformat
    rw [← rendering_eq hsource]
    exact (read?_convert hlinks options hsource hformat (outcome_of_succeeds hok)).2
  · obtain ⟨-, -, hwrote⟩ := convert_spec fs options source
    obtain ⟨w, hw, hl⟩ := hwrote.exists_of_content?_ne hl
    exact ⟨w.1, Report.mem_written hw, hl⟩

theorem convert_accounted_blockedStylesheet :
    (blockedStylesheet.convert detourBuild ⟨"nope.yaml"⟩).1 = blockedStylesheet
    ∧ (blockedStylesheet.convert detourBuild ⟨"brand.yaml"⟩).2.written
        = [⟨"./made/../out/brand.json"⟩, ⟨"./made/../out/brand.json"⟩]
    ∧ (blockedStylesheet.convert detourBuild ⟨"brand.yaml"⟩).2.failures.map Prod.fst = [.scss]
    ∧ (blockedStylesheet.convert detourBuild ⟨"brand.yaml"⟩).1.read? ⟨"./made/../out/brand.json"⟩
        = some (OutputFormat.json.render (blockedStylesheet.tokens ⟨"brand.yaml"⟩) "ns" "brand").toUTF8
    ∧ ∀ l, (blockedStylesheet.convert detourBuild ⟨"brand.yaml"⟩).1.content? l
          ≠ blockedStylesheet.content? l →
        (blockedStylesheet.convert detourBuild ⟨"brand.yaml"⟩).1.target? ⟨"./made/../out/brand.json"⟩
          = some l := by
  have hlinks : blockedStylesheet.IsLinkFree := isLinkFree_of_root (by decide)
  have hmissing := (convert_accounted hlinks detourBuild ⟨"nope.yaml"⟩).1 (by decide +kernel)
  obtain ⟨-, ⟨succeeds, hsucceeds, hwritten, hfailed, hread⟩, -, hframe⟩ :=
    (convert_accounted hlinks detourBuild ⟨"brand.yaml"⟩).2 (by decide +kernel)
  have hbase : (Path.mk "brand.yaml").baseName = "brand" := by decide +kernel
  rw [hbase] at hsucceeds hwritten hread
  have hjson : succeeds .json = true := (hsucceeds .json).mpr (by decide +kernel)
  -- a directory stands where the stylesheet would
  have hscss : succeeds .scss = false := by
    rw [Bool.eq_false_iff]
    intro hok
    exact ((hsucceeds .scss).mp hok).2.free (by decide +kernel)
  have hpaths : (blockedStylesheet.convert detourBuild ⟨"brand.yaml"⟩).2.written
      = [⟨"./made/../out/brand.json"⟩, ⟨"./made/../out/brand.json"⟩] := by
    rw [hwritten]
    simp only [detourBuild, List.filter_cons, List.filter_nil, hjson, hscss]
    decide +kernel
  refine ⟨hmissing.1, hpaths, ?_, ?_, fun l hl => ?_⟩
  · rw [hfailed]
    simp [detourBuild, hjson, hscss]
  · exact hread .json (List.mem_filter.mpr ⟨by decide, hjson⟩)
  · obtain ⟨path, hpath, htarget⟩ := hframe l hl
    rw [hpaths] at hpath
    rw [List.mem_pair.mp hpath |>.elim id id] at htarget
    exact htarget

end FileSystem

end DesignTokens
