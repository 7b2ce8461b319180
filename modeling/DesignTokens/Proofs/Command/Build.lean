import DesignTokens.Command.Outcome
import DesignTokens.Proofs.Conversion.Formats

/-!
# What a run leaves

A run that fails leaves the files as they are. A build fails before it begins, because its settings
are refused or the pattern for its sources is malformed (`BuildRequest.IsRefused`), and from then on
it succeeds, whatever happens to its sources. It prints the paths of the files that it wrote, and
these are all that it changed (`Built`).

* `FileSystem.convertAll_outcomes`: the reports of a build;
* `BuildRequest.run_of_isRefused`, `BuildRequest.built_of_not_isRefused`: how a build ends;
* `Run.ofArguments_accounted`: exit codes, output and files of a run.
-/

namespace DesignTokens

/-! ## Reports -/

/-- A report has an outcome for each format, in their order, unless the source was missing, and
every file that was written is named for the source and its format. -/
structure Report.Follows (r : Report) (options : ConversionOptions) : Prop where
  formats : r.outcomes.map Prod.fst = if r.isSkipped then [] else options.formats
  path : ∀ format path, (format, .ok path) ∈ r.outcomes →
    path = options.outputPath r.source.baseName format

namespace FileSystem

variable {fs fs' : FileSystem} {options : ConversionOptions}

theorem writeFormats_formats (fs : FileSystem) (options : ConversionOptions) (base : String)
    (tree : Tree) (formats : List OutputFormat) :
    (fs.writeFormats options base tree formats).2.map Prod.fst = formats := by
  induction formats generalizing fs with
  | nil => rfl
  | cons format rest ih => exact congrArg (format :: ·) (ih _)

theorem path_of_mem_writeFormats {base : String} {tree : Tree} {formats : List OutputFormat}
    {format : OutputFormat} {path : Path}
    (h : (format, .ok path) ∈ (fs.writeFormats options base tree formats).2) :
    path = options.outputPath base format := by
  induction formats generalizing fs with
  | nil => cases h
  | cons first rest ih =>
    rw [writeFormats_cons] at h
    rcases List.mem_cons.mp h with h | h
    · obtain ⟨rfl, hpath⟩ := Prod.mk.inj h
      exact path_of_outcome hpath.symm
    · exact ih h

theorem follows_convert (fs : FileSystem) (options : ConversionOptions) (source : Path) :
    (fs.convert options source).2.Follows options := by
  cases hread : fs.readSource source with
  | none =>
    unfold convert
    rw [hread]
    exact ⟨rfl, fun _ _ h => nomatch h⟩
  | some reading =>
    unfold convert
    rw [hread]
    exact ⟨writeFormats_formats .., fun _ _ => path_of_mem_writeFormats⟩

theorem convertAll_outcomes (fs : FileSystem) (options : ConversionOptions) (sources : List Path) :
    ∀ report ∈ (fs.convertAll options sources).2, report.Follows options := by
  induction sources generalizing fs with
  | nil => exact List.forall_mem_nil _
  | cons source rest ih =>
    rw [convertAll_cons]
    exact List.forall_mem_cons.mpr ⟨follows_convert fs options source, ih _⟩

/-- What was written to is a file in the end. -/
theorem Wrote.isSome_read? {writes : List (Path × ByteArray)} (h : Wrote fs writes fs')
    {w : Path × ByteArray} (hw : w ∈ writes) : (fs'.read? w.1).isSome := by
  obtain ⟨l, hl⟩ := Option.isSome_iff_exists.mp (h.leads w hw)
  rw [read?_eq, hl, Option.bind_some, h.content?, Option.isSome_or]
  cases hlast : fs'.lastAt? writes l with
  | none => exact absurd hl (lastAt?_eq_none_iff.mp hlast w hw)
  | some content => rfl

end FileSystem

/-- The paths of the written files, in the order of the sources and then of the formats. -/
def Report.allWritten (reports : List Report) : List Path :=
  reports.flatMap Report.written

theorem Report.mem_allWritten {reports : List Report} {space : String} {path : Path} :
    path ∈ allWritten reports ↔
      ∃ w ∈ reports.flatMap fun r => r.writes space, w.1 = path := by
  have hwritten : allWritten reports =
      (reports.flatMap fun r => r.writes space).map Prod.fst := by
    rw [allWritten, List.map_flatMap]
    exact congrArg (fun f => reports.flatMap f) (funext fun r => (map_fst_writes r space).symm)
  rw [hwritten, List.mem_map]

/-! ## Builds -/

/-- A build of sources under a configuration: the reports of the conversion, and what is printed. -/
structure Built (fs : FileSystem) (config : Configuration) (sources : List Path)
    (reports : List Report) (output : String) (fs' : FileSystem) : Prop where
  converted : fs.convertAll config.conversionOptions sources = (fs', reports)
  /-- There is a report for each source, in their order. -/
  reported : reports.map Report.source = sources
  follows : ∀ report ∈ reports, report.Follows config.conversionOptions
  /-- The paths of the files that were written are printed, one on a line. -/
  printed : output = String.join ((Report.allWritten reports).map fun path => path.text ++ "\n")
  /-- A path that is printed leads to a file. -/
  written : ∀ path ∈ Report.allWritten reports, (fs'.read? path).isSome
  /-- A file that is new or has changed is one of those. -/
  changed : ∀ l, fs'.content? l ≠ fs.content? l →
    ∃ path ∈ Report.allWritten reports, fs'.target? path = some l

theorem built_convertAll (fs : FileSystem) (config : Configuration) (sources : List Path) :
    Built fs config sources (fs.convertAll config.conversionOptions sources).2
      (String.join ((Report.allWritten (fs.convertAll config.conversionOptions sources).2).map
        fun path => path.text ++ "\n"))
      (fs.convertAll config.conversionOptions sources).1 := by
  have hwrote := FileSystem.convertAll_spec fs config.conversionOptions sources
  refine ⟨rfl, FileSystem.convertAll_sources .., FileSystem.convertAll_outcomes _ _ _, rfl, ?_, ?_⟩
  · intro path hpath
    obtain ⟨w, hw, rfl⟩ := Report.mem_allWritten.mp hpath
    exact hwrote.isSome_read? hw
  · intro l hl
    obtain ⟨w, hw, hl⟩ := hwrote.exists_of_content?_ne hl
    exact ⟨w.1, Report.mem_allWritten.mpr ⟨w, hw, rfl⟩, hl⟩

namespace BuildRequest

variable {fs : FileSystem} {r : BuildRequest}

/-- Why a build does not begin: its settings are refused, or it names no sources and the pattern of
the configuration is malformed. -/
def IsRefused (r : BuildRequest) (fs : FileSystem) : Prop :=
  (∃ e, Configuration.load fs r.layers = .error e)
  ∨ ∃ config, Configuration.load fs r.layers = .ok config ∧ r.sources = []
    ∧ Sources.expand? fs config.tokens.sourceFile = none

/-- The sources of a build under a configuration: those that it names, or those that the path of the
configuration stands for. -/
inductive Chooses (r : BuildRequest) (fs : FileSystem) (config : Configuration) :
    List Path → Prop
  | named (h : r.sources ≠ []) : Chooses r fs config r.sources
  | expanded {found : Sources.Expansion} (h : r.sources = [])
      (hfound : Sources.expand? fs config.tokens.sourceFile = some found) :
      Chooses r fs config found.sources

theorem expansion?_eq_none_iff {config : Configuration} :
    r.expansion? fs config = none ↔
      r.sources = [] ∧ Sources.expand? fs config.tokens.sourceFile = none := by
  unfold expansion?
  cases r.sources <;> simp

theorem chooses_of_expansion? {config : Configuration} {found : Sources.Expansion}
    (h : r.expansion? fs config = some found) : r.Chooses fs config found.sources := by
  unfold expansion? at h
  split at h
  · rename_i hempty
    exact .expanded (List.isEmpty_iff.mp hempty) h
  · rename_i hnamed
    rw [← Option.some.inj h]
    exact .named fun hempty => hnamed (List.isEmpty_iff.mpr hempty)

theorem run_of_isRefused (h : r.IsRefused fs) :
    r.run fs = .failure fs "Configuration error" := by
  unfold run
  rcases h with ⟨e, he⟩ | ⟨config, hload, hnone⟩
  · rw [he]
  · simp only [hload, expansion?_eq_none_iff.mpr hnone]

theorem built_of_expansion? {config : Configuration} {found : Sources.Expansion}
    (hload : Configuration.load fs r.layers = .ok config)
    (hfound : r.expansion? fs config = some found) :
    (r.run fs).exitCode = 0 ∧ ∃ reports,
      Built fs config found.sources reports (r.run fs).output (r.run fs).files := by
  unfold run
  simp only [hload, hfound]
  exact ⟨trivial, _, built_convertAll fs config found.sources⟩

/-- **A build that is not refused succeeds.** -/
theorem built_of_not_isRefused (h : ¬ r.IsRefused fs) :
    (r.run fs).exitCode = 0 ∧ ∃ config sources reports,
      Configuration.load fs r.layers = .ok config ∧ r.Chooses fs config sources
      ∧ Built fs config sources reports (r.run fs).output (r.run fs).files := by
  cases hload : Configuration.load fs r.layers with
  | error e => exact absurd (.inl ⟨e, hload⟩) h
  | ok config =>
    cases hfound : r.expansion? fs config with
    | none => exact absurd (.inr ⟨config, hload, expansion?_eq_none_iff.mp hfound⟩) h
    | some found =>
      obtain ⟨hexit, reports, hbuilt⟩ := built_of_expansion? hload hfound
      exact ⟨hexit, config, _, reports, rfl, chooses_of_expansion? hfound, hbuilt⟩

end BuildRequest

/-! ## Runs -/

/-- A command that fails leaves the files as they are. -/
theorem Command.files_of_exitCode_ne_zero {fs : FileSystem} {command : Command}
    (h : (command.run fs).exitCode ≠ 0) : (command.run fs).files = fs := by
  cases command with
  | build request =>
    by_cases hrefused : request.IsRefused fs
    · exact congrArg Outcome.files (BuildRequest.run_of_isRefused hrefused)
    · exact absurd (BuildRequest.built_of_not_isRefused hrefused).1 h
  | resolve source =>
    unfold Command.run
    dsimp only
    split
    · rfl
    · rfl
  | formats => rfl

/-- **What a run leaves.** A run that fails leaves the files as they are. A build has the exit code
one if it is refused and else zero; then it prints the paths of the files that it wrote, and it has
changed no others. -/
theorem Run.ofArguments_accounted (fs : FileSystem) (args : List String) (rules : Option String) :
    ((Run.ofArguments fs args rules).exitCode ≠ 0 → (Run.ofArguments fs args rules).files = fs)
    ∧ ∀ verbose request, Command.ofArguments args = .ok ⟨verbose, .build request⟩ →
      ((Run.ofArguments fs args rules).exitCode = 1 ↔ request.IsRefused fs)
      ∧ ((Run.ofArguments fs args rules).exitCode = 0 ↔ ¬ request.IsRefused fs)
      ∧ ((Run.ofArguments fs args rules).exitCode = 0 → ∃ config sources reports,
          Configuration.load fs request.layers = .ok config
          ∧ request.Chooses fs config sources
          ∧ Built fs config sources reports (Run.ofArguments fs args rules).output
              (Run.ofArguments fs args rules).files) := by
  unfold Run.ofArguments
  refine ⟨fun h => ?_, fun verbose request hargs => ?_⟩
  · cases hargs : Command.ofArguments args with
    | error stop => rfl
    | ok request =>
      rw [hargs] at h
      exact Command.files_of_exitCode_ne_zero h
  · rw [hargs]
    change ((request.run fs).exitCode = 1 ↔ _) ∧ ((request.run fs).exitCode = 0 ↔ _)
      ∧ ((request.run fs).exitCode = 0 → _)
    by_cases hrefused : request.IsRefused fs
    · have hexit : (request.run fs).exitCode = 1 :=
        congrArg Outcome.exitCode (BuildRequest.run_of_isRefused hrefused)
      simp [hexit, hrefused]
    · obtain ⟨hexit, hbuilt⟩ := BuildRequest.built_of_not_isRefused hrefused
      exact ⟨by simp [hexit, hrefused], by simp [hexit, hrefused], fun _ => hbuilt⟩

/-- A build of a source and of one that is missing. -/
def mixedArguments : List String :=
  ["build", "brand.yaml", "nope.yaml", "-n", "ns", "-o", "out"]

theorem ofArguments_accounted_blockedStylesheet :
    (∃ config reports, Built FileSystem.blockedStylesheet config [⟨"brand.yaml"⟩, ⟨"nope.yaml"⟩]
      reports "out/brand.json\n"
      (Run.ofArguments FileSystem.blockedStylesheet mixedArguments none).files)
    ∧ BuildRequest.IsRefused { space := some "a b" } FileSystem.blockedStylesheet
    ∧ (Run.ofArguments FileSystem.blockedStylesheet ["build", "-n", "a b"] none).files
      = FileSystem.blockedStylesheet := by
  have hrefused :
      (Run.ofArguments FileSystem.blockedStylesheet ["build", "-n", "a b"] none).exitCode = 1 := by
    decide +kernel
  obtain ⟨hfiles, hbuild⟩ :=
    Run.ofArguments_accounted FileSystem.blockedStylesheet ["build", "-n", "a b"] none
  refine ⟨?_, (hbuild false _ rfl).1.mp hrefused, hfiles (by rw [hrefused]; decide)⟩
  obtain ⟨config, sources, reports, -, hchosen, hbuilt⟩ :=
    ((Run.ofArguments_accounted FileSystem.blockedStylesheet mixedArguments none).2
      false _ rfl).2.2 (by decide +kernel)
  have houtput : (Run.ofArguments FileSystem.blockedStylesheet mixedArguments none).output
      = "out/brand.json\n" := by decide +kernel
  rw [houtput] at hbuilt
  cases hchosen with
  | named => exact ⟨config, reports, hbuilt⟩
  | expanded h => cases h

end DesignTokens
