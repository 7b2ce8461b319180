import DesignTokens.Proofs.Conversion.Outputs
import DesignTokens.Proofs.FileSystem.Same

/-!
# Formats side by side

A conversion makes the output directory for the first format, and finds it for the others, or fails
to make it for each of them. Each format has a file of its own there, so writing one neither helps
nor hinders the next one: a format comes out as if it were the only one.

* `outcome_writeFormat`: writing a format leaves the outcome of every other one as it was;
* `writeFormats_outcomes`, `consistent_writes`: what several formats come to;
* `formats_independent`: the formats of a conversion one by one and in another order.
-/

namespace DesignTokens

/-- The file that a format of a source is written to. -/
def ConversionOptions.outputPath (options : ConversionOptions) (base : String)
    (format : OutputFormat) : Path :=
  options.outputDirectory.join ⟨base ++ "." ++ format.extension⟩

/-! ## Names of output files -/

theorem OutputFormat.length_extension (format : OutputFormat) :
    format.extension.toList.length = 4 := by
  cases format <;> decide

theorem OutputFormat.extension_inj {format format' : OutputFormat}
    (h : format.extension.toList = format'.extension.toList) : format = format' := by
  revert h
  cases format <;> cases format' <;> decide

theorem OutputFormat.fileName_inj {base base' : String} {format format' : OutputFormat}
    (h : base ++ "." ++ format.extension = base' ++ "." ++ format'.extension) :
    base = base' ∧ format = format' := by
  have hlength : format.extension.toList.length = format'.extension.toList.length :=
    format.length_extension.trans format'.length_extension.symm
  have htext := congrArg String.toList h
  rw [String.toList_append, String.toList_append (t := format'.extension)] at htext
  obtain ⟨hbase, hextension⟩ := List.append_inj' htext hlength
  rw [String.toList_append, String.toList_append] at hbase
  exact ⟨String.toList_inj.mp (List.append_cancel_right hbase), extension_inj hextension⟩

namespace FileSystem

variable {fs fs' : FileSystem} {options : ConversionOptions} {base base' : String}
  {tree tree' : Tree} {format format' : OutputFormat} {formats : List OutputFormat}

theorem isFileName_output (hbase : '/' ∉ base.toList) (format : OutputFormat) :
    IsFileName (base ++ "." ++ format.extension) := by
  have htext : (base ++ "." ++ format.extension).toList
      = base.toList ++ '.' :: format.extension.toList := by simp
  have hlong : ∀ s : String, s.toList.length < 5 → base ++ "." ++ format.extension ≠ s := by
    rintro s hs rfl
    rw [htext, List.length_append, List.length_cons, format.length_extension] at hs
    omega
  refine ⟨⟨hlong "" (by decide), hlong "." (by decide), fun h => ?_⟩, hlong ".." (by decide)⟩
  rw [htext] at h
  rcases List.mem_append.mp h with h | h
  · exact hbase h
  · cases format <;> exact absurd h (by decide)

/-- Without links, one file has one name. -/
theorem outputPath_inj (hlinks : fs.IsLinkFree) (hbase : '/' ∉ base.toList)
    (hbase' : '/' ∉ base'.toList) {l : Location}
    (h : fs.target? (options.outputPath base format) = some l)
    (h' : fs.target? (options.outputPath base' format') = some l) :
    base = base' ∧ format = format' := by
  have hsite := (eq_site_of_target? hlinks h).symm.trans (eq_site_of_target? hlinks h')
  unfold ConversionOptions.outputPath at hsite
  rw [site_join_fileName (isFileName_output hbase _),
    site_join_fileName (isFileName_output hbase' _)] at hsite
  exact OutputFormat.fileName_inj (List.singleton_inj.mp (List.append_inj' hsite rfl).2)

/-! ## Writing one format -/

/-- A format is written once its directory is made. -/
theorem writeFormat_of_made (h : fs.makeDirectories options.outputDirectory = (fs', true)) :
    fs.writeFormat options base tree format
      = match fs'.write? (options.outputPath base format)
            (format.render tree options.space base).toUTF8 with
        | some fs'' => (fs'', .ok (options.outputPath base format))
        | none => (fs', .error ⟨options.outputPath base format⟩) := by
  unfold writeFormat ConversionOptions.outputPath
  rw [h]
  rfl

theorem outcome_of_made (h : fs.makeDirectories options.outputDirectory = (fs', true)) :
    (fs.writeFormat options base tree format).2
      = if (fs'.write? (options.outputPath base format)
            (format.render tree options.space base).toUTF8).isSome
        then .ok (options.outputPath base format)
        else .error ⟨options.outputPath base format⟩ := by
  rw [writeFormat_of_made h]
  split
  · rename_i hwrite
    rw [hwrite]
    rfl
  · rename_i hwrite
    rw [hwrite]
    rfl

theorem writeFormat_of_not_made (h : fs.makeDirectories options.outputDirectory = (fs', false))
    (base : String) (tree : Tree) (format : OutputFormat) :
    fs.writeFormat options base tree format = (fs', .error ⟨options.outputDirectory⟩) := by
  unfold writeFormat
  rw [h]
  rfl

/-- What becomes of a file system when a format is written: its directories are made, and then
at most files change. -/
theorem writeFormat_steps (hlinks : fs.IsLinkFree) (options : ConversionOptions) (base : String)
    (tree : Tree) (format : OutputFormat) :
    (fs.writeFormat options base tree format).1.IsLinkFree
    ∧ SameDirectories (fs.makeDirectories options.outputDirectory).1
        (fs.writeFormat options base tree format).1
    ∧ (fs.writeFormat options base tree format).1.makeDirectories options.outputDirectory
        = ((fs.writeFormat options base tree format).1,
          (fs.makeDirectories options.outputDirectory).2) := by
  have hlinks₁ := isLinkFree_makeDirectories hlinks options.outputDirectory
  have hagain := makeDirectories_makeDirectories hlinks options.outputDirectory
  cases hmake : fs.makeDirectories options.outputDirectory with
  | mk fs₁ made =>
  rw [hmake] at hlinks₁ hagain
  cases made with
  | false =>
    rw [writeFormat_of_not_made hmake]
    exact ⟨hlinks₁, SameDirectories.refl _, hagain⟩
  | true =>
    rw [writeFormat_of_made hmake]
    split
    · rename_i fs₂ hwrite
      have hlinks₂ := isLinkFree_of_write? hlinks₁ hwrite
      have hsame := sameDirectories_of_write? hwrite
      exact ⟨hlinks₂, hsame, makeDirectories_of_sameDirectories hlinks₁ hlinks₂ hsame hagain⟩
    · exact ⟨hlinks₁, SameDirectories.refl _, hagain⟩

/-- Whether the file of a format can be written does not depend on what is in files. -/
theorem isSome_write?_output (hbase : '/' ∉ base.toList) (hlinks : fs.IsLinkFree)
    (hlinks' : fs'.IsLinkFree) (hsame : SameDirectories fs fs') (content : ByteArray) :
    (fs'.write? (options.outputPath base format) content).isSome
      = (fs.write? (options.outputPath base format) content).isSome := by
  unfold ConversionOptions.outputPath
  exact write?_isSome_of_sameDirectories (isFileName_output hbase format) hlinks hlinks' hsame content

/-- **Writing a format leaves the outcome of every other one as it was.** -/
theorem outcome_writeFormat (hlinks : fs.IsLinkFree) (hbase' : '/' ∉ base'.toList) :
    ((fs.writeFormat options base tree format).1.writeFormat options base' tree' format').2
      = (fs.writeFormat options base' tree' format').2 := by
  have hlinks₁ := isLinkFree_makeDirectories hlinks options.outputDirectory
  obtain ⟨hlinks₂, hsame, hsettled⟩ := writeFormat_steps hlinks options base tree format
  cases hmake : fs.makeDirectories options.outputDirectory with
  | mk fs₁ made =>
  rw [hmake] at hlinks₁ hsame hsettled
  dsimp only at hsettled
  cases made with
  | false =>
    rw [writeFormat_of_not_made hsettled, writeFormat_of_not_made hmake base' tree' format']
  | true =>
    -- the first format has at most changed files, and these do not decide about the other one
    rw [outcome_of_made hsettled, outcome_of_made hmake,
      isSome_write?_output hbase' hlinks₁ hlinks₂ hsame]

theorem path_of_outcome {path : Path}
    (h : (fs.writeFormat options base tree format).2 = .ok path) :
    path = options.outputPath base format := by
  cases hmake : fs.makeDirectories options.outputDirectory with
  | mk fs₁ made =>
  cases made with
  | false =>
    rw [writeFormat_of_not_made hmake] at h
    exact absurd h (by simp)
  | true =>
    rw [outcome_of_made hmake] at h
    split at h
    · exact (Except.ok.inj h).symm
    · exact absurd h (by simp)

/-! ## Writing several formats -/

theorem writeFormats_cons (fs : FileSystem) (options : ConversionOptions) (base : String)
    (tree : Tree) (format : OutputFormat) (formats : List OutputFormat) :
    fs.writeFormats options base tree (format :: formats)
      = (((fs.writeFormat options base tree format).1.writeFormats options base tree formats).1,
        (format, (fs.writeFormat options base tree format).2)
          :: ((fs.writeFormat options base tree format).1.writeFormats options base tree formats).2) :=
  rfl

theorem isLinkFree_writeFormats (hlinks : fs.IsLinkFree) :
    (fs.writeFormats options base tree formats).1.IsLinkFree := by
  induction formats generalizing fs with
  | nil => exact hlinks
  | cons format formats ih =>
    obtain ⟨hlinks₁, -, -⟩ := writeFormat_steps hlinks options base tree format
    exact ih hlinks₁

/-- After some formats every other one has the outcome that it had before. -/
theorem outcome_writeFormats (hlinks : fs.IsLinkFree) (hbase' : '/' ∉ base'.toList) :
    ((fs.writeFormats options base tree formats).1.writeFormat options base' tree' format').2
      = (fs.writeFormat options base' tree' format').2 := by
  induction formats generalizing fs with
  | nil => rfl
  | cons format formats ih =>
    obtain ⟨hlinks₁, -, -⟩ := writeFormat_steps hlinks options base tree format
    rw [writeFormats_cons, ih hlinks₁, outcome_writeFormat hlinks hbase']

/-- **Several formats come out as if each were the only one.** -/
theorem writeFormats_outcomes (hlinks : fs.IsLinkFree) (hbase : '/' ∉ base.toList) :
    (fs.writeFormats options base tree formats).2
      = formats.map fun format => (format, (fs.writeFormat options base tree format).2) := by
  induction formats generalizing fs with
  | nil => rfl
  | cons format formats ih =>
    obtain ⟨hlinks₁, -, -⟩ := writeFormat_steps hlinks options base tree format
    rw [writeFormats_cons, List.map_cons, ih hlinks₁]
    simp only [outcome_writeFormat hlinks hbase]

/-- The directories are made once, and then at most files change. -/
theorem writeFormats_steps (hlinks : fs.IsLinkFree) (hne : formats ≠ []) :
    SameDirectories (fs.makeDirectories options.outputDirectory).1
        (fs.writeFormats options base tree formats).1
    ∧ (fs.writeFormats options base tree formats).1.makeDirectories options.outputDirectory
        = ((fs.writeFormats options base tree formats).1,
          (fs.makeDirectories options.outputDirectory).2) := by
  induction formats generalizing fs with
  | nil => exact absurd rfl hne
  | cons format formats ih =>
    obtain ⟨hlinks₁, hsame, hsettled⟩ := writeFormat_steps hlinks options base tree format
    rw [writeFormats_cons]
    by_cases hlast : formats = []
    · subst hlast
      exact ⟨hsame, hsettled⟩
    · -- the other formats find the directories as the first one has left them
      have hrest := ih hlinks₁ hlast
      rw [hsettled] at hrest
      exact ⟨hsame.trans hrest.1, hrest.2⟩

/-! ## Converting a source -/

/-- What becomes of a format of a source. -/
def outcome (fs : FileSystem) (options : ConversionOptions) (source : Path)
    (format : OutputFormat) : Except WriteError Path :=
  (fs.writeFormat options source.baseName
    (((fs.readSource source).map Reading.tree).getD .empty) format).2

variable {source : Path}

theorem readSource_isSome : (fs.readSource source).isSome = fs.contains source := by
  unfold readSource
  cases fs.contains source <;> rfl

theorem readSource_eq_none_iff : fs.readSource source = none ↔ fs.contains source = false := by
  rw [← readSource_isSome, Option.isSome_eq_false_iff, Option.isNone_iff_eq_none]

/-- A missing source is skipped. -/
theorem convert_of_missing (h : fs.contains source = false) (options : ConversionOptions) :
    fs.convert options source = (fs, { source := source, reading := none }) := by
  unfold convert
  rw [readSource_eq_none_iff.mpr h]

theorem convert_of_reading {reading : Reading} (h : fs.readSource source = some reading)
    (options : ConversionOptions) :
    fs.convert options source
      = ((fs.writeFormats options source.baseName reading.tree options.formats).1,
        { source := source, reading := some reading,
          outcomes := (fs.writeFormats options source.baseName reading.tree options.formats).2 }) := by
  unfold convert
  rw [h]

theorem isLinkFree_convert (hlinks : fs.IsLinkFree) (options : ConversionOptions)
    (source : Path) : (fs.convert options source).1.IsLinkFree := by
  cases hread : fs.readSource source with
  | none => rwa [convert_of_missing (readSource_eq_none_iff.mp hread)]
  | some reading =>
    rw [convert_of_reading hread]
    exact isLinkFree_writeFormats hlinks

/-- **What a conversion reports of its formats.** -/
theorem convert_outcomes (hlinks : fs.IsLinkFree) (options : ConversionOptions) (source : Path) :
    (fs.convert options source).2.outcomes
      = if fs.contains source then options.formats.map fun f => (f, fs.outcome options source f)
        else [] := by
  rw [← readSource_isSome]
  unfold outcome
  cases hread : fs.readSource source with
  | none => rw [convert_of_missing (readSource_eq_none_iff.mp hread)]; rfl
  | some reading =>
    rw [convert_of_reading hread]
    exact writeFormats_outcomes hlinks source.slash_notMem_baseName

/-- What a conversion writes. -/
theorem mem_writes_convert (hlinks : fs.IsLinkFree) (options : ConversionOptions) (source : Path)
    {w : Path × ByteArray} :
    w ∈ (fs.convert options source).2.writes options.space
      ↔ fs.contains source = true ∧ ∃ format ∈ options.formats,
          fs.outcome options source format = .ok (options.outputPath source.baseName format)
          ∧ w = (options.outputPath source.baseName format,
            fs.rendering options source format) := by
  obtain ⟨hsource, hreading, -⟩ := convert_spec fs options source
  have htext : Reading.rendering (fs.convert options source).2.reading options.space
      (fs.convert options source).2.source = fs.rendering options source := by
    rw [hsource, hreading]
    rfl
  unfold Report.writes writesOf
  rw [htext, convert_outcomes hlinks]
  cases fs.contains source with
  | false => simp
  | true =>
    simp only [List.mem_filterMap, if_true, List.mem_map, true_and]
    constructor
    · rintro ⟨o, ⟨format, hformat, rfl⟩, hw⟩
      obtain ⟨path, hpath, rfl⟩ := Option.map_eq_some_iff.mp hw
      have hok : fs.outcome options source format = .ok path := by
        cases houtcome : fs.outcome options source format with
        | error e => rw [houtcome] at hpath; exact absurd hpath (by simp [Except.toOption])
        | ok path' => rw [houtcome] at hpath; rw [Option.some.inj hpath]
      obtain rfl := path_of_outcome hok
      exact ⟨format, hformat, hok, rfl⟩
    · rintro ⟨format, hformat, hok, rfl⟩
      exact ⟨_, ⟨format, hformat, rfl⟩, by rw [hok]; rfl⟩

theorem mem_written_convert (hlinks : fs.IsLinkFree) {path : Path} :
    path ∈ (fs.convert options source).2.written
      ↔ fs.contains source = true ∧ ∃ format ∈ options.formats,
          fs.outcome options source format = .ok path := by
  rw [← Report.map_fst_writes _ options.space, List.mem_map]
  constructor
  · rintro ⟨w, hw, rfl⟩
    obtain ⟨hsource, format, hformat, hok, rfl⟩ := (mem_writes_convert hlinks options source).mp hw
    exact ⟨hsource, format, hformat, hok⟩
  · rintro ⟨hsource, format, hformat, hok⟩
    obtain rfl := path_of_outcome hok
    have hw := (mem_writes_convert hlinks options source).mpr ⟨hsource, format, hformat, hok, rfl⟩
    exact ⟨_, hw, rfl⟩

/-- Each format of a conversion has a file of its own. -/
theorem consistent_writes (hlinks : fs.IsLinkFree) (hlinks' : fs'.IsLinkFree)
    (options : ConversionOptions) (source : Path) :
    fs'.Consistent ((fs.convert options source).2.writes options.space) := by
  intro w hw w' hw' l hl hl'
  obtain ⟨-, format, -, -, rfl⟩ := (mem_writes_convert hlinks options source).mp hw
  obtain ⟨-, format', -, -, rfl⟩ := (mem_writes_convert hlinks options source).mp hw'
  obtain ⟨-, rfl⟩ := outputPath_inj hlinks' source.slash_notMem_baseName
    source.slash_notMem_baseName hl hl'
  rfl

/-- **A format that came out is there in the end.** -/
theorem read?_convert (hlinks : fs.IsLinkFree) (options : ConversionOptions)
    (hsource : fs.contains source = true) (hformat : format ∈ options.formats) {path : Path}
    (h : fs.outcome options source format = .ok path) :
    path = options.outputPath source.baseName format
    ∧ (fs.convert options source).1.read? path = some (fs.rendering options source format) := by
  obtain rfl := path_of_outcome h
  obtain ⟨-, -, hwrote⟩ := convert_spec fs options source
  have hlinks' := isLinkFree_convert hlinks options source
  have hconsistent := consistent_writes hlinks hlinks' options source
  exact ⟨rfl, hwrote.read?_of_mem hconsistent
    ((mem_writes_convert hlinks options source).mpr ⟨hsource, format, hformat, h, rfl⟩)⟩

/-- A conversion makes the output directory, and apart from that at most changes files. -/
theorem sameDirectories_convert (hlinks : fs.IsLinkFree) (options : ConversionOptions)
    (hsource : fs.contains source = true) (hne : options.formats ≠ []) :
    SameDirectories (fs.makeDirectories options.outputDirectory).1 (fs.convert options source).1 := by
  obtain ⟨reading, hread⟩ := Option.isSome_iff_exists.mp (readSource_isSome.trans hsource)
  rw [convert_of_reading hread]
  exact (writeFormats_steps hlinks hne).1

/-! ## One format and several -/

/-- The conversion of a source into formats. -/
def convertInto (fs : FileSystem) (options : ConversionOptions) (source : Path)
    (formats : List OutputFormat) : FileSystem × Report :=
  fs.convert { options with formats := formats } source

/-- What becomes of a format does not depend on which formats are asked for. -/
theorem outcome_withFormats (fs : FileSystem) (options : ConversionOptions)
    (formats : List OutputFormat) :
    fs.outcome { options with formats := formats } = fs.outcome options := by
  funext source format
  simp only [outcome, writeFormat]

theorem rendering_withFormats (fs : FileSystem) (options : ConversionOptions)
    (formats : List OutputFormat) :
    fs.rendering { options with formats := formats } = fs.rendering options := by
  funext source format
  simp only [rendering]

theorem convertInto_outcomes (hlinks : fs.IsLinkFree) (options : ConversionOptions) (source : Path)
    (formats : List OutputFormat) :
    (fs.convertInto options source formats).2.outcomes
      = if fs.contains source then formats.map fun f => (f, fs.outcome options source f)
        else [] := by
  unfold convertInto
  rw [convert_outcomes hlinks, outcome_withFormats]

theorem convertInto_flatMap (hlinks : fs.IsLinkFree) (options : ConversionOptions) (source : Path)
    (formats : List OutputFormat) :
    (fs.convertInto options source formats).2.outcomes
      = formats.flatMap fun format => (fs.convertInto options source [format]).2.outcomes := by
  simp only [convertInto_outcomes hlinks]
  split
  · simp only [List.map_singleton]
    exact List.map_eq_flatMap
  · simp

/-- Both conversions have the file of a format that came out. -/
theorem read?_convertInto (hlinks : fs.IsLinkFree) (hformat : format ∈ formats) {path : Path}
    (h : path ∈ (fs.convertInto options source [format]).2.written) :
    (fs.convertInto options source formats).1.read? path
      = some (fs.rendering options source format) := by
  obtain ⟨hsource, format', hmem, hok⟩ := (mem_written_convert hlinks).mp h
  obtain rfl := List.mem_singleton.mp hmem
  rw [outcome_withFormats, ← outcome_withFormats fs options formats] at hok
  rw [← rendering_withFormats fs options formats]
  exact (read?_convert hlinks { options with formats := formats } hsource hformat hok).2

theorem same_convertInto_of_perm (hlinks : fs.IsLinkFree) {reordered : List OutputFormat}
    (h : reordered.Perm formats) :
    Same (fs.convertInto options source formats).1 (fs.convertInto options source reordered).1 := by
  have hlinks₁ := isLinkFree_convert hlinks { options with formats := formats } source
  have hlinks₂ := isLinkFree_convert hlinks { options with formats := reordered } source
  obtain ⟨-, -, hwrote₁⟩ := convert_spec fs { options with formats := formats } source
  obtain ⟨-, -, hwrote₂⟩ := convert_spec fs { options with formats := reordered } source
  refine same_of_wrote hwrote₁ hwrote₂ (fun w => ?_) (consistent_writes hlinks hlinks₁ _ source)
    hlinks₁ hlinks₂ ?_
  · rw [mem_writes_convert hlinks { options with formats := formats },
      mem_writes_convert hlinks { options with formats := reordered }]
    simp only [h.mem_iff, outcome_withFormats, rendering_withFormats, ConversionOptions.outputPath]
  · cases hsource : fs.contains source with
    | false =>
      unfold convertInto
      rw [convert_of_missing hsource, convert_of_missing hsource]
      exact SameDirectories.refl _
    | true =>
      by_cases hne : formats = []
      · subst hne
        rw [List.perm_nil.mp h]
        exact SameDirectories.refl _
      · have hne' : reordered ≠ [] := fun hnil => hne (List.nil_perm.mp (hnil ▸ h))
        have hsame := sameDirectories_convert hlinks { options with formats := formats } hsource hne
        exact hsame.symm.trans
          (sameDirectories_convert hlinks { options with formats := reordered } hsource hne')

/--
**Formats do not influence each other.**

A conversion into several formats reports for each of them what the conversion of the same files into
that format alone reports: the same file with the same content, or a failure with the same path. So
a format list in another order leaves the same files, and reports what it reported in that order.
-/
theorem formats_independent (hlinks : fs.IsLinkFree) (options : ConversionOptions) (source : Path)
    (formats : List OutputFormat) :
    ((fs.convertInto options source formats).2.outcomes
        = formats.flatMap fun format => (fs.convertInto options source [format]).2.outcomes)
    ∧ (∀ format ∈ formats,
        (fs.contains source = true →
          ∃ outcome, (fs.convertInto options source [format]).2.outcomes = [(format, outcome)])
        ∧ ∀ path ∈ (fs.convertInto options source [format]).2.written, ∃ content,
            (fs.convertInto options source [format]).1.read? path = some content
            ∧ (fs.convertInto options source formats).1.read? path = some content)
    ∧ ∀ reordered : List OutputFormat, reordered.Perm formats →
        Same (fs.convertInto options source formats).1 (fs.convertInto options source reordered).1
        ∧ ∀ i j : Nat, reordered[i]? = formats[j]? →
            (fs.convertInto options source reordered).2.outcomes[i]?
              = (fs.convertInto options source formats).2.outcomes[j]? := by
  refine ⟨convertInto_flatMap hlinks options source formats, fun format hformat => ⟨?_, ?_⟩,
    fun reordered hperm => ⟨same_convertInto_of_perm hlinks hperm, fun i j hij => ?_⟩⟩
  · intro hsource
    rw [convertInto_outcomes hlinks, if_pos hsource]
    exact ⟨_, rfl⟩
  · exact fun path hpath => ⟨_, read?_convertInto hlinks (List.mem_singleton_self _) hpath,
      read?_convertInto hlinks hformat hpath⟩
  · rw [convertInto_outcomes hlinks, convertInto_outcomes hlinks]
    split
    · rw [List.getElem?_map, List.getElem?_map, hij]
    · rfl

/-- A source beside a directory that stands where its stylesheet would be written. -/
def blockedStylesheet : FileSystem where
  root := .directory [("work", .directory [
    ("brand.yaml", .file "x: !{*a}\nlist: &a 4px\n".toUTF8),
    ("out", .directory [("brand.scss", .directory []), ("brand.json", .file "old".toUTF8)])])]
  current := ["work"]

/-- Both formats, the first one twice, into a directory that is reached by a detour. -/
def detourBuild : ConversionOptions where
  space := "ns"
  formats := [.json, .scss, .json]
  outputDirectory := ⟨"./made/../out/"⟩

theorem formats_independent_blockedStylesheet :
    (blockedStylesheet.convertInto detourBuild ⟨"brand.yaml"⟩ [.json, .scss, .json]).2.outcomes
        = [(.json, .ok ⟨"./made/../out/brand.json"⟩),
          (.scss, .error ⟨⟨"./made/../out/brand.scss"⟩⟩),
          (.json, .ok ⟨"./made/../out/brand.json"⟩)]
    ∧ Same (blockedStylesheet.convertInto detourBuild ⟨"brand.yaml"⟩ [.json, .scss, .json]).1
        (blockedStylesheet.convertInto detourBuild ⟨"brand.yaml"⟩ [.scss, .json, .json]).1 := by
  have hlinks : blockedStylesheet.IsLinkFree := isLinkFree_of_root (by decide)
  obtain ⟨houtcomes, -, hreordered⟩ :=
    formats_independent hlinks detourBuild ⟨"brand.yaml"⟩ [.json, .scss, .json]
  exact ⟨houtcomes.trans (by decide +kernel), (hreordered _ (by decide)).1⟩

end FileSystem

end DesignTokens
