import DesignTokens.Conversion
import DesignTokens.Proofs.FileSystem.Write

/-!
# What is left of the outputs of a build

All sources of a build write into one directory, under names made of their own, and each is read
when its turn comes. So a file that was written holds what was written there last, and a source that
an earlier one has written to is read as it is then. These are the only ways in which an output can
be lost.

* `writeFormats_spec`, `convert_spec`, `convertAll_spec`: what is written, step by step;
* `convertAll_sources`: the sources that a build reports of;
* `read?_output_iff`: when an output of a build is still there in the end.
-/

namespace DesignTokens

/-- The files that were written, with their contents. -/
def writesOf (text : OutputFormat → ByteArray)
    (outcomes : List (OutputFormat × Except WriteError Path)) : List (Path × ByteArray) :=
  outcomes.filterMap fun o => o.2.toOption.map fun path => (path, text o.1)

theorem writesOf_append (text : OutputFormat → ByteArray)
    (outcomes more : List (OutputFormat × Except WriteError Path)) :
    writesOf text (outcomes ++ more) = writesOf text outcomes ++ writesOf text more :=
  List.filterMap_append

/-- What is written for a source in a format. -/
def Reading.rendering (reading : Option Reading) (space : String) (source : Path)
    (format : OutputFormat) : ByteArray :=
  (format.render ((reading.map Reading.tree).getD .empty) space source.baseName).toUTF8

/-- The files that were written for a source. -/
def Report.writes (r : Report) (space : String) : List (Path × ByteArray) :=
  writesOf (Reading.rendering r.reading space r.source) r.outcomes

/-- These are the files that the report lists. -/
theorem Report.map_fst_writes (r : Report) (space : String) :
    (r.writes space).map Prod.fst = r.written := by
  unfold Report.writes writesOf Report.written
  rw [List.map_filterMap]
  refine congrArg (fun f => r.outcomes.filterMap f) (funext fun o => ?_)
  rw [Option.map_map]
  exact Option.map_id_apply

theorem Report.mem_written {r : Report} {space : String} {w : Path × ByteArray}
    (h : w ∈ r.writes space) : w.1 ∈ r.written := by
  rw [← Report.map_fst_writes r space]
  exact List.mem_map_of_mem h

namespace FileSystem

variable {fs fs' : FileSystem} {options : ConversionOptions}

/-- What a format of a source looks like, as the source is now. -/
def rendering (fs : FileSystem) (options : ConversionOptions) (source : Path)
    (format : OutputFormat) : ByteArray :=
  Reading.rendering (fs.readSource source) options.space source format

/-! ## What is written -/

theorem writeFormat_spec (fs : FileSystem) (options : ConversionOptions) (base : String)
    (tree : Tree) (format : OutputFormat) :
    Wrote fs
      (writesOf (fun f => (f.render tree options.space base).toUTF8)
        [(format, (fs.writeFormat options base tree format).2)])
      (fs.writeFormat options base tree format).1 := by
  have hmake := makeDirectories_spec fs options.outputDirectory
  unfold writeFormat
  generalize fs.makeDirectories options.outputDirectory = result at hmake ⊢
  obtain ⟨fs₁, made⟩ := result
  dsimp only
  split
  · split
    · rename_i fs₂ hwrite
      exact hmake.wrote.trans (wrote_of_write? hwrite)
    · exact hmake.wrote
  · exact hmake.wrote

theorem writeFormats_spec (fs : FileSystem) (options : ConversionOptions) (base : String)
    (tree : Tree) (formats : List OutputFormat) :
    Wrote fs
      (writesOf (fun f => (f.render tree options.space base).toUTF8)
        (fs.writeFormats options base tree formats).2)
      (fs.writeFormats options base tree formats).1 := by
  induction formats generalizing fs with
  | nil => exact (KeepsFiles.refl fs).wrote
  | cons format rest ih =>
    have hfirst := writeFormat_spec fs options base tree format
    have hrest := ih (fs.writeFormat options base tree format).1
    have hboth := hfirst.trans hrest
    rw [← writesOf_append] at hboth
    exact hboth

/-- A conversion reads its source once, before it writes. -/
theorem convert_spec (fs : FileSystem) (options : ConversionOptions) (source : Path) :
    (fs.convert options source).2.source = source
    ∧ (fs.convert options source).2.reading = fs.readSource source
    ∧ Wrote fs ((fs.convert options source).2.writes options.space)
        (fs.convert options source).1 := by
  unfold convert
  cases hread : fs.readSource source with
  | none => exact ⟨rfl, rfl, (KeepsFiles.refl fs).wrote⟩
  | some reading =>
    exact ⟨rfl, rfl, writeFormats_spec fs options source.baseName reading.tree options.formats⟩

theorem convertAll_cons (fs : FileSystem) (options : ConversionOptions) (source : Path)
    (rest : List Path) :
    fs.convertAll options (source :: rest)
      = (((fs.convert options source).1.convertAll options rest).1,
        (fs.convert options source).2
          :: ((fs.convert options source).1.convertAll options rest).2) :=
  rfl

/-- A build writes what its reports say, one after the other. -/
theorem convertAll_spec (fs : FileSystem) (options : ConversionOptions) (sources : List Path) :
    Wrote fs ((fs.convertAll options sources).2.flatMap fun r => r.writes options.space)
      (fs.convertAll options sources).1 := by
  induction sources generalizing fs with
  | nil => exact (KeepsFiles.refl fs).wrote
  | cons source rest ih =>
    obtain ⟨-, -, hfirst⟩ := convert_spec fs options source
    exact hfirst.trans (ih (fs.convert options source).1)

/-- There is a report for each source, in their order. -/
theorem convertAll_sources (fs : FileSystem) (options : ConversionOptions) (sources : List Path) :
    (fs.convertAll options sources).2.map Report.source = sources := by
  induction sources generalizing fs with
  | nil => rfl
  | cons source rest ih =>
    rw [convertAll_cons, List.map_cons, ih, (convert_spec fs options source).1]

/-- Around one source, a build is a build, a conversion and a build. -/
theorem exists_of_getElem?_convertAll {sources : List Path} {i : Nat} {report : Report}
    (h : (fs.convertAll options sources).2[i]? = some report) :
    ∃ fs₁ fs₂,
      sources[i]? = some report.source ∧ report.reading = fs₁.readSource report.source
      ∧ Wrote fs (((fs.convertAll options sources).2.take i).flatMap fun r =>
          r.writes options.space) fs₁
      ∧ Wrote fs₁ (report.writes options.space) fs₂
      ∧ Wrote fs₂ (((fs.convertAll options sources).2.drop (i + 1)).flatMap fun r =>
          r.writes options.space) (fs.convertAll options sources).1 := by
  induction sources generalizing fs i with
  | nil => exact absurd h (by simp [convertAll])
  | cons source rest ih =>
    obtain ⟨hsource, hreading, hwrote⟩ := convert_spec fs options source
    cases i with
    | zero =>
      obtain rfl : (fs.convert options source).2 = report := Option.some.inj h
      refine ⟨fs, (fs.convert options source).1, ?_, ?_, (KeepsFiles.refl fs).wrote, hwrote,
        convertAll_spec _ options rest⟩
      · rw [hsource]
        rfl
      · rw [hsource, hreading]
    | succ i =>
      obtain ⟨fs₁, fs₂, hi, hread, hbefore, hhere, hafter⟩ := ih h
      exact ⟨fs₁, fs₂, hi, hread, hwrote.trans hbefore, hhere, hafter⟩

/-! ## What is left -/

/-- A source that holds what it held is read as it was. -/
theorem readSource_of_grows (hgrows : Grows fs fs') {source : Path}
    (hsource : fs.contains source = true) (hsame : fs'.read? source = fs.read? source) :
    fs'.readSource source = fs.readSource source := by
  obtain ⟨l, hl⟩ := Option.isSome_iff_exists.mp (contains_iff.mp hsource)
  have hsource' : fs'.contains source = true := by
    rw [contains_iff, target?_of_grows hgrows hl]
    rfl
  unfold readSource readText?
  rw [hsource, hsource', hsame]

/--
**When an output of a build is still there in the end.**

A build has one report for each source, in their order. Take a source that was there when the build began and that still held the same when its turn came:
the last earlier write to its file, if there was one, has left the same content. An output written
for it holds the source in its format, as the source was when the build began, exactly if the last
later write to the same file, if there was one, has written the same.
-/
theorem read?_output_iff {sources : List Path} {reports : List Report}
    (hrun : fs.convertAll options sources = (fs', reports))
    {i : Nat} {report : Report} (hreport : reports[i]? = some report)
    (hsource : fs.contains report.source = true)
    (hheld : ∀ content ∈ fs'.lastWrite? ((reports.take i).flatMap fun r => r.writes options.space)
      report.source, fs.read? report.source = some content)
    {j : Nat} {format : OutputFormat} {path : Path}
    (houtcome : report.outcomes[j]? = some (format, .ok path)) :
    reports.map Report.source = sources
    ∧ sources[i]? = some report.source
    ∧ (fs'.read? path = some (fs.rendering options report.source format)
        ↔ ∀ content ∈ fs'.lastWrite?
            (writesOf (fs.rendering options report.source) (report.outcomes.drop (j + 1))
              ++ (reports.drop (i + 1)).flatMap fun r => r.writes options.space) path,
            content = fs.rendering options report.source format) := by
  obtain ⟨rfl, rfl⟩ := Prod.mk.inj hrun
  obtain ⟨fs₁, fs₂, hi, hread, hbefore, hhere, hafter⟩ := exists_of_getElem?_convertAll hreport
  refine ⟨convertAll_sources fs options sources, hi, ?_⟩
  -- the source still held the same when its turn came
  obtain ⟨l, hl⟩ := Option.isSome_iff_exists.mp (contains_iff.mp hsource)
  have hl₁ := target?_of_grows hbefore.grows hl
  have hl' := target?_of_grows (hhere.grows.trans hafter.grows) hl₁
  have hsame : fs₁.read? report.source = fs.read? report.source := by
    refine hbefore.read?_of_same (contains_iff.mp hsource) ?_
    rw [lastWrite?_eq hl'] at hheld
    rw [lastWrite?_eq hl₁,
      ← lastAt?_of_grows (hhere.grows.trans hafter.grows) hbefore.leads]
    exact hheld
  have htext : Reading.rendering report.reading options.space report.source
      = fs.rendering options report.source := by
    rw [hread, readSource_of_grows hbefore.grows hsource hsame]
    rfl
  -- the output, with the writes before and behind it
  have hsplit : report.outcomes
      = report.outcomes.take j ++ (format, .ok path) :: report.outcomes.drop (j + 1) := by
    obtain ⟨hj, hget⟩ := List.getElem?_eq_some_iff.mp houtcome
    rw [← hget, ← List.drop_eq_getElem_cons hj, List.take_append_drop]
  have hwrites : report.writes options.space
      = writesOf (fs.rendering options report.source) (report.outcomes.take j)
        ++ (path, fs.rendering options report.source format)
        :: writesOf (fs.rendering options report.source) (report.outcomes.drop (j + 1)) := by
    unfold Report.writes
    rw [htext]
    conv => lhs; rw [hsplit, writesOf_append]
    rfl
  have hall := hhere.trans hafter
  rw [hwrites, List.append_assoc, List.cons_append] at hall
  exact hall.read?_eq_some_iff

/-- Three sources, of which two have one name but different tokens. -/
def brands : FileSystem where
  root := .directory [
    ("a", .directory [("brand.yaml", .file "x: 1\n".toUTF8)]),
    ("b", .directory [("brand.yaml", .file "x: 2\n".toUTF8),
      ("size.yaml", .file "y: 3\n".toUTF8)])]
  current := []

def brandSources : List Path :=
  [⟨"a/brand.yaml"⟩, ⟨"b/brand.yaml"⟩, ⟨"b/size.yaml"⟩]

def brandBuild : ConversionOptions where
  space := "ns"
  formats := [.json]
  outputDirectory := ⟨"out"⟩

/-- The report of the second source. -/
def brandReport : Report :=
  ((brands.convert brandBuild ⟨"a/brand.yaml"⟩).1.convert brandBuild ⟨"b/brand.yaml"⟩).2

theorem read?_output_iff_brands :
    (brands.convertAll brandBuild brandSources).1.read? ⟨"out/brand.json"⟩
      = some (brands.rendering brandBuild ⟨"b/brand.yaml"⟩ .json) := by
  have hreport : (brands.convertAll brandBuild brandSources).2[1]? = some brandReport := by
    unfold brandSources brandReport
    rw [convertAll_cons, convertAll_cons]
    rfl
  have hsource : brandReport.source = ⟨"b/brand.yaml"⟩ := by decide +kernel
  have hthere : brands.contains brandReport.source = true := by decide +kernel
  have houtcome : brandReport.outcomes[0]? = some (.json, .ok ⟨"out/brand.json"⟩) := by
    decide +kernel
  obtain ⟨-, -, hiff⟩ :=
    read?_output_iff (Prod.eta _).symm hreport hthere (by decide +kernel) houtcome
  rw [hsource] at hiff
  exact hiff.mpr (by decide +kernel)

/-- The output of the first source is lost: its report lists the file, which holds the second. -/
theorem output_of_brands_lost :
    ((brands.convertAll brandBuild brandSources).2.map fun r => (r.source, r.written))
        = [(⟨"a/brand.yaml"⟩, [⟨"out/brand.json"⟩]), (⟨"b/brand.yaml"⟩, [⟨"out/brand.json"⟩]),
          (⟨"b/size.yaml"⟩, [⟨"out/size.json"⟩])]
    ∧ (brands.convertAll brandBuild brandSources).1.read? ⟨"out/brand.json"⟩
        ≠ some (brands.rendering brandBuild ⟨"a/brand.yaml"⟩ .json) := by
  decide +kernel

end FileSystem

end DesignTokens
