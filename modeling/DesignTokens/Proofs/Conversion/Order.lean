import DesignTokens.Proofs.Conversion.Rebuild
import Mathlib.Data.Fin.VecNotation
import Mathlib.Data.List.FinRange

/-!
# The order of sources

The sources of a build are converted one after the other, each with the files that those before it
left. If the output directory is there, the sources have different names and none is written to for
another, then each conversion goes as it would go by itself, and their order does not matter.

* `readSource_after`, `report_after`: one conversion after another one;
* `convertAll_reports`: all conversions, each as if it were the only one;
* `sources_permuted`: two orders compared.
-/

namespace DesignTokens

namespace FileSystem

variable {fs fs' : FileSystem} {options : ConversionOptions} {source other : Path}
  {sources : List Path}

/-! ## One conversion after another -/

/-- Where the output directory is there, a conversion at most changes files. -/
theorem sameDirectories_convert_of_isDirectory (hlinks : fs.IsLinkFree)
    (hdirectory : fs.isDirectory options.outputDirectory = true) (source : Path) :
    SameDirectories fs (fs.convert options source).1 := by
  cases hthere : fs.contains source with
  | false =>
    rw [convert_of_missing hthere]
    exact SameDirectories.refl fs
  | true =>
    by_cases hne : options.formats = []
    · obtain ⟨reading, hread⟩ := Option.isSome_iff_exists.mp (readSource_isSome.trans hthere)
      rw [convert_of_reading hread, hne]
      exact SameDirectories.refl fs
    · have hsame := sameDirectories_convert hlinks options hthere hne
      rwa [makeDirectories_of_isDirectory hlinks hdirectory] at hsame

/-- A conversion leaves the outcomes of every other one as they were. -/
theorem outcome_convert (hlinks : fs.IsLinkFree) {base : String} (hbase : '/' ∉ base.toList)
    (tree : Tree) (format : OutputFormat) :
    ((fs.convert options source).1.writeFormat options base tree format).2
      = (fs.writeFormat options base tree format).2 := by
  cases hread : fs.readSource source with
  | none => rw [convert_of_missing (readSource_eq_none_iff.mp hread)]
  | some reading =>
    rw [convert_of_reading hread]
    exact outcome_writeFormats hlinks hbase

section After

variable (hlinks : fs.IsLinkFree) (hdirectory : fs.isDirectory options.outputDirectory = true)
  (hapart : ¬fs.WritesTo options other source)

include hlinks hdirectory hapart

/-- A source that is not written to is read as before, or is missing as before. -/
theorem readSource_after :
    (fs.convert options other).1.readSource source = fs.readSource source := by
  cases hthere : fs.contains source with
  | true => exact readSource_convert hapart hthere
  | false =>
    rw [readSource_eq_none_iff.mpr hthere, readSource_eq_none_iff]
    by_contra hcontains
    rw [Bool.not_eq_false, contains_iff] at hcontains
    obtain ⟨l, hl⟩ := Option.isSome_iff_exists.mp hcontains
    have hlinks₁ := isLinkFree_convert hlinks options other
    have hsame := sameDirectories_convert_of_isDirectory hlinks hdirectory other
    obtain ⟨-, -, hwrote⟩ := convert_spec fs options other
    by_cases hchanged : (fs.convert options other).1.content? l = fs.content? l
    · -- then the source would have been there before
      have hlook := isSome_look_of_target? hl
      rw [look_eq_of_content? hlinks hlinks₁ hsame hchanged] at hlook
      have hbefore := target?_of_sameDirectories hlinks₁ hlinks hsame.symm hl hlook
      have hcontains := contains_iff.mpr (Option.isSome_of_eq_some hbefore)
      rw [hthere] at hcontains
      exact absurd hcontains (by simp)
    · obtain ⟨w, hw, htarget⟩ := hwrote.exists_of_content?_ne hchanged
      exact hapart ⟨w.1, Report.mem_written hw, htarget.trans hl.symm⟩

theorem report_after :
    ((fs.convert options other).1.convert options source).2 = (fs.convert options source).2 := by
  have hlinks₁ := isLinkFree_convert hlinks options other
  have hread := readSource_after hlinks hdirectory hapart
  cases hthere : fs.readSource source with
  | none =>
    rw [hthere] at hread
    rw [convert_of_missing (readSource_eq_none_iff.mp hread),
      convert_of_missing (readSource_eq_none_iff.mp hthere)]
  | some reading =>
    have hbase := source.slash_notMem_baseName
    rw [hthere] at hread
    rw [convert_of_reading hread, convert_of_reading hthere]
    dsimp only
    rw [writeFormats_outcomes hlinks₁ hbase, writeFormats_outcomes hlinks hbase]
    simp only [outcome_convert hlinks hbase]

/-- What is not written to by a conversion is not written to by it after another one. -/
theorem not_writesTo_after {p : Path} (h : ¬fs.WritesTo options source p) :
    ¬(fs.convert options other).1.WritesTo options source p := by
  rintro ⟨path, hpath, htarget⟩
  have hlinks₁ := isLinkFree_convert hlinks options other
  have hsame₁ := sameDirectories_convert_of_isDirectory hlinks hdirectory other
  have hdirectory₁ : (fs.convert options other).1.isDirectory options.outputDirectory = true :=
    (hsame₁.isDirectory hlinks hlinks₁ _).trans hdirectory
  have hlinksA := isLinkFree_convert hlinks₁ options source
  have hlinksB := isLinkFree_convert hlinks options source
  have hsameA := hsame₁.trans (sameDirectories_convert_of_isDirectory hlinks₁ hdirectory₁ source)
  have hsameB := sameDirectories_convert_of_isDirectory hlinks hdirectory source
  have hsame := hsameA.symm.trans hsameB
  -- the file that is written is in the same place, so the path leads there without the other one
  obtain ⟨l, hl⟩ := Option.isSome_iff_exists.mp (isSome_target?_of_mem_written hpath)
  rw [report_after hlinks hdirectory hapart] at hpath
  obtain ⟨l', hl'⟩ := Option.isSome_iff_exists.mp (isSome_target?_of_mem_written hpath)
  obtain rfl : l = l' := by
    rw [eq_site_of_target? hlinksA hl, eq_site_of_target? hlinksB hl', hsame.site]
  refine h ⟨path, hpath, ?_⟩
  rw [hl', target?_of_sameDirectories hlinksA hlinksB hsame (htarget.symm.trans hl)
    (isSome_look_of_target? hl')]

end After

/-! ## All sources -/

theorem convertAll_steps (hlinks : fs.IsLinkFree)
    (hdirectory : fs.isDirectory options.outputDirectory = true) (sources : List Path) :
    (fs.convertAll options sources).1.IsLinkFree
    ∧ SameDirectories fs (fs.convertAll options sources).1 := by
  induction sources generalizing fs with
  | nil => exact ⟨hlinks, SameDirectories.refl fs⟩
  | cons source rest ih =>
    have hlinks₁ := isLinkFree_convert hlinks options source
    have hsame₁ := sameDirectories_convert_of_isDirectory hlinks hdirectory source
    obtain ⟨hlinks', hsame'⟩ := ih hlinks₁ ((hsame₁.isDirectory hlinks hlinks₁ _).trans hdirectory)
    exact ⟨hlinks', hsame₁.trans hsame'⟩

/-- **Each source of a build is converted as if it were the only one**, if none is written to for
one before it. -/
theorem convertAll_reports (hlinks : fs.IsLinkFree)
    (hdirectory : fs.isDirectory options.outputDirectory = true)
    (hapart : sources.Pairwise fun earlier later => ¬fs.WritesTo options earlier later) :
    (fs.convertAll options sources).2 = sources.map fun source => (fs.convert options source).2 := by
  induction sources generalizing fs with
  | nil => rfl
  | cons source rest ih =>
    obtain ⟨hfirst, hrest⟩ := List.pairwise_cons.mp hapart
    -- all that is assumed holds again of what the first conversion leaves
    have hlinks₁ := isLinkFree_convert hlinks options source
    have hsame₁ := sameDirectories_convert_of_isDirectory hlinks hdirectory source
    have hdirectory₁ := (hsame₁.isDirectory hlinks hlinks₁ _).trans hdirectory
    have hapart₁ : rest.Pairwise fun earlier later =>
        ¬(fs.convert options source).1.WritesTo options earlier later :=
      hrest.imp_of_mem fun hearlier _ h =>
        not_writesTo_after hlinks hdirectory (hfirst _ hearlier) h
    rw [convertAll_cons, List.map_cons, ih hlinks₁ hdirectory₁ hapart₁]
    exact congrArg (List.cons _) (List.map_congr_left fun later hlater =>
      report_after hlinks hdirectory (hfirst later hlater))

/-! ## Another order -/

section Permuted

variable {n : Nat} {source : Fin n → Path} (hlinks : fs.IsLinkFree)
  (hdirectory : fs.isDirectory options.outputDirectory = true)
  (hnames : Function.Injective fun i => (source i).baseName)
  (hapart : ∀ i j, i ≠ j → ¬fs.WritesTo options (source i) (source j))

include hlinks hdirectory hapart

theorem convertAll_ofFn :
    (fs.convertAll options (List.ofFn source)).2
      = List.ofFn fun i => (fs.convert options (source i)).2 := by
  rw [convertAll_reports hlinks hdirectory, List.map_ofFn]
  · rfl
  · exact List.pairwise_ofFn.mpr fun i j hij => hapart i j (Fin.ne_of_lt hij)

theorem mem_writes_convertAll {w : Path × ByteArray} :
    (w ∈ (fs.convertAll options (List.ofFn source)).2.flatMap fun r => r.writes options.space)
      ↔ ∃ i, w ∈ (fs.convert options (source i)).2.writes options.space := by
  rw [convertAll_ofFn hlinks hdirectory hapart, List.mem_flatMap]
  simp

include hnames

/-- Sources with different names write to different files. -/
theorem consistent_convertAll (hlinks' : fs'.IsLinkFree) :
    fs'.Consistent
      ((fs.convertAll options (List.ofFn source)).2.flatMap fun r => r.writes options.space) := by
  intro w hw w' hw' l hl hl'
  obtain ⟨i, hi⟩ := (mem_writes_convertAll hlinks hdirectory hapart).mp hw
  obtain ⟨j, hj⟩ := (mem_writes_convertAll hlinks hdirectory hapart).mp hw'
  obtain ⟨-, format, -, -, rfl⟩ := (mem_writes_convert hlinks options _).mp hi
  obtain ⟨-, format', -, -, rfl⟩ := (mem_writes_convert hlinks options _).mp hj
  obtain ⟨hbase, rfl⟩ := outputPath_inj hlinks' (source i).slash_notMem_baseName
    (source j).slash_notMem_baseName hl hl'
  obtain rfl : i = j := hnames hbase
  rfl

end Permuted

/--
**The order of sources does not matter.**

The output directory must be there, the sources must have different names, and no source may be a
file that the conversion of another one writes. Each source then has the same report wherever it
stands, be it missing, malformed or without a place for its outputs, and the same files are left.
-/
theorem sources_permuted {n : Nat} (source : Fin n → Path) (σ : Equiv.Perm (Fin n))
    (hlinks : fs.IsLinkFree) (hdirectory : fs.isDirectory options.outputDirectory = true)
    (hnames : Function.Injective fun i => (source i).baseName)
    (hapart : ∀ i j, i ≠ j → ¬fs.WritesTo options (source i) (source j)) :
    (∃ report : Fin n → Report,
      (fs.convertAll options (List.ofFn source)).2 = List.ofFn report
      ∧ (fs.convertAll options (List.ofFn (source ∘ σ))).2 = List.ofFn (report ∘ σ))
    ∧ Same (fs.convertAll options (List.ofFn source)).1
        (fs.convertAll options (List.ofFn (source ∘ σ))).1 := by
  have hapart' : ∀ i j, i ≠ j → ¬fs.WritesTo options ((source ∘ σ) i) ((source ∘ σ) j) :=
    fun i j hij => hapart (σ i) (σ j) (σ.injective.ne hij)
  obtain ⟨hlinks₁, hsame₁⟩ := convertAll_steps hlinks hdirectory (List.ofFn source)
  obtain ⟨hlinks₂, hsame₂⟩ := convertAll_steps hlinks hdirectory (List.ofFn (source ∘ σ))
  refine ⟨⟨fun i => (fs.convert options (source i)).2, convertAll_ofFn hlinks hdirectory hapart,
    convertAll_ofFn hlinks hdirectory hapart'⟩, ?_⟩
  -- both orders write the same files, and no two sources write to one
  refine same_of_wrote (convertAll_spec fs options _) (convertAll_spec fs options _) (fun w => ?_)
    (consistent_convertAll hlinks hdirectory hnames hapart hlinks₁) hlinks₁ hlinks₂
    (hsame₁.symm.trans hsame₂)
  rw [mem_writes_convertAll hlinks hdirectory hapart, mem_writes_convertAll hlinks hdirectory hapart']
  exact (σ.surjective.exists
    (p := fun i => w ∈ (fs.convert options (source i)).2.writes options.space)).symm

/-- The formats of `detourBuild`, into a directory that is there. -/
def directBuild : ConversionOptions :=
  { detourBuild with outputDirectory := ⟨"out"⟩ }

/-- A source with an output that cannot be written, one that is missing, and a directory. -/
def mixedSources : Fin 3 → Path :=
  ![⟨"brand.yaml"⟩, ⟨"nope.yaml"⟩, ⟨"out"⟩]

theorem sources_permuted_mixedSources :
    (∃ report : Fin 3 → Report,
      (blockedStylesheet.convertAll directBuild (List.ofFn mixedSources)).2 = List.ofFn report
      ∧ (blockedStylesheet.convertAll directBuild [⟨"out"⟩, ⟨"nope.yaml"⟩, ⟨"brand.yaml"⟩]).2
          = [report 2, report 1, report 0])
    ∧ Same (blockedStylesheet.convertAll directBuild (List.ofFn mixedSources)).1
        (blockedStylesheet.convertAll directBuild [⟨"out"⟩, ⟨"nope.yaml"⟩, ⟨"brand.yaml"⟩]).1 := by
  have hlinks : blockedStylesheet.IsLinkFree := isLinkFree_of_root (by decide)
  have hnames : ∀ i j, (mixedSources i).baseName = (mixedSources j).baseName → i = j := by
    decide +kernel
  exact sources_permuted mixedSources Fin.revPerm hlinks (by decide +kernel) hnames
    (by decide +kernel)

end FileSystem

end DesignTokens
