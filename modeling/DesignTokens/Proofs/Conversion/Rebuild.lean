import DesignTokens.Proofs.Conversion.Account

/-!
# Building again

A conversion leaves directories and files behind, and is run again over them. Unless it has written
over its own source it finds the same tokens, the directories are there or cannot be made as before,
and a file that it writes holds already what is written.

* `readSource_convert`: a source that was not written over is read as before;
* `convert_convert`: the second run.
-/

namespace DesignTokens

namespace FileSystem

variable {fs : FileSystem} {options : ConversionOptions} {source p : Path}

/-! ## What a conversion leaves alone -/

/-- A conversion of a source writes to the file that a path leads to. -/
def WritesTo (fs : FileSystem) (options : ConversionOptions) (source p : Path) : Prop :=
  ∃ path ∈ (fs.convert options source).2.written,
    (fs.convert options source).1.target? path = (fs.convert options source).1.target? p

instance (fs : FileSystem) (options : ConversionOptions) (source p : Path) :
    Decidable (fs.WritesTo options source p) :=
  inferInstanceAs (Decidable (∃ path ∈ (fs.convert options source).2.written,
    (fs.convert options source).1.target? path = (fs.convert options source).1.target? p))

theorem isSome_target?_of_mem_written {path : Path}
    (h : path ∈ (fs.convert options source).2.written) :
    ((fs.convert options source).1.target? path).isSome := by
  obtain ⟨-, -, hwrote⟩ := convert_spec fs options source
  rw [← Report.map_fst_writes _ options.space] at h
  obtain ⟨w, hw, rfl⟩ := List.mem_map.mp h
  exact hwrote.leads w hw

/-- What is not written to is read as before. -/
theorem read?_convert_of_not_writesTo (h : ¬fs.WritesTo options source p)
    (hp : fs.contains p = true) : (fs.convert options source).1.read? p = fs.read? p := by
  obtain ⟨-, -, hwrote⟩ := convert_spec fs options source
  refine hwrote.read?_of_same (contains_iff.mp hp) fun content hlast => ?_
  obtain ⟨l, hl, hlast⟩ := Option.bind_eq_some_iff.mp hlast
  obtain ⟨path, hpath, htarget⟩ := mem_of_lastAt? hlast
  exact absurd ⟨path, Report.mem_written hpath, htarget.trans hl.symm⟩ h

/-- A source that was there and is not written to is read as before. -/
theorem readSource_convert (h : ¬fs.WritesTo options source p) (hp : fs.contains p = true) :
    (fs.convert options source).1.readSource p = fs.readSource p := by
  obtain ⟨-, -, hwrote⟩ := convert_spec fs options source
  exact readSource_of_grows hwrote.grows hp (read?_convert_of_not_writesTo h hp)

/-! ## The second run -/

/-- Writing a format again changes nothing if its file holds the format already. -/
theorem writeFormat_of_read? {base : String} {tree : Tree} {format : OutputFormat} {made : Bool}
    (hmake : fs.makeDirectories options.outputDirectory = (fs, made))
    (hread : ∀ path, (fs.writeFormat options base tree format).2 = .ok path →
      fs.read? path = some (format.render tree options.space base).toUTF8) :
    (fs.writeFormat options base tree format).1 = fs := by
  cases made with
  | false => rw [writeFormat_of_not_made hmake]
  | true =>
    rw [writeFormat_of_made hmake] at hread ⊢
    split
    · rename_i fs' hwrite
      rw [hwrite] at hread
      rw [write?_of_read? (hread _ rfl)] at hwrite
      exact (Option.some.inj hwrite).symm
    · rfl

theorem writeFormats_of_fixed {base : String} {tree : Tree} {formats : List OutputFormat}
    (h : ∀ format ∈ formats, (fs.writeFormat options base tree format).1 = fs) :
    (fs.writeFormats options base tree formats).1 = fs := by
  induction formats with
  | nil => rfl
  | cons format formats ih =>
    rw [writeFormats_cons, h format List.mem_cons_self]
    exact ih fun f hf => h f (List.mem_cons_of_mem _ hf)

/--
**Building again gives the same report and changes nothing.**

The source must not be one of the files that are written for it. It need not be a text that can be
loaded, and the outputs need not all be writable.
-/
theorem convert_convert (hlinks : fs.IsLinkFree) (options : ConversionOptions) (source : Path)
    (hsource : ¬fs.WritesTo options source source) :
    (fs.convert options source).1.convert options source = fs.convert options source := by
  cases hthere : fs.contains source with
  | false => rw [convert_of_missing hthere, convert_of_missing hthere]
  | true =>
    obtain ⟨reading, hread⟩ := Option.isSome_iff_exists.mp (readSource_isSome.trans hthere)
    have hagain := (readSource_convert hsource hthere).trans hread
    have htokens : ((fs.readSource source).map Reading.tree).getD .empty = reading.tree := by
      rw [hread]
      rfl
    rw [convert_of_reading hread] at hagain
    rw [convert_of_reading hread, convert_of_reading hagain]
    have hbase := source.slash_notMem_baseName
    refine Prod.ext (writeFormats_of_fixed fun format hformat => ?_) ?_
    · -- a format that comes out finds its file with the same text in it
      have hne : options.formats ≠ [] := List.ne_nil_of_mem hformat
      refine writeFormat_of_read? (writeFormats_steps hlinks hne).2 fun path hpath => ?_
      rw [outcome_writeFormats hlinks hbase, ← htokens] at hpath
      have hfile := (read?_convert hlinks options hthere hformat hpath).2
      rw [convert_of_reading hread, rendering, Reading.rendering, htokens] at hfile
      exact hfile
    · dsimp only
      rw [writeFormats_outcomes (isLinkFree_writeFormats hlinks) hbase,
        writeFormats_outcomes hlinks hbase]
      simp only [outcome_writeFormats hlinks hbase]

theorem convert_convert_blockedStylesheet :
    ¬blockedStylesheet.WritesTo detourBuild ⟨"brand.yaml"⟩ ⟨"brand.yaml"⟩
    ∧ (blockedStylesheet.convert detourBuild ⟨"brand.yaml"⟩).1.convert detourBuild ⟨"brand.yaml"⟩
        = blockedStylesheet.convert detourBuild ⟨"brand.yaml"⟩ := by
  have hlinks : blockedStylesheet.IsLinkFree := isLinkFree_of_root (by decide)
  have hsource : ¬blockedStylesheet.WritesTo detourBuild ⟨"brand.yaml"⟩ ⟨"brand.yaml"⟩ := by
    decide +kernel
  exact ⟨hsource, convert_convert hlinks detourBuild ⟨"brand.yaml"⟩ hsource⟩

end FileSystem

end DesignTokens
