import DesignTokens.Proofs.FileSystem.Directories

/-!
# File systems that hold the same

Directories list their entries in the order in which they were made. File systems that differ in
that only hold the same: every location has the same face. Without links, two runs of writes leave
the same if they make the same directories and write the same, in whatever order, as long as no two
writes put different contents into one file.

* `Wrote.read?_of_mem`: such writes are all still there in the end;
* `same_of_wrote`: two runs compared.
-/

namespace DesignTokens

namespace FileSystem

variable {fs fs' fs'' : FileSystem} {p : Path} {content : ByteArray} {l : Location}
  {writes more : List (Path × ByteArray)}

/-- The same is at every location, in whatever order directories list their entries. -/
structure Same (fs fs' : FileSystem) : Prop where
  current : fs'.current = fs.current
  look : ∀ l, fs'.look l = fs.look l

/-- Without links, what is there and is no directory is a file. -/
theorem look_eq_map_content? (hlinks : fs.IsLinkFree) (h : fs.look l ≠ some .directory) :
    fs.look l = (fs.content? l).map Face.file := by
  unfold content?
  cases hface : fs.look l with
  | none => rfl
  | some face =>
    cases face with
    | file content => rfl
    | directory => exact absurd hface h
    | link target => exact absurd hface (hlinks l target)

/-- Where the directories are the same and a file has not changed, there is the same. -/
theorem look_eq_of_content? (hlinks : fs.IsLinkFree) (hlinks' : fs'.IsLinkFree)
    (hsame : SameDirectories fs fs') (h : fs'.content? l = fs.content? l) :
    fs'.look l = fs.look l := by
  by_cases hdirectory : fs.look l = some .directory
  · rw [hdirectory, (hsame.directory l).mpr hdirectory]
  · have hdirectory' : fs'.look l ≠ some .directory :=
      fun h => hdirectory ((hsame.directory l).mp h)
    rw [look_eq_map_content? hlinks hdirectory, look_eq_map_content? hlinks' hdirectory', h]

/-! ## Writes that do not contradict each other -/

/-- No two writes put different contents into one file. -/
def Consistent (fs : FileSystem) (writes : List (Path × ByteArray)) : Prop :=
  ∀ w ∈ writes, ∀ w' ∈ writes, ∀ l,
    fs.target? w.1 = some l → fs.target? w'.1 = some l → w.2 = w'.2

theorem mem_of_lastAt? {c : ByteArray} (h : fs.lastAt? writes l = some c) :
    ∃ p, (p, c) ∈ writes ∧ fs.target? p = some l := by
  obtain ⟨w, hw, rfl⟩ := Option.map_eq_some_iff.mp h
  have hmem := List.mem_reverse.mp (List.mem_of_find?_eq_some hw)
  exact ⟨w.1, hmem, by simpa using List.find?_some hw⟩

theorem lastAt?_eq_none_iff :
    fs.lastAt? writes l = none ↔ ∀ w ∈ writes, fs.target? w.1 ≠ some l := by
  unfold lastAt?
  rw [Option.map_eq_none_iff, List.find?_eq_none]
  simp

theorem Consistent.lastAt? (h : fs.Consistent writes) (hmem : (p, content) ∈ writes)
    (hp : fs.target? p = some l) : fs.lastAt? writes l = some content := by
  cases hlast : fs.lastAt? writes l with
  | none => exact absurd hp (lastAt?_eq_none_iff.mp hlast (p, content) hmem)
  | some c =>
    obtain ⟨p', hmem', hp'⟩ := mem_of_lastAt? hlast
    have hc : content = c := h (p, content) hmem (p', c) hmem' l hp hp'
    rw [hc]

/-- **Writes that do not contradict each other are all still there in the end.** -/
theorem Wrote.read?_of_mem (h : Wrote fs writes fs') (hconsistent : fs'.Consistent writes)
    (hmem : (p, content) ∈ writes) : fs'.read? p = some content := by
  obtain ⟨l, hl⟩ := Option.isSome_iff_exists.mp (h.leads (p, content) hmem)
  rw [read?_eq, hl, Option.bind_some, h.content?, hconsistent.lastAt? hmem hl, Option.some_or]

/-- What is changed is written. -/
theorem Wrote.exists_of_content?_ne (h : Wrote fs writes fs')
    (hne : fs'.content? l ≠ fs.content? l) : ∃ w ∈ writes, fs'.target? w.1 = some l := by
  rw [h.content?] at hne
  cases hlast : fs'.lastAt? writes l with
  | none =>
    rw [hlast] at hne
    exact absurd rfl hne
  | some c =>
    obtain ⟨p, hmem, hp⟩ := mem_of_lastAt? hlast
    exact ⟨(p, c), hmem, hp⟩

/-- **Two runs that write the same leave the same.** -/
theorem same_of_wrote (h : Wrote fs writes fs') (h' : Wrote fs more fs'')
    (hmem : ∀ w, w ∈ more ↔ w ∈ writes) (hconsistent : fs'.Consistent writes)
    (hlinks : fs'.IsLinkFree) (hlinks' : fs''.IsLinkFree) (hsame : SameDirectories fs' fs'') :
    Same fs' fs'' := by
  -- a file that is written is in the same place in both
  have htarget : ∀ w ∈ writes, fs''.target? w.1 = fs'.target? w.1 := by
    intro w hw
    obtain ⟨l, hl⟩ := Option.isSome_iff_exists.mp (h.leads w hw)
    obtain ⟨l'', hl''⟩ := Option.isSome_iff_exists.mp (h'.leads w ((hmem w).mpr hw))
    rw [hl, hl'', eq_site_of_target? hlinks hl, eq_site_of_target? hlinks' hl'', hsame.site]
  have hconsistent' : fs''.Consistent more := by
    intro w hw w' hw' l hl hl'
    rw [htarget w ((hmem w).mp hw)] at hl
    rw [htarget w' ((hmem w').mp hw')] at hl'
    exact hconsistent w ((hmem w).mp hw) w' ((hmem w').mp hw') l hl hl'
  refine ⟨hsame.current, fun l => look_eq_of_content? hlinks hlinks' hsame ?_⟩
  rw [h.content?, h'.content?]
  congr 1
  cases hlast : fs'.lastAt? writes l with
  | none =>
    rw [lastAt?_eq_none_iff] at hlast ⊢
    intro w hw
    rw [htarget w ((hmem w).mp hw)]
    exact hlast w ((hmem w).mp hw)
  | some c =>
    obtain ⟨p, hp, hl⟩ := mem_of_lastAt? hlast
    exact hconsistent'.lastAt? ((hmem (p, c)).mpr hp) ((htarget (p, c) hp).trans hl)

end FileSystem

end DesignTokens
