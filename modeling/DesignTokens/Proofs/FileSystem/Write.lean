import DesignTokens.Proofs.FileSystem.Walk
import Mathlib.Data.List.Find

/-!
# What writing changes

Writing a file and making a directory put a leaf at one location and leave all others as they are,
so the file system grows. A run of writes is seen in the file system it leaves: every path that was
written leads to a file there, and a file holds what the last path that leads to it wrote.

* `write?_spec`, `makeDirectories_spec`: one operation;
* `Wrote`, `Wrote.trans`: a run of writes.
-/

namespace DesignTokens.FileSystem

variable {fs fs' fs'' : FileSystem} {location : Location}

/-! ## Putting one leaf -/

/-- The face of one location has changed, and nothing else. -/
structure Puts (fs : FileSystem) (location : Location) (face : Face) (fs' : FileSystem) : Prop where
  current : fs'.current = fs.current
  look : ∀ l, fs'.look l = if l = location then some face else fs.look l

theorem puts_set {new : Node} (hplace : fs.root.HasPlace location)
    (hold : fs.look location ≠ some .directory)
    (hnew : ∀ name rest, new.look (name :: rest) = none) :
    Puts fs location new.face { fs with root := fs.root.set location new } where
  current := rfl
  look := Node.look_set hplace hnew (Node.look_append_eq_none hold)

theorem Puts.look_self {face : Face} (h : Puts fs location face fs') :
    fs'.look location = some face := by
  rw [h.look, if_pos rfl]

theorem Puts.grows_of_none {face : Face} (h : Puts fs location face fs')
    (hfree : fs.look location = none) : Grows fs fs' := by
  have hkeep : ∀ {l f}, fs.look l = some f → fs'.look l = some f := by
    intro l f hl
    have hne : l ≠ location := by
      rintro rfl
      rw [hfree] at hl
      exact absurd hl (by simp)
    rw [h.look, if_neg hne, hl]
  exact ⟨h.current, hkeep, hkeep, fun hl => ⟨_, hkeep hl⟩⟩

theorem Puts.grows_of_file {old new : ByteArray} (h : Puts fs location (.file new) fs')
    (hfile : fs.look location = some (.file old)) : Grows fs fs' := by
  have hkeep : ∀ {l f}, f ≠ .file old → fs.look l = some f → fs'.look l = some f := by
    intro l f hf hl
    have hne : l ≠ location := by
      rintro rfl
      exact hf (Option.some.inj (hl.symm.trans hfile))
    rw [h.look, if_neg hne, hl]
  refine ⟨h.current, hkeep (by simp), hkeep (by simp), fun {l content} hl => ?_⟩
  by_cases hloc : l = location
  · exact ⟨new, by rw [h.look, if_pos hloc]⟩
  · exact ⟨content, by rw [h.look, if_neg hloc, hl]⟩

theorem Puts.content? {content : ByteArray} (h : Puts fs location (.file content) fs')
    (l : Location) : fs'.content? l = if l = location then some content else fs.content? l := by
  unfold FileSystem.content?
  rw [h.look]
  by_cases hl : l = location
  · rw [if_pos hl, if_pos hl]
  · rw [if_neg hl, if_neg hl]

/-! ## The operations -/

/-- **A file that is written is where its path leads.** -/
theorem write?_spec {p : Path} {content : ByteArray} (h : fs.write? p content = some fs') :
    ∃ l, Puts fs l (.file content) fs' ∧ Grows fs fs' ∧ fs'.target? p = some l := by
  have hleaf : ∀ name rest, (Node.file content).look (name :: rest) = none :=
    fun name rest => Node.look_eq_none_iff.mpr (Node.get?_cons_eq_none (by simp [Node.face]) name rest)
  unfold write? at h
  split at h
  · rename_i directory name hlocate
    obtain rfl := Option.some.inj h
    obtain ⟨hdirectory, hfree⟩ := locate_vacant hlocate
    have hputs := puts_set (Node.hasPlace_append hdirectory name)
      (by rw [hfree]; simp) hleaf
    have hgrows := hputs.grows_of_none hfree
    refine ⟨_, hputs, hgrows, target?_of_end? hgrows (fun _ => ⟨content, hputs.look_self⟩) ?_⟩
    rw [hlocate]
    rfl
  · rename_i l old hlocate
    obtain rfl := Option.some.inj h
    have hfile : fs.look l = some (.file old) :=
      Node.look_eq_file_iff.mpr (locate_occupied hlocate)
    have hplace : fs.root.HasPlace l := Node.hasPlace_of_isSome (by
      rw [show fs.root.look l = some (.file old) from hfile]
      rfl)
    have hputs := puts_set hplace (by rw [hfile]; simp) hleaf
    have hgrows := hputs.grows_of_file hfile
    exact ⟨l, hputs, hgrows, target?_of_grows hgrows (target?_eq_some_iff.mpr ⟨_, hlocate⟩)⟩
  · exact absurd h (by simp)

/-- Writing to a file what it holds changes nothing. -/
theorem write?_of_read? {content : ByteArray} (h : fs.read? p = some content) :
    fs.write? p content = some fs := by
  rw [read?_eq] at h
  obtain ⟨l, htarget, hcontent⟩ := Option.bind_eq_some_iff.mp h
  obtain ⟨node, hlocate⟩ := target?_eq_some_iff.mp htarget
  have hnode := locate_occupied hlocate
  have hfile : fs.look l = some (.file content) := by
    unfold content? at hcontent
    split at hcontent
    · rename_i hlook
      rw [hlook, Option.some.inj hcontent]
    · exact absurd hcontent (by simp)
  rw [look, Node.look_eq_file_iff, hnode] at hfile
  obtain rfl := Option.some.inj hfile
  unfold write?
  rw [hlocate]
  dsimp only
  rw [Node.set_of_get? hnode]

/-- No file has changed. -/
structure KeepsFiles (fs fs' : FileSystem) : Prop where
  grows : Grows fs fs'
  content? : ∀ l, fs'.content? l = fs.content? l

theorem KeepsFiles.refl (fs : FileSystem) : KeepsFiles fs fs :=
  ⟨Grows.refl fs, fun _ => rfl⟩

theorem KeepsFiles.trans (h : KeepsFiles fs fs') (h' : KeepsFiles fs' fs'') : KeepsFiles fs fs'' :=
  ⟨h.grows.trans h'.grows, fun l => (h'.content? l).trans (h.content? l)⟩

/-- A directory is made at a free name. -/
theorem makeDirectory_ok {p : Path} (h : fs.makeDirectory p = .ok fs') :
    isFollowable p = true ∧ ∃ directory name,
      fs.locate p.withoutSlashes false = .vacant directory name
        ∧ Puts fs (directory ++ [name]) .directory fs' := by
  have hleaf : ∀ name rest, (Node.directory []).look (name :: rest) = none := by
    intro name rest
    rw [Node.look_cons]
    rfl
  unfold makeDirectory at h
  split at h
  · exact absurd h (by simp)
  · rename_i hfollow
    split at h
    · rename_i directory name hlocate
      obtain rfl := Except.ok.inj h
      obtain ⟨hdirectory, hfree⟩ := locate_vacant hlocate
      exact ⟨by simpa using hfollow, directory, name, hlocate,
        puts_set (Node.hasPlace_append hdirectory name) (by rw [hfree]; simp) hleaf⟩
    · exact absurd h (by simp)
    · exact absurd h (by simp)

theorem makeDirectory_spec {p : Path} (h : fs.makeDirectory p = .ok fs') : KeepsFiles fs fs' := by
  obtain ⟨-, directory, name, hlocate, hputs⟩ := makeDirectory_ok h
  obtain ⟨-, hfree⟩ := locate_vacant hlocate
  refine ⟨hputs.grows_of_none hfree, fun l => ?_⟩
  unfold FileSystem.content?
  rw [hputs.look]
  by_cases hl : l = directory ++ [name]
  · rw [if_pos hl, hl, hfree]
  · rw [if_neg hl]

/-- The ways in which making a directory, with the directories above it, comes out. -/
inductive Making (fs : FileSystem) : Nat → Path → FileSystem → Bool → Prop
  | asked {p : Path} {answer : Bool} (hanswer : fs.isDirectory p = answer) :
      Making fs 0 p fs answer
  | empty {fuel : Nat} {p : Path} (hempty : p.text = "") : Making fs (fuel + 1) p fs true
  | made {fuel : Nat} {p : Path} {fs' : FileSystem} (hne : p.text ≠ "")
      (hmake : fs.makeDirectory p = .ok fs') : Making fs (fuel + 1) p fs' true
  | there {fuel : Nat} {p : Path} {answer : Bool} (hne : p.text ≠ "")
      (hmake : fs.makeDirectory p = .error .other) (hanswer : fs.isDirectory p = answer) :
      Making fs (fuel + 1) p fs answer
  | top {fuel : Nat} {p : Path} (hne : p.text ≠ "")
      (hmake : fs.makeDirectory p = .error .noParent) (hparent : p.parent? = none) :
      Making fs (fuel + 1) p fs false
  | stuck {fuel : Nat} {p parent : Path} {fs₁ : FileSystem} (hne : p.text ≠ "")
      (hmake : fs.makeDirectory p = .error .noParent) (hparent : p.parent? = some parent)
      (habove : Making fs fuel parent fs₁ false) : Making fs (fuel + 1) p fs₁ false
  | within {fuel : Nat} {p parent : Path} {fs₁ fs₂ : FileSystem} (hne : p.text ≠ "")
      (hmake : fs.makeDirectory p = .error .noParent) (hparent : p.parent? = some parent)
      (habove : Making fs fuel parent fs₁ true) (hmake' : fs₁.makeDirectory p = .ok fs₂) :
      Making fs (fuel + 1) p fs₂ true
  | refused {fuel : Nat} {p parent : Path} {fs₁ : FileSystem} {e : MakeError} {answer : Bool}
      (hne : p.text ≠ "") (hmake : fs.makeDirectory p = .error .noParent)
      (hparent : p.parent? = some parent) (habove : Making fs fuel parent fs₁ true)
      (hmake' : fs₁.makeDirectory p = .error e) (hanswer : fs₁.isDirectory p = answer) :
      Making fs (fuel + 1) p fs₁ answer

namespace Making

variable {fuel : Nat} {p : Path} {answer : Bool}

theorem ofRun (fs : FileSystem) (fuel : Nat) (p : Path) :
    Making fs fuel p (fs.makeDirectoriesFrom fuel p).1 (fs.makeDirectoriesFrom fuel p).2 := by
  induction fuel generalizing p with
  | zero => exact .asked rfl
  | succ fuel ih =>
    unfold makeDirectoriesFrom
    split
    · rename_i hempty
      exact .empty (String.isEmpty_iff.mp hempty)
    · rename_i hempty
      have hne : p.text ≠ "" := fun h => hempty (String.isEmpty_iff.mpr h)
      split
      · rename_i hmake
        exact .made hne hmake
      · rename_i hmake
        exact .there hne hmake rfl
      · rename_i hmake
        split
        · rename_i hparent
          exact .top hne hmake hparent
        · rename_i parent hparent
          have habove := ih parent
          generalize fs.makeDirectoriesFrom fuel parent = result at habove ⊢
          obtain ⟨fs₁, made⟩ := result
          cases made with
          | false => exact .stuck hne hmake hparent habove
          | true =>
            dsimp only
            rw [if_neg (by simp)]
            split
            · rename_i hmake'
              exact .within hne hmake hparent habove hmake'
            · rename_i hmake'
              exact .refused hne hmake hparent habove hmake' rfl

theorem run_eq (h : Making fs fuel p fs' answer) :
    fs.makeDirectoriesFrom fuel p = (fs', answer) := by
  induction h with
  | asked hanswer => rw [makeDirectoriesFrom, hanswer]
  | empty hempty => rw [makeDirectoriesFrom, if_pos (String.isEmpty_iff.mpr hempty)]
  | made hne hmake => simp [makeDirectoriesFrom, hne, hmake]
  | there hne hmake hanswer => simp [makeDirectoriesFrom, hne, hmake, hanswer]
  | top hne hmake hparent => simp [makeDirectoriesFrom, hne, hmake, hparent]
  | stuck hne hmake hparent _ ih => simp [makeDirectoriesFrom, hne, hmake, hparent, ih]
  | within hne hmake hparent _ hmake' ih =>
    simp [makeDirectoriesFrom, hne, hmake, hparent, ih, hmake']
  | refused hne hmake hparent _ hmake' hanswer ih =>
    simp [makeDirectoriesFrom, hne, hmake, hparent, ih, hmake', hanswer]

/-- There is one way only. -/
theorem unique {more : Bool} (h : Making fs fuel p fs' answer) (h' : Making fs fuel p fs'' more) :
    fs' = fs'' ∧ answer = more :=
  Prod.mk.inj (h.run_eq.symm.trans h'.run_eq)

/-- What making one directory keeps, making several keeps. -/
theorem keeps {motive : FileSystem → Prop}
    (step : ∀ {fs fs' p}, motive fs → fs.makeDirectory p = .ok fs' → motive fs')
    (h : Making fs fuel p fs' answer) (hfs : motive fs) : motive fs' := by
  induction h with
  | asked _ => exact hfs
  | empty _ => exact hfs
  | made _ hmake => exact step hfs hmake
  | there _ _ _ => exact hfs
  | top _ _ _ => exact hfs
  | stuck _ _ _ _ ih => exact ih
  | within _ _ _ _ hmake' ih => exact step ih hmake'
  | refused _ _ _ _ _ _ ih => exact ih

end Making

theorem makeDirectories_spec (fs : FileSystem) (p : Path) :
    KeepsFiles fs (fs.makeDirectories p).1 :=
  (Making.ofRun fs _ p).keeps (motive := KeepsFiles fs)
    (fun hkeeps hmake => hkeeps.trans (makeDirectory_spec hmake)) (KeepsFiles.refl fs)

/-! ## Runs of writes -/

/-- What the last write to the file at a location wrote. -/
def lastAt? (fs : FileSystem) (writes : List (Path × ByteArray)) (l : Location) :
    Option ByteArray :=
  (writes.reverse.find? fun w => fs.target? w.1 = some l).map Prod.snd

theorem lastAt?_append (fs : FileSystem) (writes more : List (Path × ByteArray)) (l : Location) :
    fs.lastAt? (writes ++ more) l = (fs.lastAt? more l).or (fs.lastAt? writes l) := by
  unfold lastAt?
  rw [List.reverse_append, List.find?_append, Option.map_or]

theorem lastAt?_singleton (fs : FileSystem) (p : Path) (content : ByteArray) (l : Location) :
    fs.lastAt? [(p, content)] l = if fs.target? p = some l then some content else none := by
  unfold lastAt?
  by_cases h : fs.target? p = some l
  · simp [h]
  · simp [h]

/-- Which write was the last does not change when a file system grows. -/
theorem lastAt?_of_grows (hgrows : Grows fs fs') {writes : List (Path × ByteArray)}
    (hleads : ∀ w ∈ writes, (fs.target? w.1).isSome) (l : Location) :
    fs'.lastAt? writes l = fs.lastAt? writes l := by
  have hsame : ∀ w ∈ writes, fs'.target? w.1 = fs.target? w.1 := by
    intro w hw
    obtain ⟨l', hl'⟩ := Option.isSome_iff_exists.mp (hleads w hw)
    rw [hl', target?_of_grows hgrows hl']
  unfold lastAt?
  refine congrArg _ (List.find?_congr fun w hw => ?_)
  rw [hsame w (List.mem_reverse.mp hw)]

/-- A file system as a run of writes leaves it. -/
structure Wrote (fs : FileSystem) (writes : List (Path × ByteArray)) (fs' : FileSystem) : Prop where
  grows : Grows fs fs'
  leads : ∀ w ∈ writes, (fs'.target? w.1).isSome
  content? : ∀ l, fs'.content? l = (fs'.lastAt? writes l).or (fs.content? l)

theorem KeepsFiles.wrote (h : KeepsFiles fs fs') : Wrote fs [] fs' :=
  ⟨h.grows, fun _ hw => absurd hw List.not_mem_nil, h.content?⟩

theorem wrote_of_write? {p : Path} {content : ByteArray} (h : fs.write? p content = some fs') :
    Wrote fs [(p, content)] fs' := by
  obtain ⟨l, hputs, hgrows, htarget⟩ := write?_spec h
  refine ⟨hgrows, fun w hw => ?_, fun l' => ?_⟩
  · rw [List.mem_singleton.mp hw, htarget]
    rfl
  · rw [hputs.content?, lastAt?_singleton, htarget]
    by_cases hl : l' = l
    · rw [if_pos hl, if_pos (by rw [hl])]
      rfl
    · rw [if_neg hl, if_neg fun heq => hl (Option.some.inj heq).symm]
      rfl

/-- **Two runs of writes are one.** -/
theorem Wrote.trans {writes more : List (Path × ByteArray)} (h : Wrote fs writes fs')
    (h' : Wrote fs' more fs'') : Wrote fs (writes ++ more) fs'' := by
  refine ⟨h.grows.trans h'.grows, fun w hw => ?_, fun l => ?_⟩
  · rcases List.mem_append.mp hw with hw | hw
    · obtain ⟨l, hl⟩ := Option.isSome_iff_exists.mp (h.leads w hw)
      rw [target?_of_grows h'.grows hl]
      rfl
    · exact h'.leads w hw
  · rw [h'.content?, h.content?, lastAt?_append, lastAt?_of_grows h'.grows h.leads, Option.or_assoc]

/-- What the last write wrote that leads to the same file as a path. -/
def lastWrite? (fs : FileSystem) (writes : List (Path × ByteArray)) (p : Path) :
    Option ByteArray :=
  (fs.target? p).bind (fs.lastAt? writes)

theorem lastWrite?_eq {p : Path} {l : Location} (h : fs.target? p = some l)
    (writes : List (Path × ByteArray)) : fs.lastWrite? writes p = fs.lastAt? writes l := by
  unfold lastWrite?
  rw [h]
  rfl

/-- **A file holds what was written last**: a write is still there in the end exactly if the last
later write to the same file, if there is one, has written the same. -/
theorem Wrote.read?_eq_some_iff {before later : List (Path × ByteArray)} {p : Path}
    {content : ByteArray} (h : Wrote fs (before ++ (p, content) :: later) fs') :
    fs'.read? p = some content ↔ ∀ c ∈ fs'.lastWrite? later p, c = content := by
  obtain ⟨l, hl⟩ := Option.isSome_iff_exists.mp
    (h.leads (p, content) (List.mem_append_right _ List.mem_cons_self))
  have hcontent := h.content? l
  rw [← List.singleton_append, lastAt?_append, lastAt?_append, lastAt?_singleton, if_pos hl]
    at hcontent
  rw [read?_eq, hl, Option.bind_some, hcontent, lastWrite?_eq hl]
  cases hlast : fs'.lastAt? later l with
  | none => simp
  | some c => simp

/-- Where nothing is written, or what was there, a file keeps its content. -/
theorem Wrote.read?_of_same {writes : List (Path × ByteArray)} (h : Wrote fs writes fs') {p : Path}
    (hp : (fs.target? p).isSome)
    (hsame : ∀ content ∈ fs'.lastWrite? writes p, fs.read? p = some content) :
    fs'.read? p = fs.read? p := by
  obtain ⟨l, hl⟩ := Option.isSome_iff_exists.mp hp
  have hl' := target?_of_grows h.grows hl
  rw [lastWrite?_eq hl', read?_eq fs, hl, Option.bind_some] at hsame
  rw [read?_eq, read?_eq, hl, hl', Option.bind_some, Option.bind_some, h.content?]
  cases hlast : fs'.lastAt? writes l with
  | none => rfl
  | some c =>
    rw [hsame c hlast]
    rfl

end DesignTokens.FileSystem
