import DesignTokens.Proofs.FileSystem.LinkFree
import Mathlib.Data.String.Basic

/-!
# Making directories twice

Making a directory and the directories above it stops half way when one of them cannot be made, and
leaves what it has made so far. Done again, it stops at the same place with the same answer and
makes nothing more.

* `makeDirectories_of_isDirectory`: where the directory is there, nothing happens;
* `Making.isDirectory`: where the answer is yes, it is there;
* `Making.again`, `makeDirectories_makeDirectories`: the second time nothing happens.
-/

namespace DesignTokens.FileSystem

variable {fs fs' : FileSystem} {p q : Path}

/-! ## One directory -/

theorem isFollowable_of_sublist (h : q.text.toList.Sublist p.text.toList)
    (hp : isFollowable p = true) : isFollowable q = true := by
  unfold isFollowable at hp ⊢
  rw [Bool.and_eq_true, decide_eq_true_eq, Bool.not_eq_true'] at hp ⊢
  refine ⟨?_, Nat.lt_of_le_of_lt ?_ hp.2⟩
  · rw [Bool.eq_false_iff] at hp ⊢
    intro hmem
    exact hp.1 (by simpa using h.subset (by simpa using hmem))
  · rw [← String.utf8Len_toList, ← String.utf8Len_toList]
    exact String.utf8Len_le_of_sublist h

theorem isWalkable_withoutSlashes (h : IsWalkable p) : IsWalkable p.withoutSlashes := by
  obtain ⟨slashes, -, hsplit, hne⟩ := Path.exists_slashes p
  refine ⟨isFollowable_of_sublist ?_ h.1, hne h.2⟩
  rw [hsplit]
  exact List.sublist_append_left _ _

theorem start_withoutSlashes (fs : FileSystem) (p : Path) :
    fs.start p.withoutSlashes = fs.start p := by
  unfold start
  rw [Path.isAbsolute_withoutSlashes]

theorem names_withoutSlashes (p : Path) : p.withoutSlashes.names = p.names := by
  unfold Path.names
  rw [Path.words_withoutSlashes]

/-- Where a directory is there, it cannot be made. -/
theorem makeDirectory_of_isDirectory (hlinks : fs.IsLinkFree) (h : fs.isDirectory p = true) :
    fs.makeDirectory p = .error .other := by
  obtain ⟨hp, hpassable, hsite⟩ := (isDirectory_iff hlinks).mp h
  rw [← names_withoutSlashes, ← start_withoutSlashes] at hpassable
  have hsite' : fs.look (fs.site p.withoutSlashes) = some .directory := by
    unfold site
    rw [names_withoutSlashes, start_withoutSlashes]
    exact hsite
  obtain ⟨entries, hlocate⟩ :=
    locate_of_passable (isWalkable_withoutSlashes hp) hpassable hsite' false
  unfold makeDirectory
  simp [hp.1, hlocate]

/-- Where a directory is made, the last name of its path is new in a directory that is there. -/
theorem makeDirectory_spec_of_isLinkFree (hlinks : fs.IsLinkFree)
    (h : fs.makeDirectory p = .ok fs') :
    ∃ front name, p.names = front ++ [name] ∧ name ≠ ".." ∧ name.utf8ByteSize ≤ 255
      ∧ IsWalkable p ∧ fs.Passable (fs.start p) front
      ∧ fs.look ((fs.start p).after front) = some .directory
      ∧ Puts fs (fs.site p) .directory fs' := by
  obtain ⟨hfollow, d, name, hlocate, hputs⟩ := makeDirectory_ok h
  obtain ⟨-, hshort, hstop, front, hsteps, hfront, rfl⟩ := locate_vacant_cases hlinks hlocate
  obtain ⟨hpoint, hup⟩ := not_point_of_not_leadsOn hstop
  rw [start_withoutSlashes] at hfront hputs hlocate
  have hwords : p.words = front ++ [name] := by
    rcases steps_cases p.withoutSlashes with h | h
    · rw [← Path.words_withoutSlashes, ← h, hsteps]
    · rw [h] at hsteps
      exact absurd (List.singleton_inj.mp (List.append_inj' hsteps rfl).2).symm hpoint
  have hnames : p.names = front.filter (· ≠ ".") ++ [name] := by
    unfold Path.names
    rw [hwords, List.filter_append, List.filter_cons_of_pos (by simp [hpoint])]
    rfl
  have hne : p.text ≠ "" := by
    intro hempty
    unfold Path.words at hwords
    rw [hempty] at hwords
    exact absurd hwords (by simp)
  refine ⟨front.filter (· ≠ "."), name, hnames, hup, hshort, ⟨hfollow, hne⟩,
    passable_filter.mpr hfront, ?_, ?_⟩
  · rw [Location.after_filter]
    exact (locate_vacant hlocate).1
  · unfold site
    rw [hnames, Location.after_append, Location.after_filter]
    rw [← Location.next_of_ne hpoint hup] at hputs
    exact hputs

theorem isLinkFree_of_makeDirectory (hlinks : fs.IsLinkFree) (h : fs.makeDirectory p = .ok fs') :
    fs'.IsLinkFree := by
  obtain ⟨-, _, _, -, hputs⟩ := makeDirectory_ok h
  exact hputs.isLinkFree (by simp) hlinks

/-- A directory that is made is there. -/
theorem isDirectory_of_makeDirectory (hlinks : fs.IsLinkFree) (h : fs.makeDirectory p = .ok fs') :
    fs'.isDirectory p = true := by
  obtain ⟨front, name, hnames, hup, hshort, hp, hfront, -, hputs⟩ :=
    makeDirectory_spec_of_isLinkFree hlinks h
  have hgrows := (makeDirectory_spec h).grows
  have hstart : fs'.start p = fs.start p := by rw [start, start, hgrows.current]
  have hpoint : name ≠ "." :=
    (Path.isName_of_mem_names (hnames ▸ List.mem_append_right _ List.mem_cons_self)).ne_point
  have hsite : fs.site p = (fs.start p).after front ++ [name] := by
    unfold site
    rw [hnames, Location.after_append]
    exact Location.next_of_ne hpoint hup
  have hmade := hputs.look_self
  refine (isDirectory_iff (isLinkFree_of_makeDirectory hlinks h)).mpr ⟨hp, ?_, ?_⟩
  · rw [hstart, hnames, passable_append]
    refine ⟨hgrows.passable hfront, Or.inr (Or.inr ⟨hshort, ?_⟩), trivial⟩
    rw [← hsite]
    exact hmade
  · unfold site
    rw [hstart]
    exact hmade

/-! ## The parent of a directory -/

theorem start_of_parent? (h : p.parent? = some q) (fs : FileSystem) : fs.start q = fs.start p := by
  unfold start
  rw [Path.isAbsolute_of_parent? h]

/-- Through names that all lead on, a parent leads to a directory if its site is one. -/
theorem isDirectory_parent (hlinks : fs.IsLinkFree) (h : p.parent? = some q)
    (hp : isFollowable p = true) (hq : q.text ≠ "")
    (hpassable : fs.Passable (fs.start p) p.names.dropLast)
    (hsite : fs.look ((fs.start p).after p.names.dropLast) = some .directory) :
    fs.isDirectory q = true := by
  rw [isDirectory_iff hlinks]
  unfold site
  rw [start_of_parent? h, Path.names_of_parent? h]
  exact ⟨⟨isFollowable_of_sublist (Path.sublist_of_parent? h) hp, hq⟩, hpassable, hsite⟩

/-- Where a directory can be made, its parent is there. -/
theorem isDirectory_parent_of_makeDirectory (hlinks : fs.IsLinkFree)
    (h : fs.makeDirectory p = .ok fs') (hparent : p.parent? = some q) (hq : q.text ≠ "") :
    fs.isDirectory q = true := by
  obtain ⟨front, name, hnames, -, -, hp, hfront, hdirectory, -⟩ :=
    makeDirectory_spec_of_isLinkFree hlinks h
  refine isDirectory_parent hlinks hparent hp.1 hq ?_ ?_ <;> rw [hnames, List.dropLast_concat]
  · exact hfront
  · exact hdirectory

/-- Where a directory is there, its parent is there too, unless its names only lead upwards. -/
theorem isDirectory_parent_of_isDirectory (hlinks : fs.IsLinkFree) (h : fs.isDirectory p = true)
    (hparent : p.parent? = some q) (hq : q.text ≠ "") :
    fs.isDirectory q = true ∨ ∀ s ∈ p.names, s = ".." := by
  obtain ⟨hp, hpassable, hsite⟩ := (isDirectory_iff hlinks).mp h
  rcases List.eq_nil_or_concat p.names with hnil | ⟨front, last, hnames⟩
  · exact Or.inr (by simp [hnil])
  rw [List.concat_eq_append] at hnames
  have hname : ∀ s ∈ p.names, s ≠ "." := fun s hs => (Path.isName_of_mem_names hs).ne_point
  unfold site at hsite
  rw [hnames] at hpassable hname hsite ⊢
  obtain ⟨hfront, -⟩ := passable_append.mp hpassable
  by_cases hdirectory : fs.look ((fs.start p).after front) = some .directory
  · refine Or.inl (isDirectory_parent hlinks hparent hp.1 hq ?_ ?_) <;>
      rw [hnames, List.dropLast_concat]
    · exact hfront
    · exact hdirectory
  · -- a name that leads down would have a directory behind it
    refine Or.inr fun s hs => ?_
    by_contra hup
    rcases List.mem_append.mp hs with hs | hs
    · exact hdirectory (look_after_of_mem hfront hs (hname s (by simp [hs])) hup)
    · rw [List.mem_singleton] at hs
      subst hs
      rw [Location.after_append] at hsite
      have hstep : Location.after ((fs.start p).after front) [s] = (fs.start p).after front ++ [s] :=
        Location.next_of_ne (hname s (by simp)) hup
      rw [hstep] at hsite
      exact hdirectory (look_of_look_concat hsite)

/-! ## All directories above -/

namespace Making

variable {fuel : Nat} {answer : Bool}

theorem of_isDirectory (hlinks : fs.IsLinkFree) (h : fs.isDirectory p = true) (fuel : Nat) :
    Making fs fuel p fs true := by
  cases fuel with
  | zero => exact .asked h
  | succ fuel =>
    by_cases hempty : p.text = ""
    · exact .empty hempty
    · exact .there hempty (makeDirectory_of_isDirectory hlinks h) h

theorem isLinkFree (hlinks : fs.IsLinkFree) (h : Making fs fuel p fs' answer) : fs'.IsLinkFree :=
  h.keeps isLinkFree_of_makeDirectory hlinks

/-- Directories that are made are there. -/
theorem isDirectory (hlinks : fs.IsLinkFree) (h : Making fs fuel p fs' true) :
    p.text = "" ∨ fs'.isDirectory p = true := by
  cases h with
  | asked hanswer => exact Or.inr hanswer
  | empty hempty => exact Or.inl hempty
  | made _ hmake => exact Or.inr (isDirectory_of_makeDirectory hlinks hmake)
  | there _ _ hanswer => exact Or.inr hanswer
  | within _ _ _ habove hmake' =>
    exact Or.inr (isDirectory_of_makeDirectory (habove.isLinkFree hlinks) hmake')
  | refused _ _ _ _ _ hanswer => exact Or.inr hanswer

/-- Names that only lead upwards are never made. -/
theorem eq_of_up (hlinks : fs.IsLinkFree) (h : Making fs fuel p fs' answer)
    (hup : ∀ s ∈ p.names, s = "..") : fs' = fs := by
  have hnever : ∀ {p fs'}, (∀ s ∈ p.names, s = "..") → fs.makeDirectory p ≠ .ok fs' := by
    intro p fs' hup hmake
    obtain ⟨front, name, hnames, hname, -⟩ := makeDirectory_spec_of_isLinkFree hlinks hmake
    exact hname (hup name (by simp [hnames]))
  have hfewer : ∀ {p parent : Path}, p.parent? = some parent → (∀ s ∈ p.names, s = "..") →
      ∀ s ∈ parent.names, s = ".." := by
    intro p parent hparent hup s hs
    rw [Path.names_of_parent? hparent] at hs
    exact hup s ((List.dropLast_sublist _).subset hs)
  induction h with
  | asked _ => rfl
  | empty _ => rfl
  | made _ hmake => exact absurd hmake (hnever hup)
  | there _ _ _ => rfl
  | top _ _ _ => rfl
  | stuck _ _ hparent _ ih => exact ih (hfewer hparent hup)
  | within _ _ hparent _ hmake' ih =>
    rw [ih (hfewer hparent hup)] at hmake'
    exact absurd hmake' (hnever hup)
  | refused _ _ hparent _ _ _ ih => exact ih (hfewer hparent hup)

/-- Where the directories above could not be made, the directory is not there either. -/
theorem not_isDirectory_of_stuck (hlinks : fs.IsLinkFree)
    (hmake : fs.makeDirectory p = .error .noParent) (hparent : p.parent? = some q)
    (habove : Making fs fuel q fs' false) (hnot : fs'.isDirectory q ≠ true) (hq : q.text ≠ "")
    (hmake' : fs'.makeDirectory p = .error .other) : fs'.isDirectory p = false := by
  rw [Bool.eq_false_iff]
  intro hdirectory
  have hlinks' := habove.isLinkFree hlinks
  rcases isDirectory_parent_of_isDirectory hlinks' hdirectory hparent hq with h | hup
  · exact hnot h
  · -- nothing was made then, and the first try would have come out like the second one
    have hsame : fs' = fs := habove.eq_of_up hlinks fun s hs => by
      rw [Path.names_of_parent? hparent] at hs
      exact hup s ((List.dropLast_sublist _).subset hs)
    rw [hsame, hmake] at hmake'
    exact absurd hmake' (by simp)

/-- **What was made comes out in the same way a second time, and nothing changes.** -/
theorem again (hlinks : fs.IsLinkFree) (h : Making fs fuel p fs' answer) :
    Making fs' fuel p fs' answer := by
  induction h with
  | asked hanswer => exact .asked hanswer
  | empty hempty => exact .empty hempty
  | made _ hmake =>
    exact of_isDirectory (isLinkFree_of_makeDirectory hlinks hmake)
      (isDirectory_of_makeDirectory hlinks hmake) _
  | there hne hmake hanswer => exact .there hne hmake hanswer
  | top hne hmake hparent => exact .top hne hmake hparent
  | @stuck fuel p parent fs₁ hne hmake hparent habove ih =>
    have hlinks₁ := habove.isLinkFree hlinks
    have hnot : fs₁.isDirectory parent ≠ true := by
      intro hdirectory
      obtain ⟨-, heq⟩ := ih.unique (of_isDirectory hlinks₁ hdirectory fuel)
      exact absurd heq (by simp)
    cases fuel with
    | zero =>
      -- the parent was only looked at, so this is the same try in the same file system
      cases habove with
      | asked hanswer => exact .stuck hne hmake hparent (.asked hanswer)
    | succ fuel =>
      have hq : parent.text ≠ "" := by
        intro hempty
        obtain ⟨-, heq⟩ := ih.unique (.empty hempty)
        exact absurd heq (by simp)
      cases hmake' : fs₁.makeDirectory p with
      | ok fs₂ =>
        exact absurd (isDirectory_parent_of_makeDirectory hlinks₁ hmake' hparent hq) hnot
      | error e =>
        cases e with
        | noParent => exact .stuck hne hmake' hparent ih
        | other =>
          exact .there hne hmake' (not_isDirectory_of_stuck hlinks hmake hparent habove hnot hq hmake')
  | within _ _ _ habove hmake' _ =>
    have hlinks₁ := habove.isLinkFree hlinks
    exact of_isDirectory (isLinkFree_of_makeDirectory hlinks₁ hmake')
      (isDirectory_of_makeDirectory hlinks₁ hmake') _
  | @refused _ _ _ _ e _ hne _ hparent _ hmake' hanswer ih =>
    cases e with
    | noParent => exact .refused hne hmake' hparent ih hmake' hanswer
    | other => exact .there hne hmake' hanswer

end Making

/-- **Making directories a second time changes nothing and gives the same answer.** -/
theorem makeDirectories_makeDirectories (hlinks : fs.IsLinkFree) (p : Path) :
    (fs.makeDirectories p).1.makeDirectories p = fs.makeDirectories p :=
  ((Making.ofRun fs _ p).again hlinks).run_eq

theorem makeDirectories_of_isDirectory (hlinks : fs.IsLinkFree) (h : fs.isDirectory p = true) :
    fs.makeDirectories p = (fs, true) :=
  (Making.of_isDirectory hlinks h _).run_eq

theorem makeDirectories_of_empty (h : p.text = "") : fs.makeDirectories p = (fs, true) :=
  (Making.empty h).run_eq

theorem isLinkFree_makeDirectories (hlinks : fs.IsLinkFree) (p : Path) :
    (fs.makeDirectories p).1.IsLinkFree :=
  (Making.ofRun fs _ p).isLinkFree hlinks

/-- Directories that are there are there whatever becomes of files. -/
theorem makeDirectories_of_sameDirectories (hlinks : fs.IsLinkFree) (hlinks' : fs'.IsLinkFree)
    (hsame : SameDirectories fs fs') (h : fs.makeDirectories p = (fs, true)) :
    fs'.makeDirectories p = (fs', true) := by
  have hmaking := Making.ofRun fs (p.components.length + 1) p
  rw [show fs.makeDirectoriesFrom (p.components.length + 1) p = (fs, true) from h] at hmaking
  rcases hmaking.isDirectory hlinks with hempty | hdirectory
  · exact makeDirectories_of_empty hempty
  · exact makeDirectories_of_isDirectory hlinks' (hsame.isDirectory hlinks hlinks' p ▸ hdirectory)

end DesignTokens.FileSystem
