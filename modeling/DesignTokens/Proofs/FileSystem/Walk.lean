import DesignTokens.Proofs.FileSystem.Node

/-!
# Where paths lead as a file system grows

A file system grows when nothing is taken away: directories and links stay what they are, files stay
files, and only the contents of files may change. A path that leads to a file or a directory leads to
the same location then, and a path at whose end a file was made leads to that file.

* `locate_vacant`: a free name is free in a directory that is there;
* `target?_of_grows`: paths go on leading where they lead.
-/

namespace DesignTokens

/-- The location where a walk ends, whether something is there or not. -/
def Place.end? : Place → Option Location
  | .occupied location _ => some location
  | .vacant directory name => some (directory ++ [name])
  | _ => none

namespace FileSystem

/-- The face of a location. -/
def look (fs : FileSystem) (location : Location) : Option Face :=
  fs.root.look location

/-- The location a path leads to. -/
def target? (fs : FileSystem) (p : Path) : Option Location :=
  match fs.locate p true with
  | .occupied location _ => some location
  | _ => none

/-- The content of the file at a location. -/
def content? (fs : FileSystem) (location : Location) : Option ByteArray :=
  match fs.look location with
  | some (.file content) => some content
  | _ => none

/-- Nothing is taken away. -/
structure Grows (fs fs' : FileSystem) : Prop where
  current : fs'.current = fs.current
  directory : ∀ {l}, fs.look l = some .directory → fs'.look l = some .directory
  link : ∀ {l target}, fs.look l = some (.link target) → fs'.look l = some (.link target)
  file : ∀ {l content}, fs.look l = some (.file content) →
    ∃ content', fs'.look l = some (.file content')

variable {fs fs' fs'' : FileSystem}

theorem Grows.refl (fs : FileSystem) : Grows fs fs :=
  ⟨rfl, id, id, fun h => ⟨_, h⟩⟩

theorem Grows.trans (h : Grows fs fs') (h' : Grows fs' fs'') : Grows fs fs'' where
  current := h'.current.trans h.current
  directory hl := h'.directory (h.directory hl)
  link hl := h'.link (h.link hl)
  file hl := by
    obtain ⟨_, hl'⟩ := h.file hl
    exact h'.file hl'

theorem Grows.isSome (h : Grows fs fs') {l : Location} (hl : (fs.look l).isSome) :
    (fs'.look l).isSome := by
  obtain ⟨face, hface⟩ := Option.isSome_iff_exists.mp hl
  cases face with
  | file content =>
    obtain ⟨_, hfile⟩ := h.file hface
    rw [hfile]
    rfl
  | directory => rw [h.directory hface]; rfl
  | link target => rw [h.link hface]; rfl

/-! ## What is found at the end of a walk -/

section Ends

variable {through : Bool} {links : Nat} {follow : Location → List String → Place}
  {from_ : Location} {names : List String}

/-- What a place says is so: a node is at its location, and a free name is free in a directory. -/
def IsSound (fs : FileSystem) : Place → Prop
  | .occupied location node => fs.root.get? location = some node
  | .vacant directory name =>
    fs.look directory = some .directory ∧ fs.look (directory ++ [name]) = none
  | _ => True

theorem isSound_descend (hfollow : ∀ from_ names, fs.IsSound (follow from_ names)) :
    fs.IsSound (fs.descend through follow from_ names) := by
  fun_induction fs.descend through follow from_ names with
  | case1 from_ node hnode => exact hnode
  | case3 from_ rest ih => exact ih
  | case4 from_ rest _ ih => exact ih
  | case6 from_ name rest _ _ _ hget hdirectory =>
    rw [Bool.and_eq_true] at hdirectory
    refine ⟨?_, Node.look_eq_none_iff.mpr hget⟩
    cases hnode : fs.root.get? from_ with
    | none =>
      rw [hnode] at hdirectory
      exact absurd hdirectory.2 Bool.false_ne_true
    | some node =>
      rw [hnode] at hdirectory
      cases node with
      | directory entries => exact Node.look_eq_directory_iff.mpr ⟨entries, hnode⟩
      | file content => exact absurd hdirectory.2 Bool.false_ne_true
      | link target => exact absurd hdirectory.2 Bool.false_ne_true
  | case8 from_ name rest _ _ _ _ _ ih => exact ih
  | case9 from_ name rest _ _ _ content hget => exact hget
  | case11 from_ name rest _ _ _ target hget => exact hget
  | case12 => exact hfollow _ _
  | _ => exact trivial

theorem isSound_walk (through : Bool) (links : Nat) (from_ : Location) (names : List String) :
    fs.IsSound (fs.walk through links from_ names) := by
  induction links generalizing from_ names with
  | zero => exact isSound_descend fun _ _ => trivial
  | succ links ih => exact isSound_descend ih

/-! ## Walks in a file system that grows -/

/-- A walk ends where it ended, if what is done at links does. A free name at the end must have
become a file. -/
theorem descend_of_grows (hgrows : Grows fs fs') {location : Location}
    {follow' : Location → List String → Place}
    (hend : fs.look location = none → ∃ content, fs'.look location = some (.file content))
    (hfollow : ∀ from_ names, (follow from_ names).end? = some location →
      ∃ node, follow' from_ names = .occupied location node)
    (h : (fs.descend true follow from_ names).end? = some location) :
    ∃ node, fs'.descend true follow' from_ names = .occupied location node := by
  fun_induction fs.descend true follow from_ names with
  | case1 from_ node hnode =>
    obtain rfl : from_ = location := Option.some.inj h
    have hthere : (fs.look from_).isSome := by
      unfold look Node.look
      rw [hnode]
      rfl
    obtain ⟨face, hface⟩ := Option.isSome_iff_exists.mp (hgrows.isSome hthere)
    obtain ⟨node', hnode', -⟩ := Node.look_eq_some_iff.mp hface
    exact ⟨node', by rw [descend, hnode']⟩
  | case3 from_ rest ih =>
    rw [descend, if_pos rfl]
    exact ih h
  | case4 from_ rest hne ih =>
    rw [descend, if_neg hne, if_pos rfl]
    exact ih h
  | case6 from_ name rest hpoint hup hlong hget hfree =>
    -- a file was made at the free name
    rw [Bool.and_eq_true, List.isEmpty_iff] at hfree
    obtain rfl := hfree.1
    obtain rfl : from_ ++ [name] = location := Option.some.inj h
    obtain ⟨content, hfile⟩ := hend (Node.look_eq_none_iff.mpr hget)
    have hget' := Node.look_eq_file_iff.mp hfile
    exact ⟨_, by rw [descend, if_neg hpoint, if_neg hup, if_neg hlong, hget']; rfl⟩
  | case8 from_ name rest hpoint hup hlong entries hget ih =>
    have hdirectory := hgrows.directory (Node.look_eq_directory_iff.mpr ⟨entries, hget⟩)
    obtain ⟨entries', hget'⟩ := Node.look_eq_directory_iff.mp hdirectory
    rw [descend, if_neg hpoint, if_neg hup, if_neg hlong, hget']
    exact ih h
  | case9 from_ name rest hpoint hup hlong content hget hrest =>
    obtain rfl := List.isEmpty_iff.mp hrest
    obtain rfl : from_ ++ [name] = location := Option.some.inj h
    obtain ⟨content', hfile⟩ := hgrows.file (Node.look_eq_file_iff.mpr hget)
    have hget' := Node.look_eq_file_iff.mp hfile
    exact ⟨_, by rw [descend, if_neg hpoint, if_neg hup, if_neg hlong, hget']; rfl⟩
  | case11 from_ name rest _ _ _ target hget hrest => exact absurd hrest (by simp)
  | case12 from_ name rest hpoint hup hlong target hget hrest =>
    have hget' := Node.look_eq_link_iff.mp (hgrows.link (Node.look_eq_link_iff.mpr hget))
    rw [descend, if_neg hpoint, if_neg hup, if_neg hlong, hget']
    dsimp only
    rw [if_neg hrest]
    exact hfollow _ _ h
  | _ => exact absurd h (by simp [Place.end?])

/-- **A walk goes on ending where it ended**, if a file was made there in case nothing was. -/
theorem walk_of_grows (hgrows : Grows fs fs') {location : Location}
    (hend : fs.look location = none → ∃ content, fs'.look location = some (.file content))
    (h : (fs.walk true links from_ names).end? = some location) :
    ∃ node, fs'.walk true links from_ names = .occupied location node := by
  induction links generalizing from_ names with
  | zero => exact descend_of_grows hgrows hend (fun _ _ hnone => absurd hnone (by simp [Place.end?])) h
  | succ links ih => exact descend_of_grows hgrows hend (fun _ _ => ih) h

end Ends

/-! ## Where a path leads -/

variable {p : Path} {location : Location}

theorem target?_eq_some_iff :
    fs.target? p = some location ↔ ∃ node, fs.locate p true = .occupied location node := by
  unfold target?
  constructor
  · intro h
    split at h
    · rename_i l node hlocate
      exact ⟨node, by rw [hlocate, Option.some.inj h]⟩
    · exact absurd h (by simp)
  · rintro ⟨node, h⟩
    rw [h]

/-- Following a path is a walk, if the path can be followed. -/
theorem locate_cases (p : Path) :
    (∀ (fs : FileSystem) through, fs.locate p through = .blocked)
    ∨ (∀ (fs : FileSystem) through, fs.locate p through = .missing)
    ∨ ∀ (fs : FileSystem) through,
        fs.locate p through = fs.walk through maxLinks (fs.start p) (steps p) := by
  by_cases hfollow : isFollowable p = true
  · by_cases hempty : p.text.isEmpty = true
    · exact Or.inr (Or.inl fun fs through => by simp [locate, hfollow, hempty])
    · exact Or.inr (Or.inr fun fs through => by simp [locate, hfollow, hempty])
  · exact Or.inl fun fs through => by simp [locate, hfollow]

theorem isSound_locate (fs : FileSystem) (p : Path) (through : Bool) :
    fs.IsSound (fs.locate p through) := by
  rcases locate_cases p with hp | hp | hp <;> rw [hp]
  · exact trivial
  · exact trivial
  · exact isSound_walk _ _ _ _

theorem locate_vacant {through : Bool} {directory : Location} {name : String}
    (h : fs.locate p through = .vacant directory name) :
    fs.look directory = some .directory ∧ fs.look (directory ++ [name]) = none := by
  have hsound := isSound_locate fs p through
  rw [h] at hsound
  exact hsound

theorem locate_occupied {through : Bool} {node : Node}
    (h : fs.locate p through = .occupied location node) : fs.root.get? location = some node := by
  have hsound := isSound_locate fs p through
  rw [h] at hsound
  exact hsound

theorem node?_eq (fs : FileSystem) (p : Path) :
    fs.node? p = (fs.target? p).bind fun location => fs.root.get? location := by
  unfold node? target?
  cases hlocate : fs.locate p true with
  | occupied location node => exact (locate_occupied hlocate).symm
  | _ => rfl

theorem contains_iff : fs.contains p = true ↔ (fs.target? p).isSome := by
  unfold contains
  rw [node?_eq]
  constructor
  · intro h
    cases htarget : fs.target? p with
    | none =>
      rw [htarget] at h
      exact h
    | some location => rfl
  · intro h
    obtain ⟨location, hlocation⟩ := Option.isSome_iff_exists.mp h
    obtain ⟨node, hnode⟩ := target?_eq_some_iff.mp hlocation
    rw [hlocation, Option.bind_some, locate_occupied hnode]
    rfl

theorem read?_eq (fs : FileSystem) (p : Path) : fs.read? p = (fs.target? p).bind fs.content? := by
  unfold read?
  rw [node?_eq]
  cases fs.target? p with
  | none => rfl
  | some location =>
    rw [Option.bind_some, Option.bind_some]
    unfold content? look Node.look
    cases fs.root.get? location with
    | none => rfl
    | some node => cases node <;> rfl

/-- A path leads to where it ended before, if a file was made there in case nothing was. -/
theorem target?_of_end? (hgrows : Grows fs fs')
    (hend : fs.look location = none → ∃ content, fs'.look location = some (.file content))
    (h : (fs.locate p true).end? = some location) : fs'.target? p = some location := by
  rw [target?_eq_some_iff]
  have hstart : fs'.start p = fs.start p := by rw [start, start, hgrows.current]
  rcases locate_cases p with hp | hp | hp <;> rw [hp] at h
  · exact absurd h (by simp [Place.end?])
  · exact absurd h (by simp [Place.end?])
  · rw [hp, hstart]
    exact walk_of_grows hgrows hend h

/-- **A path goes on leading where it leads.** -/
theorem target?_of_grows (hgrows : Grows fs fs') (h : fs.target? p = some location) :
    fs'.target? p = some location := by
  obtain ⟨node, hnode⟩ := target?_eq_some_iff.mp h
  refine target?_of_end? hgrows (fun hnone => ?_) (by rw [hnode]; rfl)
  rw [look, Node.look_eq_none_iff, locate_occupied hnode] at hnone
  exact absurd hnone (by simp)

end FileSystem

end DesignTokens
