import DesignTokens.Proofs.FileSystem.Write
import DesignTokens.Proofs.Path.Names

/-!
# File systems without links

Without links the names of a path alone say where it leads, and whether it can be followed depends
on the directories alone. So what happens to files never changes where a path leads, unless it is to
the file itself.

* `isDirectory_iff`, `eq_site_of_target?`: where paths lead;
* `target?_of_sameDirectories`: they lead there whatever becomes of files;
* `write?_isSome_iff`: when a file can be written.
-/

namespace DesignTokens

/-- The location that a name leads to. -/
def Location.next (l : Location) (name : String) : Location :=
  if name = "." then l else if name = ".." then l.dropLast else l ++ [name]

/-- The location that names lead to one after the other, whatever is there. -/
def Location.after (l : Location) (names : List String) : Location :=
  names.foldl Location.next l

namespace Location

variable {l : Location} {name : String}

theorem next_of_ne (hpoint : name ≠ ".") (hup : name ≠ "..") : l.next name = l ++ [name] := by
  unfold next
  rw [if_neg hpoint, if_neg hup]

theorem after_cons (l : Location) (name : String) (names : List String) :
    l.after (name :: names) = (l.next name).after names :=
  rfl

theorem after_append (l : Location) (front back : List String) :
    l.after (front ++ back) = (l.after front).after back :=
  List.foldl_append

theorem after_filter (l : Location) (names : List String) :
    l.after (names.filter (· ≠ ".")) = l.after names := by
  induction names generalizing l with
  | nil => rfl
  | cons name names ih =>
    by_cases hname : name = "."
    · rw [List.filter_cons_of_neg (by simp [hname]), ih, hname]
      rfl
    · rw [List.filter_cons_of_pos (by simp [hname])]
      exact ih (l.next name)

end Location

namespace Node

mutual

/-- Whether a node and all that is below it are free of links. -/
def isLinkFree : Node → Bool
  | file _ => true
  | link _ => false
  | directory entries => areLinkFree entries

/-- Whether the entries of a directory are free of links. -/
def areLinkFree : List (String × Node) → Bool
  | [] => true
  | (_, node) :: rest => node.isLinkFree && areLinkFree rest

end

theorem isLinkFree_of_get? {entries : List (String × Node)} {name : String} {node : Node}
    (h : areLinkFree entries = true) (hget : Table.get? entries name = some node) :
    node.isLinkFree = true := by
  induction entries with
  | nil => exact absurd hget (by simp [Table.get?])
  | cons entry rest ih =>
    obtain ⟨k, v⟩ := entry
    rw [areLinkFree, Bool.and_eq_true] at h
    rw [Table.get?_cons] at hget
    split at hget
    · exact Option.some.inj hget ▸ h.1
    · exact ih h.2 hget

theorem look_ne_link {node : Node} (h : node.isLinkFree = true) (l : Location) (target : Path) :
    node.look l ≠ some (.link target) := by
  induction l generalizing node with
  | nil =>
    rw [look_nil]
    intro heq
    rw [face_eq_link_iff.mp (Option.some.inj heq), isLinkFree] at h
    exact absurd h (by simp)
  | cons name rest ih =>
    intro hlook
    by_cases hface : node.face = .directory
    · obtain ⟨entries, rfl⟩ := face_eq_directory_iff.mp hface
      rw [look_cons] at hlook
      obtain ⟨inner, hinner, hrest⟩ := Option.bind_eq_some_iff.mp hlook
      rw [isLinkFree] at h
      exact ih (isLinkFree_of_get? h hinner) hrest
    · rw [look, get?_cons_eq_none hface] at hlook
      exact absurd hlook (by simp)

end Node

namespace FileSystem

variable {fs fs' : FileSystem} {l : Location} {name : String} {names : List String} {p : Path}
  {through : Bool} {follow : Location → List String → Place}

/-- Nothing is a link. -/
def IsLinkFree (fs : FileSystem) : Prop :=
  ∀ l target, fs.look l ≠ some (.link target)

theorem isLinkFree_of_root (h : fs.root.isLinkFree = true) : fs.IsLinkFree :=
  Node.look_ne_link h

/-! ## Names that lead on -/

/-- A name leads on if it is that of a directory; points always do. -/
def LeadsOn (fs : FileSystem) (l : Location) (name : String) : Prop :=
  name = "." ∨ name = ".." ∨ name.utf8ByteSize ≤ 255 ∧ fs.look (l ++ [name]) = some .directory

/-- All names lead on. -/
def Passable (fs : FileSystem) : Location → List String → Prop
  | _, [] => True
  | l, name :: rest => fs.LeadsOn l name ∧ fs.Passable (l.next name) rest

instance (fs : FileSystem) (l : Location) (name : String) : Decidable (fs.LeadsOn l name) :=
  inferInstanceAs (Decidable (name = "." ∨ name = ".."
    ∨ name.utf8ByteSize ≤ 255 ∧ fs.look (l ++ [name]) = some .directory))

instance decidablePassable (fs : FileSystem) :
    (l : Location) → (names : List String) → Decidable (fs.Passable l names)
  | _, [] => isTrue trivial
  | l, name :: rest =>
    have := decidablePassable fs (l.next name) rest
    inferInstanceAs (Decidable (fs.LeadsOn l name ∧ fs.Passable (l.next name) rest))

theorem passable_append {front back : List String} :
    fs.Passable l (front ++ back) ↔ fs.Passable l front ∧ fs.Passable (l.after front) back := by
  induction front generalizing l with
  | nil => exact ⟨fun h => ⟨trivial, h⟩, fun h => h.2⟩
  | cons name front ih =>
    rw [List.cons_append, Passable, Passable, ih, and_assoc]
    rfl

theorem Grows.passable (h : Grows fs fs') (hpassable : fs.Passable l names) :
    fs'.Passable l names := by
  induction names generalizing l with
  | nil => trivial
  | cons name names ih =>
    refine ⟨hpassable.1.imp_right (Or.imp_right fun hname => ?_), ih hpassable.2⟩
    exact ⟨hname.1, h.directory hname.2⟩

/-- Points do not matter. -/
theorem passable_filter : fs.Passable l (names.filter (· ≠ ".")) ↔ fs.Passable l names := by
  induction names generalizing l with
  | nil => exact Iff.rfl
  | cons name names ih =>
    by_cases hname : name = "."
    · subst hname
      rw [List.filter_cons_of_neg (by simp), ih, Passable]
      exact ⟨fun h => ⟨Or.inl rfl, h⟩, fun h => h.2⟩
    · rw [List.filter_cons_of_pos (by simp [hname]), Passable, Passable, ih]

/-- There is a first name that does not lead on, if not all do. -/
theorem exists_stop (h : ¬fs.Passable l names) :
    ∃ front name rest, names = front ++ name :: rest ∧ fs.Passable l front
      ∧ ¬fs.LeadsOn (l.after front) name := by
  induction names generalizing l with
  | nil => exact absurd trivial h
  | cons name names ih =>
    by_cases hname : fs.LeadsOn l name
    · obtain ⟨front, stop, rest, rfl, hfront, hstop⟩ := ih fun hrest => h ⟨hname, hrest⟩
      exact ⟨name :: front, stop, rest, rfl, ⟨hname, hfront⟩, hstop⟩
    · exact ⟨[], name, names, rfl, trivial, hname⟩

/-- The location above something is a directory. -/
theorem look_of_look_concat {face : Face} (h : fs.look (l ++ [name]) = some face) :
    fs.look l = some .directory := by
  by_contra hnot
  rw [look, Node.look_append_eq_none hnot] at h
  exact absurd h (by simp)

/-- Behind a directory there is a directory at the end of names that lead on. -/
theorem look_after_of_passable (h : fs.Passable l names) (hl : fs.look l = some .directory) :
    fs.look (l.after names) = some .directory := by
  induction names generalizing l with
  | nil => exact hl
  | cons name names ih =>
    obtain ⟨hname, hrest⟩ := h
    refine ih hrest ?_
    unfold Location.next
    split
    · exact hl
    · split
      · rcases List.eq_nil_or_concat l with rfl | ⟨front, last, rfl⟩
        · exact hl
        · rw [List.concat_eq_append] at hl ⊢
          rw [List.dropLast_concat]
          exact look_of_look_concat hl
      · rename_i hpoint hup
        exact (hname.resolve_left hpoint).resolve_left hup |>.2

/-- Behind a name that leads on there are directories only. -/
theorem look_after_of_mem (h : fs.Passable l names) (hmem : name ∈ names) (hpoint : name ≠ ".")
    (hup : name ≠ "..") : fs.look (l.after names) = some .directory := by
  obtain ⟨front, back, rfl⟩ := List.append_of_mem hmem
  obtain ⟨-, hname, hback⟩ := passable_append.mp h
  rw [Location.after_append, Location.after_cons]
  refine look_after_of_passable hback ?_
  rw [Location.next_of_ne hpoint hup]
  exact ((hname.resolve_left hpoint).resolve_left hup).2

/-! ## Walks -/

theorem descend_of_leadsOn (h : fs.LeadsOn l name) (rest : List String) :
    fs.descend through follow l (name :: rest) = fs.descend through follow (l.next name) rest := by
  rw [descend]
  unfold Location.next
  split
  · rfl
  · split
    · rfl
    · rename_i hpoint hup
      obtain ⟨hshort, hdirectory⟩ := (h.resolve_left hpoint).resolve_left hup
      obtain ⟨entries, hget⟩ := Node.look_eq_directory_iff.mp hdirectory
      rw [if_neg (Nat.not_lt.mpr hshort), hget]

theorem descend_append (h : fs.Passable l names) (rest : List String) :
    fs.descend through follow l (names ++ rest)
      = fs.descend through follow (l.after names) rest := by
  induction names generalizing l with
  | nil => rfl
  | cons name names ih =>
    rw [List.cons_append, descend_of_leadsOn h.1, ih h.2]
    rfl

theorem descend_nil_of_get? {node : Node} (h : fs.root.get? l = some node) :
    fs.descend through follow l [] = .occupied l node := by
  rw [descend, h]

/-- Where all names lead on, the walk ends at what they lead to. -/
theorem descend_of_passable (h : fs.Passable l names) :
    fs.descend through follow l names = fs.descend through follow (l.after names) [] := by
  have hall : fs.descend through follow l (names ++ [])
      = fs.descend through follow (l.after names) [] := descend_append h []
  rwa [List.append_nil] at hall

/-- What a walk comes to at a name that does not lead on. -/
inductive Stop (fs : FileSystem) (l : Location) (name : String) (rest : List String) : Place → Prop
  | long (h : 255 < name.utf8ByteSize) : Stop fs l name rest .blocked
  | vacant (hshort : name.utf8ByteSize ≤ 255) (hfree : fs.look (l ++ [name]) = none)
      (hlast : rest = []) (hl : fs.look l = some .directory) : Stop fs l name rest (.vacant l name)
  | missing (hfree : fs.look (l ++ [name]) = none)
      (h : rest ≠ [] ∨ fs.look l ≠ some .directory) : Stop fs l name rest .missing
  | file (hshort : name.utf8ByteSize ≤ 255) {content : ByteArray}
      (hfile : fs.look (l ++ [name]) = some (.file content)) (hlast : rest = []) :
      Stop fs l name rest (.occupied (l ++ [name]) (.file content))
  | blocked {content : ByteArray} (hfile : fs.look (l ++ [name]) = some (.file content))
      (h : rest ≠ []) : Stop fs l name rest .blocked

variable (through follow) in
theorem stop_descend (hlinks : fs.IsLinkFree) (h : ¬fs.LeadsOn l name) (rest : List String) :
    fs.Stop l name rest (fs.descend through follow l (name :: rest)) := by
  unfold LeadsOn at h
  rw [not_or, not_or, not_and] at h
  obtain ⟨hpoint, hup, hdirectory⟩ := h
  rw [descend, if_neg hpoint, if_neg hup]
  by_cases hlong : 255 < name.utf8ByteSize
  · rw [if_pos hlong]
    exact .long hlong
  · have hshort := Nat.not_lt.mp hlong
    rw [if_neg hlong]
    cases hget : fs.root.get? (l ++ [name]) with
    | none =>
      have hfree : fs.look (l ++ [name]) = none := Node.look_eq_none_iff.mpr hget
      have hany : (fs.root.get? l).any Node.isDirectory = true ↔ fs.look l = some .directory := by
        rw [look, Node.look_eq_directory_iff]
        cases fs.root.get? l with
        | none => simp
        | some node => cases node <;> simp [Node.isDirectory]
      dsimp only
      split
      · rename_i hvacant
        rw [Bool.and_eq_true, List.isEmpty_iff, hany] at hvacant
        exact .vacant hshort hfree hvacant.1 hvacant.2
      · rename_i hmissing
        rw [Bool.and_eq_true, List.isEmpty_iff, hany, not_and_or] at hmissing
        exact .missing hfree hmissing
    | some node =>
      cases node with
      | directory entries =>
        exact absurd (Node.look_eq_directory_iff.mpr ⟨entries, hget⟩) (hdirectory hshort)
      | link target => exact absurd (Node.look_eq_link_iff.mpr hget) (hlinks _ _)
      | file content =>
        have hfile : fs.look (l ++ [name]) = some (.file content) := Node.look_eq_file_iff.mpr hget
        dsimp only
        split
        · rename_i hlast
          exact .file hshort hfile (List.isEmpty_iff.mp hlast)
        · rename_i hlast
          exact .blocked hfile fun h => hlast (List.isEmpty_iff.mpr h)

variable (through follow) in
/-- The first name that does not lead on decides a walk. -/
theorem stop_descend_of_not_passable (hlinks : fs.IsLinkFree) (h : ¬fs.Passable l names) :
    ∃ front name rest, names = front ++ name :: rest ∧ fs.Passable l front
      ∧ ¬fs.LeadsOn (l.after front) name
      ∧ fs.Stop (l.after front) name rest (fs.descend through follow l names) := by
  obtain ⟨front, name, rest, rfl, hfront, hname⟩ := exists_stop h
  refine ⟨front, name, rest, rfl, hfront, hname, ?_⟩
  rw [descend_append hfront]
  exact stop_descend through follow hlinks hname rest

/-! ## Where paths lead -/

/-- A path that can be followed at all. -/
def IsWalkable (p : Path) : Prop := isFollowable p = true ∧ p.text ≠ ""

instance (p : Path) : Decidable (IsWalkable p) :=
  inferInstanceAs (Decidable (isFollowable p = true ∧ p.text ≠ ""))

/-- The location that the names of a path lead to, whatever is there. -/
def site (fs : FileSystem) (p : Path) : Location := (fs.start p).after p.names

theorem steps_cases (p : Path) : steps p = p.words ∨ steps p = p.words ++ ["."] := by
  unfold steps
  rw [← Path.words_eq]
  dsimp only
  split
  · exact Or.inr rfl
  · exact Or.inl rfl

theorem after_steps (l : Location) (p : Path) : l.after (steps p) = l.after p.names := by
  unfold Path.names
  rw [Location.after_filter]
  rcases steps_cases p with h | h
  · rw [h]
  · rw [h, Location.after_append]
    rfl

theorem passable_steps : fs.Passable l (steps p) ↔ fs.Passable l p.names := by
  unfold Path.names
  rw [passable_filter]
  rcases steps_cases p with h | h
  · rw [h]
  · rw [h, passable_append]
    exact ⟨fun h => h.1, fun h => ⟨h, Or.inl rfl, trivial⟩⟩

theorem locate_of_isWalkable (h : IsWalkable p) (fs : FileSystem) (through : Bool) :
    ∃ follow, fs.locate p through = fs.descend through follow (fs.start p) (steps p) := by
  have hlocate : fs.locate p through = fs.walk through maxLinks (fs.start p) (steps p) := by
    simp [locate, h.1, h.2]
  exact ⟨_, hlocate⟩

theorem locate_of_not_isWalkable (h : ¬IsWalkable p) (fs : FileSystem) (through : Bool) :
    fs.locate p through = .blocked ∨ fs.locate p through = .missing := by
  unfold locate
  split
  · exact Or.inl rfl
  · rename_i hfollow
    have hempty : p.text = "" := by
      by_contra hne
      exact h ⟨by simpa using hfollow, hne⟩
    exact Or.inr (if_pos (String.isEmpty_iff.mpr hempty))

theorem isWalkable_of_locate {place : Place} (h : fs.locate p through = place)
    (hblocked : place ≠ .blocked) (hmissing : place ≠ .missing) : IsWalkable p := by
  by_contra hnot
  rcases locate_of_not_isWalkable hnot fs through with hlocate | hlocate
  · exact hblocked (h.symm.trans hlocate)
  · exact hmissing (h.symm.trans hlocate)

/-- Through names that all lead on, a path leads to its site if that is a directory. -/
theorem locate_of_passable (hp : IsWalkable p) (h : fs.Passable (fs.start p) p.names)
    (hsite : fs.look (fs.site p) = some .directory) (through : Bool) :
    ∃ entries, fs.locate p through = .occupied (fs.site p) (.directory entries) := by
  obtain ⟨follow, hlocate⟩ := locate_of_isWalkable hp fs through
  obtain ⟨entries, hget⟩ := Node.look_eq_directory_iff.mp hsite
  refine ⟨entries, ?_⟩
  rw [hlocate, descend_of_passable (passable_steps.mpr h), after_steps]
  exact descend_nil_of_get? hget

theorem not_point_of_not_leadsOn (h : ¬fs.LeadsOn l name) : name ≠ "." ∧ name ≠ ".." :=
  ⟨fun heq => h (Or.inl heq), fun heq => h (Or.inr (Or.inl heq))⟩

theorem site_eq_concat {front : List String} (hsteps : steps p = front ++ [name])
    (hpoint : name ≠ ".") (hup : name ≠ "..") :
    fs.site p = (fs.start p).after front ++ [name] := by
  unfold site
  rw [← after_steps, hsteps, Location.after_append]
  exact Location.next_of_ne hpoint hup

/-- Where a path leads: either all of its names lead on, or all but the last, which is a file. -/
theorem locate_occupied_cases (hlinks : fs.IsLinkFree) {node : Node}
    (h : fs.locate p through = .occupied l node) :
    IsWalkable p ∧ l = fs.site p
    ∧ (fs.Passable (fs.start p) p.names
      ∨ ∃ front name content, steps p = front ++ [name] ∧ fs.Passable (fs.start p) front
        ∧ ¬fs.LeadsOn ((fs.start p).after front) name ∧ name.utf8ByteSize ≤ 255
        ∧ node = .file content) := by
  have hp : IsWalkable p := isWalkable_of_locate h (by simp) (by simp)
  obtain ⟨follow, hlocate⟩ := locate_of_isWalkable hp fs through
  rw [hlocate] at h
  by_cases hpassable : fs.Passable (fs.start p) (steps p)
  · rw [descend_of_passable hpassable, after_steps, descend] at h
    refine ⟨hp, ?_, Or.inl (passable_steps.mp hpassable)⟩
    split at h
    · injection h with hl
      exact hl.symm
    · exact absurd h (by simp)
  · obtain ⟨front, name, rest, hsteps, hfront, hname, hstop⟩ :=
      stop_descend_of_not_passable through follow hlinks hpassable
    rw [h] at hstop
    cases hstop with
    | @file hshort content hfile hlast =>
      subst hlast
      obtain ⟨hpoint, hup⟩ := not_point_of_not_leadsOn hname
      exact ⟨hp, (site_eq_concat hsteps hpoint hup).symm,
        Or.inr ⟨front, name, content, hsteps, hfront, hname, hshort, rfl⟩⟩

/-- Where a name is free, it is the last one of the path. -/
theorem locate_vacant_cases (hlinks : fs.IsLinkFree) {directory : Location}
    (h : fs.locate p through = .vacant directory name) :
    IsWalkable p ∧ name.utf8ByteSize ≤ 255 ∧ ¬fs.LeadsOn directory name
    ∧ ∃ front, steps p = front ++ [name] ∧ fs.Passable (fs.start p) front
      ∧ (fs.start p).after front = directory := by
  have hp : IsWalkable p := isWalkable_of_locate h (by simp) (by simp)
  obtain ⟨follow, hlocate⟩ := locate_of_isWalkable hp fs through
  rw [hlocate] at h
  by_cases hpassable : fs.Passable (fs.start p) (steps p)
  · rw [descend_of_passable hpassable, descend] at h
    split at h <;> exact absurd h (by simp)
  · obtain ⟨front, stop, rest, hsteps, hfront, hstop, hwalk⟩ :=
      stop_descend_of_not_passable through follow hlinks hpassable
    rw [h] at hwalk
    cases hwalk with
    | vacant hshort _ hlast _ =>
      subst hlast
      exact ⟨hp, hshort, hstop, front, hsteps, hfront, rfl⟩

/-- **A path that leads anywhere leads to its site.** -/
theorem eq_site_of_target? (hlinks : fs.IsLinkFree) (h : fs.target? p = some l) :
    l = fs.site p := by
  obtain ⟨node, hlocate⟩ := target?_eq_some_iff.mp h
  exact (locate_occupied_cases hlinks hlocate).2.1

/-- **When a path leads to a directory.** -/
theorem isDirectory_iff (hlinks : fs.IsLinkFree) :
    fs.isDirectory p = true ↔ IsWalkable p ∧ fs.Passable (fs.start p) p.names
      ∧ fs.look (fs.site p) = some .directory := by
  have hlocate : fs.isDirectory p = true
      ↔ ∃ l entries, fs.locate p true = .occupied l (.directory entries) := by
    unfold isDirectory node?
    cases fs.locate p true with
    | occupied l node => cases node <;> simp [Node.isDirectory]
    | _ => simp
  rw [hlocate]
  constructor
  · rintro ⟨l, entries, h⟩
    obtain ⟨hp, rfl, hpassable | ⟨_, _, _, _, _, _, _, hfile⟩⟩ := locate_occupied_cases hlinks h
    · exact ⟨hp, hpassable, Node.look_eq_directory_iff.mpr ⟨entries, locate_occupied h⟩⟩
    · exact absurd hfile (by simp)
  · rintro ⟨hp, hpassable, hsite⟩
    obtain ⟨entries, h⟩ := locate_of_passable hp hpassable hsite true
    exact ⟨_, entries, h⟩

/-! ## The same directories -/

/-- At most files have changed. -/
structure SameDirectories (fs fs' : FileSystem) : Prop where
  current : fs'.current = fs.current
  directory : ∀ l, fs'.look l = some .directory ↔ fs.look l = some .directory

namespace SameDirectories

variable {fs'' : FileSystem}

theorem refl (fs : FileSystem) : SameDirectories fs fs := ⟨rfl, fun _ => Iff.rfl⟩

theorem symm (h : SameDirectories fs fs') : SameDirectories fs' fs :=
  ⟨h.current.symm, fun l => (h.directory l).symm⟩

theorem trans (h : SameDirectories fs fs') (h' : SameDirectories fs' fs'') :
    SameDirectories fs fs'' :=
  ⟨h'.current.trans h.current, fun l => (h'.directory l).trans (h.directory l)⟩

theorem leadsOn (h : SameDirectories fs fs') : fs'.LeadsOn l name ↔ fs.LeadsOn l name := by
  unfold LeadsOn
  rw [h.directory]

theorem passable (h : SameDirectories fs fs') : fs'.Passable l names ↔ fs.Passable l names := by
  induction names generalizing l with
  | nil => exact Iff.rfl
  | cons name names ih => rw [Passable, Passable, h.leadsOn, ih]

theorem start (h : SameDirectories fs fs') (p : Path) : fs'.start p = fs.start p := by
  unfold FileSystem.start
  rw [h.current]

theorem site (h : SameDirectories fs fs') (p : Path) : fs'.site p = fs.site p := by
  unfold FileSystem.site
  rw [h.start]

theorem isDirectory (h : SameDirectories fs fs') (hlinks : fs.IsLinkFree)
    (hlinks' : fs'.IsLinkFree) (p : Path) : fs'.isDirectory p = fs.isDirectory p := by
  rw [Bool.eq_iff_iff, isDirectory_iff hlinks, isDirectory_iff hlinks', h.start, h.passable, h.site,
    h.directory]

end SameDirectories

theorem isSome_look_of_target? (h : fs.target? p = some l) : (fs.look l).isSome := by
  obtain ⟨node, hlocate⟩ := target?_eq_some_iff.mp h
  unfold look Node.look
  rw [locate_occupied hlocate]
  rfl

/-- **A path leads to something wherever the same directories are there.** -/
theorem target?_of_sameDirectories (hlinks : fs.IsLinkFree) (hlinks' : fs'.IsLinkFree)
    (hsame : SameDirectories fs fs') (h : fs.target? p = some l) (hl : (fs'.look l).isSome) :
    fs'.target? p = some l := by
  obtain ⟨node, hlocate⟩ := target?_eq_some_iff.mp h
  obtain ⟨face, hface⟩ := Option.isSome_iff_exists.mp hl
  obtain ⟨node', hget, -⟩ := Node.look_eq_some_iff.mp hface
  obtain ⟨hp, hsite, hpassable | ⟨front, name, content, hsteps, hfront, hname, hshort, hfile⟩⟩ :=
    locate_occupied_cases hlinks hlocate
  · obtain ⟨follow, hlocate'⟩ := locate_of_isWalkable hp fs' true
    rw [target?_eq_some_iff]
    refine ⟨node', ?_⟩
    have hpassable' := hsame.passable.mpr (passable_steps.mpr hpassable)
    rw [hlocate', hsame.start, descend_of_passable hpassable', after_steps, hsite]
    rw [hsite] at hget
    exact descend_nil_of_get? hget
  · -- the last name is that of a file, and in the other file system it can only be one as well
    obtain ⟨hpoint, hup⟩ := not_point_of_not_leadsOn hname
    rw [hsite, site_eq_concat hsteps hpoint hup] at hface ⊢
    obtain ⟨follow, hlocate'⟩ := locate_of_isWalkable hp fs' true
    rw [hsteps, hsame.start, descend_append (hsame.passable.mpr hfront)] at hlocate'
    have hstop := stop_descend true follow hlinks'
      (fun hleads => hname (hsame.leadsOn.mp hleads)) []
    rw [← hlocate'] at hstop
    rw [target?_eq_some_iff]
    generalize fs'.locate p true = place at hstop ⊢
    cases hstop with
    | long hlong => exact absurd hshort (Nat.not_le.mpr hlong)
    | vacant _ hfree _ _ => exact absurd (hface.symm.trans hfree) (by simp)
    | missing hfree _ => exact absurd (hface.symm.trans hfree) (by simp)
    | file _ _ _ => exact ⟨_, rfl⟩
    | blocked _ hrest => exact absurd rfl hrest

/-! ## Writing -/

/-- The text of a file name. -/
structure IsFileName (name : String) : Prop extends Path.IsName name where
  ne_up : name ≠ ".."

instance (name : String) : Decidable (IsFileName name) :=
  decidable_of_iff (name ≠ "" ∧ name ≠ "." ∧ '/' ∉ name.toList ∧ name ≠ "..")
    ⟨fun ⟨hempty, hpoint, hslash, hup⟩ => ⟨⟨hempty, hpoint, hslash⟩, hup⟩,
      fun h => ⟨h.ne_empty, h.ne_point, h.slash, h.ne_up⟩⟩

section Write

variable {directory : Path} {content : ByteArray} (hname : IsFileName name)

include hname

theorem names_join_fileName : (directory.join ⟨name⟩).names = directory.names ++ [name] := by
  unfold Path.names
  rw [Path.words_join hname.isAbsolute, hname.words, List.filter_append,
    List.filter_cons_of_pos (by simp [hname.ne_point])]
  rfl

theorem start_join_fileName (fs : FileSystem) :
    fs.start (directory.join ⟨name⟩) = fs.start directory := by
  unfold start
  rw [Path.isAbsolute_join hname.isAbsolute]

theorem site_join_fileName (fs : FileSystem) :
    fs.site (directory.join ⟨name⟩) = fs.site directory ++ [name] := by
  unfold site
  rw [start_join_fileName hname, names_join_fileName hname, Location.after_append]
  exact Location.next_of_ne hname.ne_point hname.ne_up

/-- A file name does not end in a slash, so nothing is asked for behind it. -/
theorem steps_join_fileName : steps (directory.join ⟨name⟩) = directory.words ++ [name] := by
  have hlast : ((directory.join ⟨name⟩).text.toList.getLast? == some '/') = false := by
    rw [Path.getLast?_join hname.isAbsolute hname.ne_empty]
    exact beq_false_of_ne fun h => hname.slash (List.mem_of_getLast? h)
  unfold steps
  rw [← Path.words_eq, Path.words_join hname.isAbsolute, hname.words, hlast]
  rfl

omit hname in
theorem write?_isSome_iff_locate :
    (fs.write? p content).isSome = true
      ↔ (∃ d n, fs.locate p true = .vacant d n)
        ∨ ∃ l c, fs.locate p true = .occupied l (.file c) := by
  unfold write?
  cases fs.locate p true with
  | occupied l node => cases node <;> simp
  | _ => simp

/-- **When a file can be written.** Only directories decide. -/
theorem write?_isSome_iff (hlinks : fs.IsLinkFree) :
    (fs.write? (directory.join ⟨name⟩) content).isSome = true
      ↔ IsWalkable (directory.join ⟨name⟩) ∧ fs.Passable (fs.start directory) directory.names
        ∧ fs.look (fs.site directory) = some .directory ∧ name.utf8ByteSize ≤ 255
        ∧ fs.look (fs.site directory ++ [name]) ≠ some .directory := by
  rw [write?_isSome_iff_locate]
  by_cases hp : IsWalkable (directory.join ⟨name⟩)
  swap
  · rcases locate_of_not_isWalkable hp fs true with h | h <;> simp [h, hp]
  obtain ⟨follow, hlocate⟩ := locate_of_isWalkable hp fs true
  rw [steps_join_fileName hname, start_join_fileName hname] at hlocate
  have hsite : (fs.start directory).after directory.words = fs.site directory :=
    (Location.after_filter _ _).symm
  unfold Path.names
  rw [passable_filter]
  by_cases hpassable : fs.Passable (fs.start directory) directory.words
  · rw [descend_append hpassable, hsite] at hlocate
    by_cases hleads : fs.LeadsOn (fs.site directory) name
    · obtain ⟨-, hdirectory⟩ := (hleads.resolve_left hname.ne_point).resolve_left hname.ne_up
      obtain ⟨entries, hget⟩ := Node.look_eq_directory_iff.mp hdirectory
      rw [descend_of_leadsOn hleads, Location.next_of_ne hname.ne_point hname.ne_up,
        descend_nil_of_get? hget] at hlocate
      simp [hlocate, hdirectory]
    · have hstop := stop_descend true follow hlinks hleads []
      rw [← hlocate] at hstop
      generalize fs.locate (directory.join ⟨name⟩) true = place at hstop ⊢
      cases hstop with
      | long hlong => simp [Nat.not_le.mpr hlong]
      | vacant hshort hfree _ hl => simp [hp, hpassable, hl, hshort, hfree]
      | missing hfree h =>
        have hl : fs.look (fs.site directory) ≠ some .directory := by simpa using h
        simp [hl]
      | file hshort hfile _ => simp [hp, hpassable, look_of_look_concat hfile, hshort, hfile]
      | blocked _ h => exact absurd rfl h
  · obtain ⟨front, stop, rest, hwords, hfront, hleads⟩ := exists_stop hpassable
    rw [hwords, List.append_assoc, descend_append hfront] at hlocate
    have hstop := stop_descend true follow hlinks hleads (rest ++ [name])
    rw [← List.cons_append, ← hlocate] at hstop
    generalize fs.locate (directory.join ⟨name⟩) true = place at hstop ⊢
    cases hstop with
    | long _ => simp [hpassable]
    | vacant _ _ hlast _ => exact absurd hlast (by simp)
    | missing _ _ => simp [hpassable]
    | file _ _ hlast => exact absurd hlast (by simp)
    | blocked _ _ => simp [hpassable]

/-- Whether a file can be written does not depend on what is in files. -/
theorem write?_isSome_of_sameDirectories (hlinks : fs.IsLinkFree) (hlinks' : fs'.IsLinkFree)
    (hsame : SameDirectories fs fs') (content' : ByteArray) :
    (fs'.write? (directory.join ⟨name⟩) content').isSome
      = (fs.write? (directory.join ⟨name⟩) content).isSome := by
  rw [Bool.eq_iff_iff, write?_isSome_iff hname hlinks, write?_isSome_iff hname hlinks', hsame.start,
    hsame.passable, hsame.site, hsame.directory]
  refine and_congr_right fun _ => and_congr_right fun _ => and_congr_right fun _ =>
    and_congr_right fun _ => not_congr (hsame.directory _)

end Write

theorem Puts.isLinkFree {face : Face} (h : Puts fs l face fs') (hface : ∀ target, face ≠ .link target)
    (hlinks : fs.IsLinkFree) : fs'.IsLinkFree := by
  intro l' target
  rw [h.look]
  split
  · exact fun heq => hface target (Option.some.inj heq)
  · exact hlinks l' target

theorem isLinkFree_of_write? (hlinks : fs.IsLinkFree) {content : ByteArray}
    (h : fs.write? p content = some fs') : fs'.IsLinkFree := by
  obtain ⟨l, hputs, -, -⟩ := write?_spec h
  exact hputs.isLinkFree (by simp) hlinks

theorem sameDirectories_of_write? {content : ByteArray} (h : fs.write? p content = some fs') :
    SameDirectories fs fs' := by
  obtain ⟨l, hputs, hgrows, -⟩ := write?_spec h
  refine ⟨hputs.current, fun l' => ⟨fun hl => ?_, hgrows.directory⟩⟩
  rw [hputs.look] at hl
  split at hl
  · exact absurd hl (by simp)
  · exact hl

end FileSystem

end DesignTokens
