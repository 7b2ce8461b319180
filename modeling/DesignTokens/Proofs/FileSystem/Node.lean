import DesignTokens.FileSystem
import DesignTokens.Proofs.Table

/-!
# What stands at the locations of a tree

Seen from the outside, a tree of directories gives each location a face: a file with its content, a
directory, a link with its target, or nothing. Putting a file or an empty directory at a location
that has nothing below it changes the face of that location and of no other.

* `get?_append`: the names of a location are followed one after the other;
* `look_set`: the faces after a change.
-/

namespace DesignTokens

/-- A node without what is below it. -/
inductive Face where
  | file (content : ByteArray)
  | directory
  | link (target : Path)

instance : (face? : Option Face) → Decidable (face? = some .directory)
  | some .directory => isTrue rfl
  | some (.file _) => isFalse (fun h => nomatch h)
  | some (.link _) => isFalse (fun h => nomatch h)
  | none => isFalse (fun h => nomatch h)

namespace Node

def face : Node → Face
  | file content => .file content
  | directory _ => .directory
  | link target => .link target

/-- The face of a location. -/
def look (node : Node) (location : Location) : Option Face :=
  (node.get? location).map face

variable {node new : Node} {location : Location}

@[simp] theorem look_nil (node : Node) : node.look [] = some node.face := by
  unfold look
  rw [get?]
  rfl

theorem look_eq_some_iff {f : Face} :
    node.look location = some f ↔ ∃ inner, node.get? location = some inner ∧ inner.face = f :=
  Option.map_eq_some_iff

theorem face_eq_directory_iff : node.face = .directory ↔ ∃ entries, node = .directory entries := by
  cases node <;> simp [face]

theorem face_eq_file_iff {content : ByteArray} : node.face = .file content ↔ node = .file content := by
  cases node <;> simp [face]

theorem face_eq_link_iff {target : Path} : node.face = .link target ↔ node = .link target := by
  cases node <;> simp [face]

theorem get?_cons (entries : List (String × Node)) (name : String) (rest : Location) :
    (directory entries).get? (name :: rest)
      = (Table.get? entries name).bind fun node => node.get? rest := by
  rw [get?]

theorem look_cons (entries : List (String × Node)) (name : String) (rest : Location) :
    (directory entries).look (name :: rest)
      = (Table.get? entries name).bind fun node => node.look rest := by
  unfold look
  rw [get?_cons, Option.map_bind]
  rfl

/-- There is something below a node only if it is a directory. -/
theorem get?_cons_eq_none (h : node.face ≠ .directory) (name : String) (rest : Location) :
    node.get? (name :: rest) = none := by
  cases node with
  | directory entries => exact absurd rfl h
  | file content => rw [get?]; simp
  | link target => rw [get?]; simp

theorem get?_append (node : Node) (front back : Location) :
    node.get? (front ++ back) = (node.get? front).bind fun inner => inner.get? back := by
  induction front generalizing node with
  | nil =>
    rw [List.nil_append, get?]
    rfl
  | cons name front ih =>
    by_cases hface : node.face = .directory
    · obtain ⟨entries, rfl⟩ := face_eq_directory_iff.mp hface
      rw [List.cons_append, get?_cons, get?_cons]
      cases Table.get? entries name with
      | none => rfl
      | some inner => exact ih inner
    · rw [List.cons_append, get?_cons_eq_none hface, get?_cons_eq_none hface]
      rfl

theorem look_eq_directory_iff :
    node.look location = some .directory
      ↔ ∃ entries, node.get? location = some (.directory entries) := by
  simp only [look_eq_some_iff, face_eq_directory_iff]
  constructor
  · rintro ⟨inner, hinner, entries, rfl⟩
    exact ⟨entries, hinner⟩
  · rintro ⟨entries, h⟩
    exact ⟨_, h, entries, rfl⟩

theorem look_eq_file_iff {content : ByteArray} :
    node.look location = some (.file content) ↔ node.get? location = some (.file content) := by
  simp [look_eq_some_iff, face_eq_file_iff]

theorem look_eq_link_iff {target : Path} :
    node.look location = some (.link target) ↔ node.get? location = some (.link target) := by
  simp [look_eq_some_iff, face_eq_link_iff]

theorem look_eq_none_iff : node.look location = none ↔ node.get? location = none :=
  Option.map_eq_none_iff

/-- Below a location that is no directory there is nothing. -/
theorem look_append_eq_none (h : node.look location ≠ some .directory) (name : String)
    (rest : Location) : node.look (location ++ name :: rest) = none := by
  rw [look_eq_none_iff, get?_append]
  cases hget : node.get? location with
  | none => rfl
  | some inner =>
    refine get?_cons_eq_none (fun hface => h ?_) name rest
    unfold look
    rw [hget, Option.map_some, hface]

/-! ## Putting a node at a location -/

/-- The directory that the last name of a location is in is there. -/
def HasPlace (node : Node) (location : Location) : Prop :=
  ∀ front name, location = front ++ [name] → node.look front = some .directory

theorem hasPlace_append (h : node.look location = some .directory) (name : String) :
    node.HasPlace (location ++ [name]) := by
  intro front last hsplit
  obtain ⟨rfl, -⟩ := List.append_inj' hsplit rfl
  exact h

theorem hasPlace_of_isSome (h : (node.look location).isSome) : node.HasPlace location := by
  rintro front name rfl
  by_cases hface : node.look front = some .directory
  · exact hface
  · rw [look_append_eq_none hface] at h
    exact absurd h (by simp)

/-- A place behind a name is a place in the directory of that name. -/
theorem HasPlace.cons_cons {first second : String} {rest : Location}
    (h : node.HasPlace (first :: second :: rest)) :
    ∃ entries inner, node = .directory entries ∧ Table.get? entries first = some inner
      ∧ inner.HasPlace (second :: rest) := by
  have hlast := List.dropLast_concat_getLast (List.cons_ne_nil second rest)
  have hfront := h (first :: (second :: rest).dropLast) _ (by rw [List.cons_append, hlast])
  have hface : node.face = .directory := by
    by_cases hface : node.face = .directory
    · exact hface
    · rw [look, get?_cons_eq_none hface] at hfront
      exact absurd hfront (by simp)
  obtain ⟨entries, rfl⟩ := face_eq_directory_iff.mp hface
  rw [look_cons] at hfront
  obtain ⟨inner, hinner, -⟩ := Option.bind_eq_some_iff.mp hfront
  refine ⟨entries, inner, rfl, hinner, fun front name hsplit => ?_⟩
  have hinside := h (first :: front) name (by rw [hsplit, List.cons_append])
  rw [look_cons, hinner] at hinside
  exact hinside

/-- **A leaf is put at a location that has nothing below it, and nothing else changes.** -/
theorem look_set (hplace : node.HasPlace location)
    (hnew : ∀ name rest, new.look (name :: rest) = none)
    (hold : ∀ name rest, node.look (location ++ name :: rest) = none) (l : Location) :
    (node.set location new).look l = if l = location then some new.face else node.look l := by
  induction location generalizing node l with
  | nil =>
    rw [set]
    cases l with
    | nil => rw [if_pos rfl, look_nil]
    | cons name rest => rw [if_neg (List.cons_ne_nil name rest), hnew]; exact (hold name rest).symm
  | cons first location ih =>
    cases location with
    | nil =>
      have hroot := hplace [] first rfl
      obtain ⟨entries, hnode⟩ := look_eq_directory_iff.mp hroot
      rw [get?] at hnode
      obtain rfl := Option.some.inj hnode
      rw [set]
      cases l with
      | nil => rw [if_neg (List.cons_ne_nil first []).symm, look_nil, look_nil]; rfl
      | cons name rest =>
        rw [look_cons, look_cons, Table.get?_insert]
        by_cases hname : name = first
        · subst hname
          rw [if_pos rfl]
          cases rest with
          | nil => rw [if_pos rfl]; exact look_nil new
          | cons second rest =>
            have hbelow := hold second rest
            rw [List.singleton_append, look_cons] at hbelow
            rw [if_neg (by simp), hbelow]
            exact hnew second rest
        · rw [if_neg hname, if_neg (by simp [hname])]
    | cons second location =>
      obtain ⟨entries, inner, rfl, hinner, hplace'⟩ := hplace.cons_cons
      have hset : (directory entries).set (first :: second :: location) new
          = .directory (Table.insert entries first (inner.set (second :: location) new)) := by
        rw [set, hinner]
        simp
      have hold' : ∀ name rest, inner.look (second :: location ++ name :: rest) = none := by
        intro name rest
        have hbelow := hold name rest
        rw [List.cons_append, look_cons, hinner] at hbelow
        exact hbelow
      rw [hset]
      cases l with
      | nil => rw [if_neg (by simp), look_nil, look_nil]; rfl
      | cons name rest =>
        rw [look_cons, look_cons, Table.get?_insert]
        by_cases hname : name = first
        · subst hname
          rw [if_pos rfl, hinner, Option.bind_some, Option.bind_some, ih hplace' hold']
          simp
        · rw [if_neg hname, if_neg (by simp [hname])]

/-- Putting at a location what is there changes nothing. -/
theorem set_of_get? {node new : Node} {l : Location} (h : node.get? l = some new) :
    node.set l new = node := by
  induction l generalizing node with
  | nil =>
    rw [get?] at h
    rw [set, Option.some.inj h]
  | cons name rest ih =>
    by_cases hface : node.face = .directory
    · obtain ⟨entries, rfl⟩ := face_eq_directory_iff.mp hface
      rw [get?_cons] at h
      obtain ⟨inner, hinner, hrest⟩ := Option.bind_eq_some_iff.mp h
      cases rest with
      | nil =>
        rw [get?] at hrest
        rw [set, ← Option.some.inj hrest, Table.insert_of_get? hinner]
      | cons second rest =>
        rw [set, hinner]
        · dsimp only
          rw [ih hrest, Table.insert_of_get? hinner]
        · simp
    · rw [get?_cons_eq_none hface] at h
      exact absurd h (by simp)

end Node

end DesignTokens
