import DesignTokens.Proofs.FileSystem.LinkFree
import Mathlib.Data.List.Nodup

/-!
# The files of a tree

`Node.files` lists the regular files below a node with the names that lead to them. In a tree whose
directories have distinct names (`Node.IsProper`) nothing is left out, nothing is listed that is not
there, and nothing is listed twice.

* `mem_files_iff`: a file is listed under some names exactly if they lead to it;
* `nodup_files`: no two files are listed under the same names;
* `IsProper.mem_files_iff_content?`: the files of a part of the tree are files of the tree.
-/

namespace DesignTokens.Node

open FileSystem (IsFileName)

mutual

/-- Whether the names in each directory are distinct file names. -/
def IsProper : Node → Prop
  | file _ => True
  | link _ => True
  | directory entries => (Table.keys entries).Nodup ∧ AreProper entries

/-- Whether the entries of a directory have file names and are such themselves. -/
def AreProper : List (String × Node) → Prop
  | [] => True
  | (name, node) :: rest => IsFileName name ∧ node.IsProper ∧ AreProper rest

end

mutual

/-- Being proper is decided entry by entry. -/
def decIsProper : (node : Node) → Decidable node.IsProper
  | .file _ => isTrue trivial
  | .link _ => isTrue trivial
  | .directory entries => @instDecidableAnd _ _ inferInstance (decAreProper entries)

/-- The entries of a directory are decided one after the other. -/
def decAreProper : (entries : List (String × Node)) → Decidable (AreProper entries)
  | [] => isTrue trivial
  | (_, node) :: rest =>
    @instDecidableAnd _ _ inferInstance
      (@instDecidableAnd _ _ (decIsProper node) (decAreProper rest))

end

instance : DecidablePred IsProper := decIsProper

variable {node : Node} {entries : List (String × Node)} {content : ByteArray}

theorem areProper_iff :
    AreProper entries ↔ ∀ entry ∈ entries, IsFileName entry.1 ∧ entry.2.IsProper := by
  induction entries with
  | nil => exact iff_of_true trivial fun _ hentry => absurd hentry List.not_mem_nil
  | cons entry rest ih => rw [AreProper, ih, ← and_assoc, List.forall_mem_cons]

/-- What stands at a location of such a tree is such itself, and the names that lead there are file
names. -/
theorem IsProper.of_get? {location : Location} {inner : Node} (h : node.IsProper)
    (hget : node.get? location = some inner) :
    inner.IsProper ∧ ∀ name ∈ location, IsFileName name := by
  induction location generalizing node with
  | nil =>
    rw [get?] at hget
    exact ⟨Option.some.inj hget ▸ h, fun _ hname => absurd hname List.not_mem_nil⟩
  | cons name rest ih =>
    by_cases hface : node.face = .directory
    · obtain ⟨entries, rfl⟩ := face_eq_directory_iff.mp hface
      rw [get?_cons] at hget
      obtain ⟨next, hnext, hrest⟩ := Option.bind_eq_some_iff.mp hget
      have hentry : (name, next) ∈ entries := (Table.get?_eq_some_iff h.1).mp hnext
      obtain ⟨hname, hproper⟩ := areProper_iff.mp h.2 _ hentry
      obtain ⟨hinner, hnames⟩ := ih hproper hrest
      exact ⟨hinner, List.forall_mem_cons.mpr ⟨hname, hnames⟩⟩
    · rw [get?_cons_eq_none hface] at hget
      exact absurd hget (by simp)

theorem filesOf_eq_flatMap (entries : List (String × Node)) :
    filesOf entries
      = entries.flatMap fun entry => entry.2.files.map fun f => (entry.1 :: f.1, f.2) := by
  induction entries with
  | nil => rfl
  | cons entry rest ih => rw [filesOf, ih, List.flatMap_cons]

/-- A file in a directory is a file of one of its entries. -/
theorem mem_filesOf_iff {names : Location} :
    (names, content) ∈ filesOf entries
      ↔ ∃ entry ∈ entries, ∃ rest, names = entry.1 :: rest ∧ (rest, content) ∈ entry.2.files := by
  rw [filesOf_eq_flatMap, List.mem_flatMap]
  refine exists_congr fun entry => and_congr_right fun _ => ?_
  rw [List.mem_map]
  constructor
  · rintro ⟨⟨rest, content⟩, hf, heq⟩
    obtain ⟨rfl, rfl⟩ := Prod.mk.inj heq
    exact ⟨rest, rfl, hf⟩
  · rintro ⟨rest, rfl, hf⟩
    exact ⟨(rest, content), hf, rfl⟩

/-- **A file is listed under some names exactly if they lead to it.** -/
theorem mem_files_iff {names : Location} (h : node.IsProper) :
    (names, content) ∈ node.files ↔ node.look names = some (.file content) := by
  induction names generalizing node with
  | nil =>
    rw [look_nil, Option.some.injEq, face_eq_file_iff]
    cases node with
    | file c => simp [files, eq_comm]
    | link target => simp [files]
    | directory entries =>
      rw [files, mem_filesOf_iff]
      refine iff_of_false ?_ (by simp)
      rintro ⟨_, _, _, hnil, _⟩
      exact absurd hnil.symm (List.cons_ne_nil _ _)
  | cons name rest ih =>
    cases node with
    | file c =>
      rw [look, get?_cons_eq_none (by simp [face])]
      exact iff_of_false (by simp [files]) (by simp)
    | link target =>
      rw [look, get?_cons_eq_none (by simp [face])]
      exact iff_of_false (by simp [files]) (by simp)
    | directory entries =>
      rw [files, mem_filesOf_iff, look_cons, Option.bind_eq_some_iff]
      constructor
      · rintro ⟨⟨k, inner⟩, hentry, rest, heq, hf⟩
        obtain ⟨rfl, rfl⟩ := List.cons.inj heq
        exact ⟨inner, (Table.get?_eq_some_iff h.1).mpr hentry,
          (ih (areProper_iff.mp h.2 _ hentry).2).mp hf⟩
      · rintro ⟨inner, hinner, hlook⟩
        have hentry := (Table.get?_eq_some_iff h.1).mp hinner
        exact ⟨(name, inner), hentry, rest, rfl, (ih (areProper_iff.mp h.2 _ hentry).2).mpr hlook⟩

mutual

/-- **No two files are listed under the same names.** -/
theorem nodup_files : ∀ node : Node, node.IsProper → (node.files.map Prod.fst).Nodup
  | .file _, _ => List.nodup_singleton _
  | .link _, _ => List.nodup_nil
  | .directory entries, h => nodup_filesOf entries h.1 h.2

theorem nodup_filesOf : ∀ entries : List (String × Node), (Table.keys entries).Nodup →
    AreProper entries → ((filesOf entries).map Prod.fst).Nodup
  | [], _, _ => List.nodup_nil
  | (name, node) :: rest, hkeys, h => by
    obtain ⟨hname, hrest⟩ := List.nodup_cons.mp hkeys
    have hnode : ((node.files.map fun f => (name :: f.1, f.2)).map Prod.fst).Nodup := by
      have hbelow := (nodup_files node h.2.1).map (List.cons_injective (a := name))
      rwa [List.map_map] at hbelow ⊢
    rw [filesOf, List.map_append, List.nodup_append]
    refine ⟨hnode, nodup_filesOf rest hrest h.2.2, ?_⟩
    -- names below one entry do not begin with the name of another
    rintro names hfirst _ hlater rfl
    obtain ⟨_, hf, rfl⟩ := List.mem_map.mp hfirst
    obtain ⟨f, -, rfl⟩ := List.mem_map.mp hf
    obtain ⟨⟨_, content⟩, hg, rfl⟩ := List.mem_map.mp hlater
    obtain ⟨entry, hentry, _, heq, -⟩ := mem_filesOf_iff.mp hg
    exact hname (List.mem_map.mpr ⟨entry, hentry, (List.cons.inj heq).1.symm⟩)

end

/-! ## Files at locations of a file system -/

namespace IsProper

variable {fs : FileSystem} {location names : Location}

/-- The files of a node are those of the whole tree at locations behind its own. -/
theorem mem_files_iff_content? (hroot : fs.root.IsProper)
    (hnode : fs.root.get? location = some node) :
    (names, content) ∈ node.files ↔ fs.content? (location ++ names) = some content := by
  have hlook : fs.look (location ++ names) = node.look names := by
    unfold FileSystem.look look
    rw [get?_append, hnode]
    rfl
  rw [mem_files_iff (hroot.of_get? hnode).1]
  unfold FileSystem.content?
  rw [hlook]
  cases node.look names with
  | none => simp
  | some face => cases face <;> simp

theorem mem_root_files_iff (hroot : fs.root.IsProper) :
    (location, content) ∈ fs.root.files ↔ fs.content? location = some content := by
  have hself : fs.root.get? [] = some fs.root := by rw [get?]
  exact hroot.mem_files_iff_content? hself

/-- The names that lead to a file are file names. -/
theorem isFileName_of_content? (hroot : fs.root.IsProper) (h : (fs.content? location).isSome) :
    ∀ name ∈ location, IsFileName name := by
  obtain ⟨content, hcontent⟩ := Option.isSome_iff_exists.mp h
  have hfile := (mem_files_iff hroot).mp (hroot.mem_root_files_iff.mpr hcontent)
  obtain ⟨node, hnode, -⟩ := look_eq_some_iff.mp hfile
  exact (hroot.of_get? hnode).2

theorem isName_of_content? (hroot : fs.root.IsProper)
    (h : (fs.content? (location ++ names)).isSome) : ∀ s ∈ names, Path.IsName s :=
  fun s hs => (hroot.isFileName_of_content? h s (List.mem_append_right _ hs)).toIsName

end IsProper

end DesignTokens.Node
