import DesignTokens.Format.Stylesheet
import DesignTokens.Proofs.Tree.Lookup

/-!
# Declarations by section

The declarations of a stylesheet are written in one walk over the leaves, and a blank line is put in
wherever the first key of a leaf is not that of the leaf before it. In the tree, the leaves of one
top-level entry stand together, and no other entry has its key. So the blank lines stand between the
entries that have leaves, and nowhere else (`declarations_eq_sections`).

An entry without leaves is passed by without a trace: it does not change the key that the next leaf
is compared with (`declarationsAfter_sections`).
-/

namespace DesignTokens

namespace Tree

/-- The leaves of each entry of a tree, in the order of the entries. -/
def sections (tree : Tree) : List (List Leaf) :=
  tree.entries.map fun entry => entry.2.outline.leaves.map (Leaf.under entry.1)

/-- The leaves of a tree are those of its sections, one section behind the other. -/
theorem leaves_eq_flatten_sections (tree : Tree) : tree.leaves = tree.sections.flatten := by
  unfold leaves outline sections
  rw [Outline.leavesOf_eq_flatMap, Value.outlineEntries_eq_map, List.flatMap_map]
  rfl

end Tree

namespace Stylesheet

variable {space : String}

/-- Texts with a line feed between them: every text but the first has one in front of it. -/
theorem intercalate_cons_eq_flatMap (text : List Char) (texts : List (List Char)) :
    ['\n'].intercalate (text :: texts) = text ++ texts.flatMap fun t => '\n' :: t := by
  induction texts generalizing text with
  | nil => rw [List.intercalate_singleton, List.flatMap_nil, List.append_nil]
  | cons next texts ih =>
    rw [List.intercalate_cons_cons, ih, List.flatMap_cons, List.append_assoc]
    rfl

/-! ## One section -/

/-- Behind a leaf of its section, the leaves of a section follow each other without a gap. -/
theorem declarationsAfter_of_section {key : String} {leaves : List Leaf}
    (hleaves : ∀ l ∈ leaves, l.sectionKey = key) (rest : List Leaf) :
    declarationsAfter space (some key) (leaves ++ rest)
      = leaves.flatMap (declaration space) ++ declarationsAfter space (some key) rest := by
  induction leaves with
  | nil => rfl
  | cons l leaves ih =>
    have hkey : l.sectionKey = key := hleaves l List.mem_cons_self
    have hrest := ih fun m hm => hleaves m (List.mem_cons_of_mem _ hm)
    rw [List.cons_append, declarationsAfter, hkey, if_pos rfl, hrest, List.nil_append,
      List.flatMap_cons, List.append_assoc]

/-- The first section begins without a gap. -/
theorem declarationsAfter_none_section {key : String} {l : Leaf} {leaves : List Leaf}
    (hleaves : ∀ m ∈ l :: leaves, m.sectionKey = key) (rest : List Leaf) :
    declarationsAfter space none (l :: leaves ++ rest)
      = (l :: leaves).flatMap (declaration space) ++ declarationsAfter space (some key) rest := by
  have hkey : l.sectionKey = key := hleaves l List.mem_cons_self
  rw [List.cons_append, declarationsAfter, hkey,
    declarationsAfter_of_section fun m hm => hleaves m (List.mem_cons_of_mem _ hm),
    List.nil_append, List.flatMap_cons, List.append_assoc]

/-- A section behind another one begins with a blank line. -/
theorem declarationsAfter_other_section {previous key : String} (hne : previous ≠ key) {l : Leaf}
    {leaves : List Leaf} (hleaves : ∀ m ∈ l :: leaves, m.sectionKey = key) (rest : List Leaf) :
    declarationsAfter space (some previous) (l :: leaves ++ rest)
      = '\n' :: (l :: leaves).flatMap (declaration space)
          ++ declarationsAfter space (some key) rest := by
  have hkey : l.sectionKey = key := hleaves l List.mem_cons_self
  rw [List.cons_append, declarationsAfter, hkey,
    declarationsAfter_of_section fun m hm => hleaves m (List.mem_cons_of_mem _ hm), if_neg hne,
    List.flatMap_cons]
  simp only [List.append_assoc, List.cons_append, List.nil_append]

/-! ## All sections -/

/-- **Behind a section, every section that has leaves follows with a blank line**, if no two of them
have the same key. -/
theorem declarationsAfter_sections {entries : List (String × List Leaf)}
    (hleaves : ∀ entry ∈ entries, ∀ l ∈ entry.2, l.sectionKey = entry.1)
    (hnodup : (entries.map Prod.fst).Nodup) {previous : String}
    (hnew : previous ∉ entries.map Prod.fst) :
    declarationsAfter space (some previous) (entries.flatMap Prod.snd)
      = ((entries.map Prod.snd).filter (· ≠ [])).flatMap fun leaves =>
          '\n' :: leaves.flatMap (declaration space) := by
  induction entries generalizing previous with
  | nil => rfl
  | cons entry entries ih =>
    obtain ⟨key, leaves⟩ := entry
    obtain ⟨hkey, hkeys⟩ := List.nodup_cons.mp hnodup
    obtain ⟨hne, hlater⟩ := not_or.mp (List.mem_cons.not.mp hnew)
    have hsection := hleaves (key, leaves) List.mem_cons_self
    have hrest := fun e he => hleaves e (List.mem_cons_of_mem (key, leaves) he)
    cases leaves with
    | nil => exact ih hrest hkeys hlater
    | cons l leaves =>
      rw [List.flatMap_cons, declarationsAfter_other_section hne hsection, ih hrest hkeys hkey,
        List.map_cons, List.filter_cons_of_pos (by simp)]
      rfl

/-- From the beginning on, blank lines stand between sections. -/
theorem declarationsAfter_none_sections {entries : List (String × List Leaf)}
    (hleaves : ∀ entry ∈ entries, ∀ l ∈ entry.2, l.sectionKey = entry.1)
    (hnodup : (entries.map Prod.fst).Nodup) :
    declarationsAfter space none (entries.flatMap Prod.snd)
      = ['\n'].intercalate (((entries.map Prod.snd).filter (· ≠ [])).map fun leaves =>
          leaves.flatMap (declaration space)) := by
  induction entries with
  | nil => rfl
  | cons entry entries ih =>
    obtain ⟨key, leaves⟩ := entry
    obtain ⟨hkey, hkeys⟩ := List.nodup_cons.mp hnodup
    have hsection := hleaves (key, leaves) List.mem_cons_self
    have hrest := fun e he => hleaves e (List.mem_cons_of_mem (key, leaves) he)
    cases leaves with
    | nil => exact ih hrest hkeys
    | cons l leaves =>
      rw [List.flatMap_cons, declarationsAfter_none_section hsection,
        declarationsAfter_sections hrest hkeys hkey, List.map_cons,
        List.filter_cons_of_pos (by simp), List.map_cons, intercalate_cons_eq_flatMap,
        List.flatMap_map]

/--
**The declarations of a stylesheet are grouped by the entries of the tree.**

Each entry that has leaves gives one block, the entries in their order: the declarations of its
leaves, in their order and one line each. Between two blocks there is one blank line, and there is
no other. The block of declarations stands in the document between the header and the map.
-/
theorem declarations_eq_sections (tree : Tree) (hkeys : tree.keys.Nodup) (space base : String) :
    declarations space tree
        = ['\n'].intercalate ((tree.sections.filter (· ≠ [])).map fun leaves =>
            leaves.flatMap fun l =>
              '$' :: space.toList ++ '-' :: (l.joined "-").toList ++ ": ".toList
                ++ l.scalar.display.toList ++ " !default;\n".toList)
    ∧ tree.leaves = tree.sections.flatten
    ∧ (document tree space base).toList
        = header.toList ++ "\n\n".toList ++ declarations space tree
          ++ mapText tree space base ++ '\n' :: accessor space base := by
  have hcolon : ": ".toList = [':', ' '] := by decide
  have hline : (fun l : Leaf => '$' :: space.toList ++ '-' :: (l.joined "-").toList ++ ": ".toList
      ++ l.scalar.display.toList ++ " !default;\n".toList) = declaration space := by
    funext l
    unfold declaration stem
    rw [hcolon]
    simp only [List.append_assoc, List.cons_append, List.nil_append]
  -- the sections with the keys that no two of them share
  have hentries : ∃ entries : List (String × List Leaf), entries.map Prod.fst = tree.keys
      ∧ entries.map Prod.snd = tree.sections
      ∧ ∀ entry ∈ entries, ∀ l ∈ entry.2, l.sectionKey = entry.1 := by
    refine ⟨tree.entries.map fun entry =>
      (entry.1, entry.2.outline.leaves.map (Leaf.under entry.1)), ?_, ?_, ?_⟩
    · rw [List.map_map]; rfl
    · rw [List.map_map]; rfl
    · intro entry hentry l hl
      obtain ⟨e, -, rfl⟩ := List.mem_map.mp hentry
      obtain ⟨m, -, rfl⟩ := List.mem_map.mp hl
      rfl
  obtain ⟨entries, hfst, hsnd, hsection⟩ := hentries
  refine ⟨?_, tree.leaves_eq_flatten_sections, String.toList_ofList⟩
  rw [← hfst] at hkeys
  rw [hline, ← hsnd, ← declarationsAfter_none_sections hsection hkeys, declarations,
    tree.leaves_eq_flatten_sections, ← hsnd]
  rfl

/-- A tree with an empty key, with entries that have no leaves, and with keys that begin with other
keys. -/
def gapTree : Tree :=
  ⟨[("", .list [.text "1px", .text "2px"]), ("a", .group []), ("a-b", .text "3px"),
    ("b", .group [("x", .list [])]), ("a-b-c", .group [("d", .list []), ("e", .text "4px")])]⟩

theorem declarations_eq_sections_gapTree :
    gapTree.keys.Nodup
    ∧ declarations "ns" gapTree
      = ("$ns--0: 1px !default;\n$ns--1: 2px !default;\n\n$ns-a-b: 3px !default;\n\n"
          ++ "$ns-a-b-c-e: 4px !default;\n").toList := by
  have hkeys : gapTree.keys.Nodup := by decide
  refine ⟨hkeys, ?_⟩
  rw [(declarations_eq_sections gapTree hkeys "ns" "tokens").1]
  decide +kernel

end Stylesheet

end DesignTokens
