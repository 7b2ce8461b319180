import DesignTokens.Proofs.Stylesheet.MapLiteral

/-!
# A stylesheet as a list of statements

The document of a tree is the text of its `sheet`: a declaration for each leaf, the assignment of
the map, and the definition of the function that reads it. The declarations and the map are written
by two walks over the tree, and these agree: read from the top, the references of the map are the
declared variables, one for one.

* `document_eq_text_sheet`: the statements are what is written;
* `declared_sheet`: the declared variables are those of the leaves;
* `references_rows_mapItems`: so are the references of the map.
-/

namespace DesignTokens.Stylesheet

/-- A statement of a stylesheet. The names of variables have their dollar sign. -/
inductive Statement where
  | comment (line : List Char)
  | blank
  /-- Set a variable, unless it is set. -/
  | declare (name value : List Char)
  /-- Set a variable to a map. -/
  | assign (name : List Char) (items : List (String × MapItem))
  /-- Define a function that follows keys through the map in a variable. -/
  | define (function map : List Char)

namespace Statement

/-- A statement with its line break. -/
def text : Statement → List Char
  | comment line => line ++ ['\n']
  | blank => ['\n']
  | declare name value => name ++ ':' :: ' ' :: value ++ " !default;\n".toList
  | assign name items =>
    name ++ ": (\n".toList ++ Row.textOf (MapItem.rowsOf 1 items) ++ ");\n".toList
  | define function map =>
    "@function ".toList ++ function ++ "($keys...) \x7b\n".toList
      ++ indent 1 ++ "$map: ".toList ++ map ++ ";\n".toList
      ++ indent 1 ++ "@each $key in $keys \x7b\n".toList
      ++ indent 2 ++ "$map: map-get($map, $key);\n".toList
      ++ indent 1 ++ "\x7d\n".toList
      ++ indent 1 ++ "@return $map;\n".toList
      ++ "\x7d\n".toList

/-- The variable that a statement declares. -/
def declared? : Statement → Option (List Char)
  | declare name _ => some name
  | _ => none

/-- The variable that a statement sets. -/
def assigned? : Statement → Option (List Char)
  | declare name _ => some name
  | assign name _ => some name
  | _ => none

/-- The map that a statement assigns. -/
def items? : Statement → Option (List (String × MapItem))
  | assign _ items => some items
  | _ => none

end Statement

/-- The variable of a leaf. -/
def leafName (space : String) (l : Leaf) : List Char :=
  stem space ++ pathText l.path

/-- The variable of the map. -/
def mapName (space base : String) : List Char :=
  '$' :: (mapVariable space base).toList

/-- The blank line in front of a leaf that begins a section. -/
def sectionGap (previous : Option String) (l : Leaf) : List Statement :=
  match previous with
  | some s => if s = l.sectionKey then [] else [.blank]
  | none => []

/-- The declarations of leaves, with a blank line where a section ends. -/
def declarationsFrom (space : String) (previous : Option String) : List Leaf → List Statement
  | [] => []
  | l :: rest =>
    sectionGap previous l ++ .declare (leafName space l) l.scalar.display.toList
      :: declarationsFrom space (some l.sectionKey) rest

/-- The statements of the stylesheet of a tree. -/
def sheet (tree : Tree) (space base : String) : List Statement :=
  [.comment header.toList, .blank] ++ declarationsFrom space none tree.leaves
    ++ [.assign (mapName space base) (mapItems space tree), .blank,
      .define (space.toList ++ "-token".toList) (mapName space base)]

/-! ## The statements are what is written -/

theorem text_declarationsFrom (space : String) (previous : Option String) (leaves : List Leaf) :
    (declarationsFrom space previous leaves).flatMap Statement.text
      = declarationsAfter space previous leaves := by
  induction leaves generalizing previous with
  | nil => rfl
  | cons l rest ih =>
    have hgap : declarationsAfter space previous (l :: rest)
        = (sectionGap previous l).flatMap Statement.text ++ declaration space l
          ++ declarationsAfter space (some l.sectionKey) rest := by
      cases previous with
      | none => rfl
      | some s =>
        unfold sectionGap
        dsimp only
        by_cases hs : s = l.sectionKey
        · rw [declarationsAfter, if_pos hs, if_pos hs]; rfl
        · rw [declarationsAfter, if_neg hs, if_neg hs]; rfl
    rw [declarationsFrom, List.flatMap_append, List.flatMap_cons, ih, hgap, List.append_assoc]
    rfl

theorem textOf_rowsOf_mapItems (space : String) (tree : Tree) :
    Row.textOf (MapItem.rowsOf 1 (mapItems space tree))
      = joinEntries (entryTexts 1 (stem space) tree.outline) := by
  have hrows := textOf_rowsOf 1 (stem space) tree.outline [] rfl
  rw [List.append_nil, Row.textOf, List.append_nil] at hrows
  exact hrows

theorem text_assign (tree : Tree) (space base : String) :
    (Statement.assign (mapName space base) (mapItems space tree)).text
      = mapText tree space base := by
  unfold Statement.text mapText mapName
  dsimp only
  rw [textOf_rowsOf_mapItems]

theorem text_define (space base : String) :
    (Statement.define (space.toList ++ "-token".toList) (mapName space base)).text
      = accessor space base := by
  have hname : "-token($keys...) \x7b\n".toList
      = "-token".toList ++ "($keys...) \x7b\n".toList := by decide +kernel
  have hmap : "$map: $".toList = "$map: ".toList ++ ['$'] := by decide +kernel
  unfold Statement.text accessor mapName
  simp only [hname, hmap, List.append_assoc, List.cons_append, List.nil_append]

/-- **The document of a tree is the text of its statements.** -/
theorem document_eq_text_sheet (tree : Tree) (space base : String) :
    (document tree space base).toList = (sheet tree space base).flatMap Statement.text := by
  have hhead : [Statement.comment header.toList, .blank].flatMap Statement.text
      = header.toList ++ "\n\n".toList := by
    show header.toList ++ ['\n'] ++ (['\n'] ++ []) = header.toList ++ ['\n', '\n']
    rw [List.append_assoc]
    rfl
  unfold document sheet declarations
  rw [String.toList_ofList, List.flatMap_append, List.flatMap_append, text_declarationsFrom, hhead,
    List.flatMap_cons, List.flatMap_cons, List.flatMap_cons, text_assign, text_define]
  simp only [List.append_assoc, List.flatMap_nil, List.append_nil]
  rfl

/-! ## The two walks agree -/

theorem sectionGap_cases (previous : Option String) (l : Leaf) :
    sectionGap previous l = [] ∨ sectionGap previous l = [.blank] := by
  unfold sectionGap
  cases previous with
  | none => exact .inl rfl
  | some s =>
    dsimp only
    by_cases hs : s = l.sectionKey
    · rw [if_pos hs]; exact .inl rfl
    · rw [if_neg hs]; exact .inr rfl

theorem filterMap_declarationsFrom {α : Type} {f : Statement → Option α} (hblank : f .blank = none)
    (space : String) (previous : Option String) (leaves : List Leaf) :
    (declarationsFrom space previous leaves).filterMap f
      = leaves.filterMap fun l => f (.declare (leafName space l) l.scalar.display.toList) := by
  induction leaves generalizing previous with
  | nil => rfl
  | cons l rest ih =>
    have hgap : (sectionGap previous l).filterMap f = [] := by
      rcases sectionGap_cases previous l with h | h
      · rw [h]; rfl
      · rw [h, List.filterMap_cons_none hblank]; rfl
    rw [declarationsFrom, List.filterMap_append, hgap, List.nil_append, List.filterMap_cons,
      List.filterMap_cons, ih]

/-- What the leaves, the map and the function of a sheet contribute. -/
theorem filterMap_sheet {α : Type} {f : Statement → Option α}
    (hcomment : ∀ line, f (.comment line) = none) (hblank : f .blank = none)
    (tree : Tree) (space base : String) :
    (sheet tree space base).filterMap f
      = tree.leaves.filterMap (fun l => f (.declare (leafName space l) l.scalar.display.toList))
        ++ [.assign (mapName space base) (mapItems space tree),
            .define (space.toList ++ "-token".toList) (mapName space base)].filterMap f := by
  have hhead : [Statement.comment header.toList, .blank].filterMap f = [] := by
    rw [List.filterMap_cons_none (hcomment _), List.filterMap_cons_none hblank]
    rfl
  unfold sheet
  rw [List.filterMap_append, List.filterMap_append, filterMap_declarationsFrom hblank, hhead,
    List.nil_append]
  simp only [List.filterMap_cons, hblank]

/-- The declared variables are those of the leaves. -/
theorem declared_sheet (tree : Tree) (space base : String) :
    (sheet tree space base).filterMap Statement.declared? = tree.leaves.map (leafName space) := by
  rw [filterMap_sheet (fun _ => rfl) rfl]
  show tree.leaves.filterMap (fun l => some (leafName space l)) ++ [] = _
  rw [List.append_nil, List.filterMap_eq_map']

/-- One map is assigned, which is that of the tree. -/
theorem items_sheet (tree : Tree) (space base : String) :
    (sheet tree space base).filterMap Statement.items? = [mapItems space tree] := by
  have hnone : tree.leaves.filterMap
      (fun l => (Statement.declare (leafName space l) l.scalar.display.toList).items?) = [] :=
    List.filterMap_eq_nil_iff.mpr fun _ _ => rfl
  rw [filterMap_sheet (fun _ => rfl) rfl, hnone]
  rfl

/-- The row of the reference to the variable of a leaf. -/
def leafRow (space : String) (l : Leaf) : Row :=
  .reference l.path.length (l.path.getLastD "") (leafName space l)

/-- The row of a node is a reference exactly if the node is a leaf. -/
theorem filter_isReference_nodeRow (space : String) (nodes : List TreeNode) :
    (nodes.map (nodeRow 0 (stem space))).filter Row.isReference
      = (nodes.filterMap TreeNode.leaf?).map (leafRow space) := by
  induction nodes with
  | nil => rfl
  | cons n nodes ih =>
    obtain ⟨path, value⟩ := n
    rw [List.map_cons, List.filterMap_cons]
    match value with
    | .leaf s =>
      rw [List.filter_cons_of_pos rfl, ih]
      show Row.reference (0 + path.length) _ _ :: _ = leafRow space ⟨path, s⟩ :: _
      rw [Nat.zero_add]
      rfl
    | .group [] => exact ih
    | .list [] => exact ih
    | .group (_ :: _) => exact ih
    | .list (_ :: _) => exact ih

theorem entries_rows_mapItems (tree : Tree) (space : String) :
    (MapItem.rowsOf 1 (mapItems space tree)).filter Row.isEntry
      = tree.nodes.map (nodeRow 0 (stem space)) :=
  entries_rowsOf_entries 0 (stem space) tree.entries

/-- The references of the map are those of the leaves. -/
theorem references_rows_mapItems (tree : Tree) (space : String) :
    (MapItem.rowsOf 1 (mapItems space tree)).filter Row.isReference
      = tree.leaves.map (leafRow space) := by
  rw [Tree.leaves_eq, ← filter_isReference_nodeRow, ← entries_rows_mapItems, List.filter_filter]
  refine List.filter_congr fun row _ => ?_
  cases row <;> rfl

theorem name?_leafRows (space : String) {rows : List Row} {leaves : List Leaf}
    (h : rows.filter Row.isReference = leaves.map (leafRow space)) :
    rows.filterMap Row.name? = leaves.map (leafName space) := by
  have hnames : rows.filterMap Row.name? = (rows.filter Row.isReference).filterMap Row.name? := by
    rw [List.filterMap_filter]
    exact congrArg (fun f => rows.filterMap f) (funext fun row => by cases row <;> rfl)
  rw [hnames, h, List.filterMap_map]
  show leaves.filterMap (fun l => some (leafName space l)) = _
  rw [List.filterMap_eq_map']

/-- The variable of a leaf is the path with dashes, behind the name of the design system. -/
theorem leafName_eq (space : String) (l : Leaf) :
    leafName space l = '$' :: space.toList ++ '-' :: (l.joined "-").toList := by
  show ('$' :: space.toList ++ ['-']) ++ _ = _
  rw [List.append_assoc]
  rfl

/-- How the reference of a leaf is written. -/
theorem text_leafRow (space : String) (l : Leaf) :
    (leafRow space l).text
      = List.replicate (4 * l.path.length) ' ' ++ '\'' :: (l.path.getLastD "").toList
          ++ "': $".toList ++ space.toList ++ '-' :: (l.joined "-").toList := by
  have hmarks : "': $".toList = ['\'', ':', ' ', '$'] := by decide +kernel
  show mapKey l.path.length (l.path.getLastD "") ++ leafName space l = _
  rw [leafName_eq, hmarks]
  unfold mapKey indent
  simp only [List.append_assoc, List.cons_append, List.nil_append]

/-- How a group or a list without entries is written. -/
theorem text_nodeRow_of_isHollow (stem : List Char) {n : TreeNode} (h : n.isHollow = true) :
    (nodeRow 0 stem n).text
      = List.replicate (4 * n.path.length) ' ' ++ '\'' :: n.key.toList ++ "': ()".toList := by
  have hmarks : "': ()".toList = ['\'', ':', ' ', '(', ')'] := by decide +kernel
  have hrow : nodeRow 0 stem n = .hollow n.path.length n.key := by
    unfold TreeNode.isHollow at h
    unfold nodeRow
    rw [Nat.zero_add]
    split at h
    · rename_i hv; rw [hv]
    · rename_i hv; rw [hv]
    · exact absurd h Bool.false_ne_true
  rw [hrow, hmarks]
  unfold Row.text mapKey indent
  simp only [List.append_assoc, List.cons_append, List.nil_append]

theorem leaf?_of_isHollow {n : TreeNode} (h : n.isHollow = true) : n.leaf? = none := by
  unfold TreeNode.isHollow at h
  unfold TreeNode.leaf?
  split at h
  · rename_i hv; rw [hv]; rfl
  · rename_i hv; rw [hv]; rfl
  · exact absurd h Bool.false_ne_true

/--
**The map refers to the declared variables, one for one and in order.**

The document is the text of its statements, one of which assigns a map. The references in the map,
from the top, are the variables declared, from the top; the reference of a leaf stands at four
spaces for each key of its path and under the last of these keys. Every node of the tree begins a
row of the map at its level, a group or a list without entries has an empty map there, and it is no
leaf, so that nothing is declared for it.
-/
theorem references_eq_declarations (tree : Tree) (space base : String) :
    (document tree space base).toList = (sheet tree space base).flatMap Statement.text
    ∧ (sheet tree space base).filterMap Statement.items? = [mapItems space tree]
    ∧ (sheet tree space base).filterMap Statement.declared?
        = tree.leaves.map (fun l => '$' :: space.toList ++ '-' :: (l.joined "-").toList)
    ∧ (MapItem.rowsOf 1 (mapItems space tree)).filterMap Row.name?
        = (sheet tree space base).filterMap Statement.declared?
    ∧ ((MapItem.rowsOf 1 (mapItems space tree)).filter Row.isReference).map Row.text
        = tree.leaves.map (fun l =>
            List.replicate (4 * l.path.length) ' ' ++ '\'' :: (l.path.getLastD "").toList
              ++ "': $".toList ++ space.toList ++ '-' :: (l.joined "-").toList)
    ∧ (MapItem.rowsOf 1 (mapItems space tree)).filter Row.isEntry
        = tree.nodes.map (nodeRow 0 (stem space))
    ∧ (∀ n ∈ tree.nodes, n.isHollow = true →
        (nodeRow 0 (stem space) n).text
            = List.replicate (4 * n.path.length) ' ' ++ '\'' :: n.key.toList ++ "': ()".toList
          ∧ n.leaf? = none)
    ∧ tree.leaves = tree.nodes.filterMap TreeNode.leaf? := by
  have hnames : (fun l : Leaf => '$' :: space.toList ++ '-' :: (l.joined "-").toList)
      = leafName space := funext fun l => (leafName_eq space l).symm
  rw [hnames, declared_sheet]
  refine ⟨document_eq_text_sheet tree space base, items_sheet tree space base, rfl,
    name?_leafRows space (references_rows_mapItems tree space), ?_,
    entries_rows_mapItems tree space, ?_, Tree.leaves_eq tree⟩
  · rw [references_rows_mapItems, List.map_map]
    exact List.map_congr_left fun l _ => text_leafRow space l
  · intro n _ hn
    exact ⟨text_nodeRow_of_isHollow (stem space) hn, leaf?_of_isHollow hn⟩

end DesignTokens.Stylesheet
