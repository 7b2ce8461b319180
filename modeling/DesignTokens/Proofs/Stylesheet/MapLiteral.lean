import DesignTokens.Format.Stylesheet
import DesignTokens.Proofs.Tree.Nodes

/-!
# The map of a stylesheet, as a literal and as rows

A map literal is a nesting of keys over references to variables (`MapItem`). It is written one row
at a time, and a comma ends every row behind which another entry of the same level follows.

* `textOf_rowsOf`: the map of a tree is written as the rows of its literal;
* `entries_rowsOf_entries`: without the closing brackets, these rows are the nodes of the tree, in
  order, each at the level of its path: a scalar refers to the variable of its path, and a group or
  a list without entries is an empty map.
-/

namespace DesignTokens.Stylesheet

/-- What stands under a key of a map: a variable, or a map of its own. -/
inductive MapItem where
  | reference (name : List Char)
  | nested (entries : List (String × MapItem))

/-- A row of a map as it is written. -/
inductive Row where
  | reference (level : Nat) (key : String) (name : List Char)
  | hollow (level : Nat) (key : String)
  | opening (level : Nat) (key : String)
  | closing (level : Nat)

namespace Row

/-- A row without the comma that may follow it. -/
def text : Row → List Char
  | reference level key name => mapKey level key ++ name
  | hollow level key => mapKey level key ++ ['(', ')']
  | opening level key => mapKey level key ++ ['(']
  | closing level => indent level ++ [')']

/-- Whether a row begins an entry. -/
def isEntry : Row → Bool
  | closing _ => false
  | _ => true

/-- Whether a row is a reference to a variable. -/
def isReference : Row → Bool
  | reference .. => true
  | _ => false

/-- The variable a row refers to. -/
def name? : Row → Option (List Char)
  | reference _ _ name => some name
  | _ => none

/-- The comma in front of rows, unless they end the level. -/
def comma : List Row → List Char
  | [] => []
  | closing _ :: _ => []
  | _ => [',']

/-- Rows, one line each. -/
def textOf : List Row → List Char
  | [] => []
  | opening level key :: rest => (opening level key).text ++ '\n' :: textOf rest
  | row :: rest => row.text ++ comma rest ++ '\n' :: textOf rest

end Row

mutual

/-- The rows of what stands under a key. -/
def MapItem.rows (level : Nat) (key : String) : MapItem → List Row
  | .reference name => [.reference level key name]
  | .nested [] => [.hollow level key]
  | .nested (entry :: rest) =>
    .opening level key :: (MapItem.rowsOf (level + 1) (entry :: rest) ++ [.closing level])

/-- The rows of one nesting level. -/
def MapItem.rowsOf (level : Nat) : List (String × MapItem) → List Row
  | [] => []
  | (key, item) :: rest => item.rows level key ++ MapItem.rowsOf level rest

end

mutual

/-- The map item of an outline. The names of the variables below it begin with `stem` and its
key. -/
def MapItem.ofOutline (stem : List Char) (key : String) : Outline → MapItem
  | .leaf _ => .reference (stem ++ key.toList)
  | .branch entries => .nested (MapItem.ofOutlines (stem ++ key.toList ++ ['-']) entries)

/-- The map items of keyed outlines. -/
def MapItem.ofOutlines (stem : List Char) : List (String × Outline) → List (String × MapItem)
  | [] => []
  | (key, outline) :: rest =>
    (key, MapItem.ofOutline stem key outline) :: MapItem.ofOutlines stem rest

end

/-- The map literal of a tree. -/
def mapItems (space : String) (tree : Tree) : List (String × MapItem) :=
  MapItem.ofOutlines (stem space) tree.outline

/-! ## The literal is what is written -/

theorem comma_rows (level : Nat) (key : String) (item : MapItem) (rest : List Row) :
    Row.comma (item.rows level key ++ rest) = [','] := by
  cases item with
  | reference name => rfl
  | nested entries => cases entries <;> rfl

theorem joinEntries_singleton (text : List Char) : joinEntries [text] = text ++ ['\n'] := by
  show [',', '\n'].intercalate [text] ++ ['\n'] = _
  rw [List.intercalate_singleton]

theorem joinEntries_ne_nil {texts : List (List Char)} (h : texts ≠ []) :
    joinEntries texts ≠ [] := by
  obtain ⟨text, more, rfl⟩ := List.exists_cons_of_ne_nil h
  exact List.append_ne_nil_of_right_ne_nil _ (List.cons_ne_nil _ _)

theorem joinEntries_cons {text : List Char} {texts : List (List Char)} (h : texts ≠ []) :
    joinEntries (text :: texts) = text ++ ',' :: '\n' :: joinEntries texts := by
  obtain ⟨t, ts, rfl⟩ := List.exists_cons_of_ne_nil h
  show [',', '\n'].intercalate (text :: t :: ts) ++ ['\n'] = _
  rw [List.intercalate_cons_cons, List.append_assoc, List.append_assoc]
  rfl

mutual

theorem textOf_rows : ∀ (level : Nat) (stem : List Char) (key : String) (outline : Outline)
    (rest : List Row),
    Row.textOf ((MapItem.ofOutline stem key outline).rows level key ++ rest)
      = entryText level stem key outline ++ Row.comma rest ++ '\n' :: Row.textOf rest
  | level, stem, key, .leaf s, rest => by
    show (mapKey level key ++ (stem ++ key.toList)) ++ Row.comma rest ++ '\n' :: Row.textOf rest = _
    rw [entryText]
    simp only [List.append_assoc]
  | level, stem, key, .branch [], rest => rfl
  | level, stem, key, .branch (entry :: entries), rest => by
    have hbody := textOf_rowsOf (level + 1) (stem ++ key.toList ++ ['-']) (entry :: entries)
      (.closing level :: rest) rfl
    have hrows : (MapItem.ofOutline stem key (.branch (entry :: entries))).rows level key ++ rest
        = .opening level key :: (MapItem.rowsOf (level + 1)
            (MapItem.ofOutlines (stem ++ key.toList ++ ['-']) (entry :: entries))
            ++ .closing level :: rest) := by
      show Row.opening level key :: (_ ++ [.closing level] ++ rest) = _
      rw [List.append_assoc]
      rfl
    rw [hrows, Row.textOf, hbody, entryText]
    · simp only [Row.text, Row.textOf, List.append_assoc, List.cons_append, List.nil_append]
    · simp

theorem textOf_rowsOf : ∀ (level : Nat) (stem : List Char) (entries : List (String × Outline))
    (rest : List Row), Row.comma rest = [] →
    Row.textOf (MapItem.rowsOf level (MapItem.ofOutlines stem entries) ++ rest)
      = joinEntries (entryTexts level stem entries) ++ Row.textOf rest
  | level, stem, [], rest, _ => rfl
  | level, stem, [(key, outline)], rest, hrest => by
    have hentry := textOf_rows level stem key outline rest
    rw [hrest, List.append_nil] at hentry
    rw [MapItem.ofOutlines, MapItem.ofOutlines, MapItem.rowsOf, MapItem.rowsOf, List.append_nil,
      hentry, entryTexts, entryTexts, joinEntries_singleton, List.append_assoc]
    rfl
  | level, stem, (key, outline) :: (key', outline') :: entries, rest, hrest => by
    have hnext := textOf_rowsOf level stem ((key', outline') :: entries) rest hrest
    -- the next entry is there, so a comma stands between the two
    have hcomma : Row.comma (MapItem.rowsOf level
        (MapItem.ofOutlines stem ((key', outline') :: entries)) ++ rest) = [','] := by
      rw [MapItem.ofOutlines, MapItem.rowsOf, List.append_assoc]
      exact comma_rows level key' _ _
    have hjoin : joinEntries (entryTexts level stem ((key, outline) :: (key', outline') :: entries))
        = entryText level stem key outline ++ ',' :: '\n'
            :: joinEntries (entryTexts level stem ((key', outline') :: entries)) :=
      joinEntries_cons (List.cons_ne_nil _ _)
    rw [MapItem.ofOutlines, MapItem.rowsOf, List.append_assoc, textOf_rows level stem key outline,
      hcomma, hnext, hjoin]
    simp only [List.append_assoc, List.cons_append, List.nil_append]

end

/-! ## The entries of the literal are the nodes of the tree -/

/-- The text of a path as it stands in names of variables. -/
def pathText (path : List String) : List Char :=
  ("-".intercalate path).toList

theorem pathText_singleton (key : String) : pathText [key] = key.toList := by
  unfold pathText
  rw [String.toList_intercalate]
  exact List.intercalate_singleton

theorem pathText_cons {key : String} {path : List String} (h : path ≠ []) :
    pathText (key :: path) = key.toList ++ '-' :: pathText path := by
  unfold pathText
  rw [String.toList_intercalate, String.toList_intercalate, List.map_cons,
    List.intercalate_cons_of_ne_nil (by simpa using h), List.append_assoc]
  rfl

/-- The row at which the entry of a node begins, `level` levels below the map. -/
def nodeRow (level : Nat) (stem : List Char) (n : TreeNode) : Row :=
  match n.value with
  | .leaf _ => .reference (level + n.path.length) n.key (stem ++ pathText n.path)
  | .group [] => .hollow (level + n.path.length) n.key
  | .list [] => .hollow (level + n.path.length) n.key
  | .group (_ :: _) => .opening (level + n.path.length) n.key
  | .list (_ :: _) => .opening (level + n.path.length) n.key

/-- One key more on the path is one level more, and one key more in the stem. -/
theorem nodeRow_under (level : Nat) (stem : List Char) (key : String) {n : TreeNode}
    (h : n.path ≠ []) :
    nodeRow level stem (n.under key) = nodeRow (level + 1) (stem ++ key.toList ++ ['-']) n := by
  obtain ⟨path, value⟩ := n
  have hlevel : level + (key :: path).length = level + 1 + path.length := by
    rw [List.length_cons]; omega
  have hkey : TreeNode.key ⟨key :: path, value⟩ = TreeNode.key ⟨path, value⟩ := by
    unfold TreeNode.key
    obtain ⟨k, ks, rfl⟩ := List.exists_cons_of_ne_nil h
    rfl
  have hname : stem ++ pathText (key :: path) = stem ++ key.toList ++ ['-'] ++ pathText path := by
    rw [pathText_cons h]
    simp only [List.append_assoc, List.cons_append, List.nil_append]
  unfold TreeNode.under nodeRow
  dsimp only
  rw [hlevel, hkey, hname]

/-- The rows of a branch that has entries. -/
theorem entries_rows_branch (level : Nat) (stem : List Char) (key : String)
    (outlines : List (String × Outline)) (nodes : List TreeNode) (hne : outlines ≠ [])
    (hpaths : ∀ n ∈ nodes, n.path ≠ [])
    (hbelow : (MapItem.rowsOf (level + 2)
        (MapItem.ofOutlines (stem ++ key.toList ++ ['-']) outlines)).filter Row.isEntry
      = nodes.map (nodeRow (level + 1) (stem ++ key.toList ++ ['-']))) :
    ((MapItem.ofOutline stem key (.branch outlines)).rows (level + 1) key).filter Row.isEntry
      = .opening (level + 1) key :: (nodes.map (TreeNode.under key)).map (nodeRow level stem) := by
  obtain ⟨⟨k, o⟩, rest, rfl⟩ := List.exists_cons_of_ne_nil hne
  rw [MapItem.ofOutline, MapItem.ofOutlines, MapItem.rows, ← MapItem.ofOutlines,
    List.filter_cons_of_pos rfl, List.filter_append, hbelow, List.map_map]
  have hunder : nodes.map (nodeRow (level + 1) (stem ++ key.toList ++ ['-']))
      = nodes.map (nodeRow level stem ∘ TreeNode.under key) :=
    List.map_congr_left fun n hn => (nodeRow_under level stem key (hpaths n hn)).symm
  rw [hunder]
  exact congrArg _ (List.append_nil _)

mutual

theorem entries_rows : ∀ (level : Nat) (stem : List Char) (key : String) (v : Value),
    ((MapItem.ofOutline stem key v.outline).rows (level + 1) key).filter Row.isEntry
      = (v.nodes.map (TreeNode.under key)).map (nodeRow level stem)
  | level, stem, key, .leaf s => by
    show [Row.reference (level + 1) key (stem ++ key.toList)] = _
    rw [← pathText_singleton key]
    rfl
  | level, stem, key, .group [] => rfl
  | level, stem, key, .list [] => rfl
  | level, stem, key, .group (entry :: entries) => by
    have hbranch := entries_rows_branch level stem key (Value.outlineEntries (entry :: entries))
      (Value.nodesOfEntries (entry :: entries)) (List.cons_ne_nil _ _)
      (fun n hn => Value.path_ne_nil_of_mem_nodesOfEntries hn)
      (entries_rowsOf_entries (level + 1) _ (entry :: entries))
    exact hbranch
  | level, stem, key, .list (item :: items) => by
    have hbranch := entries_rows_branch level stem key (Value.outlineItems 0 (item :: items))
      (Value.nodesOfItems 0 (item :: items)) (List.cons_ne_nil _ _)
      (fun n hn => Value.path_ne_nil_of_mem_nodesOfItems hn)
      (entries_rowsOf_items (level + 1) _ 0 (item :: items))
    exact hbranch

theorem entries_rowsOf_entries : ∀ (level : Nat) (stem : List Char)
    (entries : List (String × Value)),
    (MapItem.rowsOf (level + 1)
        (MapItem.ofOutlines stem (Value.outlineEntries entries))).filter Row.isEntry
      = (Value.nodesOfEntries entries).map (nodeRow level stem)
  | _, _, [] => rfl
  | level, stem, (key, value) :: rest => by
    rw [Value.outlineEntries, MapItem.ofOutlines, MapItem.rowsOf, Value.nodesOfEntries,
      List.filter_append, List.map_append, entries_rows level stem key value,
      entries_rowsOf_entries level stem rest]

theorem entries_rowsOf_items : ∀ (level : Nat) (stem : List Char) (i : Nat) (items : List Value),
    (MapItem.rowsOf (level + 1)
        (MapItem.ofOutlines stem (Value.outlineItems i items))).filter Row.isEntry
      = (Value.nodesOfItems i items).map (nodeRow level stem)
  | _, _, _, [] => rfl
  | level, stem, i, value :: rest => by
    rw [Value.outlineItems, MapItem.ofOutlines, MapItem.rowsOf, Value.nodesOfItems,
      List.filter_append, List.map_append, entries_rows level stem (indexKey i) value,
      entries_rowsOf_items level stem (i + 1) rest]

end

end DesignTokens.Stylesheet
