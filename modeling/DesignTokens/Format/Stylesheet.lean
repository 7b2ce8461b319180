import DesignTokens.Tree.Outline

/-!
# Stylesheets

The stylesheet of a token tree has three parts:

- a `!default` declaration for each leaf, where a blank line stands between sections, that is,
  between the leaves of two different top-level entries;
- a nested map with the keys of the tree, whose leaves refer to the declared variables;
- a function that looks a path of keys up in the map.
-/

namespace DesignTokens.Stylesheet

/-- The first line of every stylesheet. -/
def header : String :=
  "// DO NOT EDIT: This file is automatically generated by a build task"

/-- What the names of all variables of a design system begin with. -/
def stem (space : String) : List Char :=
  '$' :: space.toList ++ ['-']

/-- The declaration of a leaf, with its line break. -/
def declaration (space : String) (l : Leaf) : List Char :=
  stem space ++ (l.joined "-").toList ++ ':' :: ' ' :: l.scalar.display.toList
    ++ " !default;\n".toList

/-- Declarations, each behind a blank line if its section is not the one before it. -/
def declarationsAfter (space : String) (previous : Option String) : List Leaf → List Char
  | [] => []
  | l :: rest =>
    (match previous with
      | some s => if s = l.sectionKey then [] else ['\n']
      | none => [])
      ++ declaration space l ++ declarationsAfter space (some l.sectionKey) rest

/-- The declarations of a tree. -/
def declarations (space : String) (tree : Tree) : List Char :=
  declarationsAfter space none tree.leaves

/-- The spaces before an entry of a map. -/
def indent (level : Nat) : List Char :=
  List.replicate (4 * level) ' '

/-- Map entries, one line each, with commas between them. -/
def joinEntries (entries : List (List Char)) : List Char :=
  match entries with
  | [] => []
  | entries => [',', '\n'].intercalate entries ++ ['\n']

/-- The key of a map entry. -/
def mapKey (level : Nat) (key : String) : List Char :=
  indent level ++ '\'' :: key.toList ++ ['\'', ':', ' ']

mutual

/-- A map entry at a level. The names of the variables below it begin with `stem` and its key. -/
def entryText (level : Nat) (stem : List Char) (key : String) : Outline → List Char
  | .leaf _ => mapKey level key ++ stem ++ key.toList
  | .branch [] => mapKey level key ++ ['(', ')']
  | .branch entries =>
    mapKey level key ++ '(' :: '\n'
      :: joinEntries (entryTexts (level + 1) (stem ++ key.toList ++ ['-']) entries)
      ++ indent level ++ [')']

/-- The entries of one nesting level of a map. -/
def entryTexts (level : Nat) (stem : List Char) : List (String × Outline) → List (List Char)
  | [] => []
  | (key, outline) :: rest => entryText level stem key outline :: entryTexts level stem rest

end

/-- The name of the map, without its dollar sign. -/
def mapVariable (space base : String) : String :=
  space ++ "-" ++ String.ofList (base.toList.map fun c => if c = '_' then '-' else c)

/-- The map of a tree. -/
def mapText (tree : Tree) (space base : String) : List Char :=
  '$' :: (mapVariable space base).toList ++ ": (\n".toList
    ++ joinEntries (entryTexts 1 (stem space) tree.outline) ++ ");\n".toList

/-- The function that looks up a path of keys in the map. -/
def accessor (space base : String) : List Char :=
  "@function ".toList ++ space.toList ++ "-token($keys...) \x7b\n".toList
    ++ indent 1 ++ "$map: $".toList ++ (mapVariable space base).toList ++ ";\n".toList
    ++ indent 1 ++ "@each $key in $keys \x7b\n".toList
    ++ indent 2 ++ "$map: map-get($map, $key);\n".toList
    ++ indent 1 ++ "\x7d\n".toList
    ++ indent 1 ++ "@return $map;\n".toList
    ++ "\x7d\n".toList

/-- The stylesheet of a tree. -/
def document (tree : Tree) (space base : String) : String :=
  String.ofList (header.toList ++ "\n\n".toList ++ declarations space tree
    ++ mapText tree space base ++ '\n' :: accessor space base)

end DesignTokens.Stylesheet
