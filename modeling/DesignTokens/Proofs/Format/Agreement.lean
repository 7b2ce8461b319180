import DesignTokens.Format.Basic
import DesignTokens.Proofs.Json.Leaves
import DesignTokens.Proofs.Stylesheet.Sheet
import DesignTokens.Proofs.Table
import DesignTokens.Proofs.Tree.Lookup

/-!
# The formats agree

A tree is rendered in each format by itself, and each format attaches the name of the design system
in its own way. Still the two documents describe the same tokens: the declarations of the
stylesheet can be written down from the JSON document alone (`formats_agree`).

Both documents come from the entries of one tree, of which one entry, the attached name, has a value
that depends on the format. Its place does not (`exists_insert_eq`), and on all other leaves the
text in a stylesheet is that of the datum (`plainText_scalarDatum`).
-/

namespace DesignTokens

/-- A declaration as it is written, if a statement is one. -/
def Stylesheet.Statement.declaration? : Statement → Option (List Char)
  | declare name value => some (declare name value).text
  | _ => none

/-- The text of a leaf without quotation marks, where numbers are integers. Arrays and objects are
no leaves. -/
def Json.Datum.plainText : Datum → List Char
  | .null => "null".toList
  | .bool b => (boolText b).toList
  | .number q => Decimal.intText q.num
  | .string s => s.toList
  | .array _ => []
  | .object _ => []

open Json Stylesheet OutputFormat

/-! ## The entries around one key -/

/-- Where keys are distinct, no entry behind the inserted one has its key. -/
theorem exists_insert_eq {entries : List (String × Value)} (hkeys : (Table.keys entries).Nodup)
    (key : String) :
    ∃ before after : List (String × Value),
      (entries = before ∧ after = [] ∨ ∃ old, entries = before ++ (key, old) :: after)
      ∧ key ∉ Table.keys before ∧ key ∉ Table.keys after
      ∧ ∀ value, Table.insert entries key value = before ++ (key, value) :: after := by
  obtain ⟨before, after, hcases, hbefore, hinsert⟩ := Table.exists_insert_eq entries key
  refine ⟨before, after, hcases, hbefore, ?_, hinsert⟩
  rcases hcases with ⟨-, rfl⟩ | ⟨old, rfl⟩
  · exact List.not_mem_nil
  · have hsplit : Table.keys (before ++ (key, old) :: after)
        = Table.keys before ++ key :: Table.keys after := by
      simp [Table.keys]
    rw [hsplit] at hkeys
    exact (List.nodup_cons.mp hkeys.of_append_right).1

theorem leavesOf_outlineEntries_append (entries more : List (String × Value)) :
    Outline.leavesOf (Value.outlineEntries (entries ++ more))
      = Outline.leavesOf (Value.outlineEntries entries)
        ++ Outline.leavesOf (Value.outlineEntries more) := by
  induction entries with
  | nil => rfl
  | cons entry entries ih =>
    obtain ⟨key, value⟩ := entry
    rw [List.cons_append, Value.outlineEntries, Value.outlineEntries, Outline.leavesOf,
      Outline.leavesOf, ih, List.append_assoc]

/-- A leaf below entries does not lie directly under a key that is none of theirs. -/
theorem path_ne_singleton {entries : List (String × Value)} {key : String}
    (hkey : key ∉ Table.keys entries) {l : Leaf}
    (hl : l ∈ Outline.leavesOf (Value.outlineEntries entries)) : l.path ≠ [key] := by
  intro hpath
  obtain ⟨k, path, hk, hmem⟩ := Outline.exists_key_of_mem_leavesOf hl
  rw [keys_outlineEntries] at hmem
  rw [hk] at hpath
  exact hkey ((List.cons.inj hpath).1 ▸ hmem)

/-! ## The texts of a leaf -/

/-- But for floating-point numbers, a scalar has the text of its datum. -/
theorem plainText_scalarDatum {s : Scalar} (h : ∀ x, s ≠ .number (.float x)) :
    (scalarDatum s).plainText = s.display.toList := by
  cases s with
  | text s => rfl
  | bool b => rfl
  | null => rfl
  | number n =>
    cases n with
    | float x => exact absurd rfl (h x)
    | int n =>
      show Decimal.intText (n : ℚ).num = (String.ofList (Decimal.intText n)).toList
      rw [Rat.num_intCast, String.toList_ofList]

/-- The declarations of a sheet, as they are written, are those of the leaves. -/
theorem declarations_sheet (tree : Tree) (space base : String) :
    (sheet tree space base).filterMap Statement.declaration?
      = tree.leaves.map fun l => (Statement.declare (leafName space l) l.scalar.display.toList).text
      := by
  rw [filterMap_sheet (fun _ => rfl) rfl]
  show tree.leaves.filterMap (fun l => some _) ++ [] = _
  rw [List.append_nil, List.filterMap_eq_map']

/-! ## One document from the other -/

/-- The declaration of a leaf of a JSON document. The name of the design system has quotation marks
in stylesheets. -/
def declarationOf (space : String) (l : DatumLeaf) : List Char :=
  '$' :: space.toList ++ '-' :: ("-".intercalate l.path).toList ++ ": ".toList
    ++ (if l.path = [namespaceKey] then '"' :: space.toList ++ ['"'] else l.datum.plainText)
    ++ " !default;\n".toList

theorem declarationOf_ofLeaf {space : String} {l : Leaf} {value : List Char}
    (h : (if l.path = [namespaceKey] then '"' :: space.toList ++ ['"']
      else (scalarDatum l.scalar).plainText) = value) :
    declarationOf space (.ofLeaf l) = (Statement.declare (leafName space l) value).text := by
  have hcolon : ": ".toList = [':', ' '] := by decide
  unfold declarationOf DatumLeaf.ofLeaf Statement.text
  dsimp only
  rw [h, leafName_eq, hcolon]
  unfold Leaf.joined
  simp only [List.append_assoc, List.cons_append, List.nil_append]

/-- Below entries without the key of the name, the declarations are those of the datums. -/
theorem map_declarationOf (space : String) {entries : List (String × Value)}
    (hkey : namespaceKey ∉ Table.keys entries)
    (hint : ∀ l ∈ Outline.leavesOf (Value.outlineEntries entries), ∀ x,
      l.scalar ≠ .number (.float x)) :
    (Datum.leavesOfMembers (memberDatums entries)).map (declarationOf space)
      = (Outline.leavesOf (Value.outlineEntries entries)).map fun l =>
          (Statement.declare (leafName space l) l.scalar.display.toList).text := by
  rw [leavesOfMembers_memberDatums, List.map_map]
  refine List.map_congr_left fun l hl => declarationOf_ofLeaf ?_
  rw [if_neg (path_ne_singleton hkey hl), plainText_scalarDatum (hint l hl)]

/--
**The declarations of the stylesheet are the leaves of the JSON document.**

The JSON document denotes an object with one member, which holds the entries of the tree and the
name of the design system: in the place of the entry that had its key, or else as the last one.
The stylesheet is the text of statements whose declarations are, one for one and in order, those of
the leaves of this object. The name itself is the one leaf that is not written as it is denoted.
-/
theorem formats_agree (tree : Tree) (hkeys : tree.KeysDistinct) (hint : tree.NumbersAreIntegers)
    (space base : String) :
    ∃ (before after : List (String × Value)) (members : List (String × Datum))
        (statements : List Statement),
      (tree.entries = before ∧ after = []
        ∨ ∃ old, tree.entries = before ++ (namespaceKey, old) :: after)
      ∧ namespaceKey ∉ Table.keys before ∧ namespaceKey ∉ Table.keys after
      ∧ decode? (json.render tree space base).toList
          = some (.object [(rootKey space base, .object members)])
      ∧ members = memberDatums before ++ (namespaceKey, .string space) :: memberDatums after
      ∧ (scss.render tree space base).toList = statements.flatMap Statement.text
      ∧ statements
          = sheet ⟨before ++ (namespaceKey, .text ("\"" ++ space ++ "\"")) :: after⟩ space base
      ∧ statements.filterMap Statement.declaration?
          = (Datum.leavesOfMembers members).map (declarationOf space)
      ∧ ∀ l ∈ Datum.leavesOfMembers members, l.path = [namespaceKey] → l.datum = .string space := by
  obtain ⟨before, after, hplace, hbefore, hafter, hinsert⟩ :=
    exists_insert_eq hkeys.1 namespaceKey
  have hsub : ∀ l, l ∈ Outline.leavesOf (Value.outlineEntries before)
      ∨ l ∈ Outline.leavesOf (Value.outlineEntries after) → l ∈ tree.leaves := by
    intro l hl
    show l ∈ Outline.leavesOf (Value.outlineEntries tree.entries)
    rcases hplace with ⟨hentries, rfl⟩ | ⟨old, hentries⟩
    · rw [hentries]
      exact hl.resolve_right List.not_mem_nil
    · rw [hentries, leavesOf_outlineEntries_append]
      rcases hl with hl | hl
      · exact List.mem_append_left _ hl
      · exact List.mem_append_right _ (List.mem_append_right _ hl)
  refine ⟨before, after, _, _, hplace, hbefore, hafter, ?_, rfl, ?_, rfl, ?_, ?_⟩
  · show decode? (Json.document (tree.insert namespaceKey (.text space)) space base).toList = _
    rw [document_denotes_tree]
    show some (Datum.object [(_, .object (memberDatums (Table.insert tree.entries _ _)))]) = _
    rw [hinsert, memberDatums_append]
    rfl
  · show (Stylesheet.document (tree.insert namespaceKey _) space base).toList = _
    rw [document_eq_text_sheet, Tree.insert, hinsert]
    rfl
  · -- the leaves on both sides of the name are written as they are denoted
    have hname : declarationOf space ⟨[namespaceKey], .string space⟩
        = (Statement.declare (leafName space ⟨[namespaceKey], .text ("\"" ++ space ++ "\"")⟩)
            ("\"" ++ space ++ "\"").toList).text := by
      refine declarationOf_ofLeaf (l := ⟨[namespaceKey], .text space⟩) ?_
      rw [if_pos rfl, String.toList_append, String.toList_append]
      rfl
    rw [declarations_sheet, leavesOfMembers_append, List.map_append,
      map_declarationOf space hbefore fun l hl => hint l (hsub l (Or.inl hl))]
    show (Outline.leavesOf (Value.outlineEntries (before ++ _ :: after))).map _ = _
    rw [leavesOf_outlineEntries_append, List.map_append]
    refine congrArg _ ?_
    show _ :: (Outline.leavesOf (Value.outlineEntries after)).map _
      = declarationOf space ⟨[namespaceKey], .string space⟩
        :: (Datum.leavesOfMembers (memberDatums after)).map _
    rw [map_declarationOf space hafter fun l hl => hint l (hsub l (Or.inr hl)), hname]
    rfl
  · intro l hl hpath
    rw [leavesOfMembers_append, leavesOfMembers_memberDatums] at hl
    rcases List.mem_append.mp hl with hl | hl
    · obtain ⟨m, hm, rfl⟩ := List.mem_map.mp hl
      exact absurd hpath (path_ne_singleton hbefore hm)
    · rcases List.mem_cons.mp hl with rfl | hl
      · rfl
      · rw [leavesOfMembers_memberDatums] at hl
        obtain ⟨m, hm, rfl⟩ := List.mem_map.mp hl
        exact absurd hpath (path_ne_singleton hafter hm)

/-- A tree whose second entry has the key of the name. -/
def namedTree : Tree :=
  ⟨[("size", .group [("sm", .leaf (.number (.int (-3)))), ("on", .leaf (.bool true))]),
    ("namespace", .list [.text "old"]), ("none", .leaf .null)]⟩

theorem formats_agree_namedTree :
    namedTree.KeysDistinct ∧ namedTree.NumbersAreIntegers
    ∧ ∃ (members : List (String × Datum)) (statements : List Statement),
        decode? (json.render namedTree "my-ds" "base").toList
            = some (.object [("my_ds_base", .object members)])
        ∧ (scss.render namedTree "my-ds" "base").toList = statements.flatMap Statement.text
        ∧ statements.filterMap Statement.declaration?
            = (Datum.leavesOfMembers members).map (declarationOf "my-ds") := by
  have hkeys : namedTree.KeysDistinct :=
    ⟨by decide, ⟨by decide, trivial, trivial, trivial⟩, ⟨trivial, trivial⟩, trivial, trivial⟩
  have hint : namedTree.NumbersAreIntegers := by
    intro l hl x hfloat
    have hscalar : l.scalar ∈ [Scalar.number (.int (-3)), .bool true, .text "old", .null] :=
      List.mem_map_of_mem (f := Leaf.scalar) hl
    rw [hfloat] at hscalar
    simp at hscalar
  obtain ⟨-, -, members, statements, -, -, -, hjson, -, hscss, -, hdecl, -⟩ :=
    formats_agree namedTree hkeys hint "my-ds" "base"
  exact ⟨hkeys, hint, members, statements, hjson, hscss, hdecl⟩

end DesignTokens
