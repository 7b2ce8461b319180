import DesignTokens.Proofs.Stylesheet.MapLiteral
import DesignTokens.Proofs.Text.Blank
import DesignTokens.Proofs.Tree.Lookup
import Mathlib.Data.List.Basic

/-!
# A map is read back

The skeleton of a tree is what its map says of it: the keys in order, nested as they are, where a
list is a branch keyed by its indices. The scalars are forgotten.

A map is written without escapes, and the names in it hold whatever the keys hold: commas, brackets,
line breaks. They are no obstacle to a reader. A key ends at the next single quotation mark, if it
has none of its own, and from there on the name of its variable is known: a reference is told from a
bracket by its dollar sign, and it ends where the name does.

* `entries?`: the reader. It takes a text from where it stands and gives what it has read and the
  rest; `fuel` bounds the depth and the number of entries, and the length of the text is enough;
* `readsBack_outline`: it reads what is written under a key, and stops where that ends;
* `skeleton_of_mapText`: the maps of two trees are the same text if and only if the trees have the
  same skeleton.
-/

namespace DesignTokens

/-- A value whose scalars are forgotten. -/
inductive Skeleton where
  | leaf
  | branch (entries : List (String × Skeleton))

mutual

/-- The skeleton of an outline. -/
def Outline.skeleton : Outline → Skeleton
  | .leaf _ => .leaf
  | .branch entries => .branch (Outline.skeletonOf entries)

/-- The skeletons of keyed outlines. -/
def Outline.skeletonOf : List (String × Outline) → List (String × Skeleton)
  | [] => []
  | (key, outline) :: rest => (key, outline.skeleton) :: Outline.skeletonOf rest

end

/-- The skeletons of the entries of a tree. -/
def Tree.skeleton (tree : Tree) : List (String × Skeleton) :=
  Outline.skeletonOf tree.outline

namespace Stylesheet

/-! ## The reader -/

/-- A key at a level, with the colon behind it. -/
def key? (level : Nat) (text : List Char) : Option (List Char × List Char) :=
  (text.dropPrefix? (indent level ++ ['\''])).bind fun text =>
    ((text.dropWhile (· ≠ '\'')).dropPrefix? ['\'', ':', ' ']).map fun rest =>
      (text.takeWhile (· ≠ '\''), rest)

mutual

/-- What stands behind a key. The name of its variable, without the dollar sign, is `name`. -/
def item? : Nat → Nat → List Char → List Char → Option (Skeleton × List Char)
  | 0, _, _, _ => none
  | fuel + 1, level, name, text =>
    match text with
    | '$' :: rest => (rest.dropPrefix? name).map fun rest => (.leaf, rest)
    | '(' :: ')' :: rest => some (.branch [], rest)
    | '(' :: '\n' :: rest =>
      (entries? fuel (level + 1) (name ++ ['-']) rest).bind fun r =>
        (r.2.dropPrefix? (indent level ++ [')'])).map fun rest => (.branch r.1, rest)
    | _ => none

/-- The entries of a level, one at least. The names of their variables begin with `stem`. -/
def entries? : Nat → Nat → List Char → List Char → Option (List (String × Skeleton) × List Char)
  | 0, _, _, _ => none
  | fuel + 1, level, stem, text =>
    (key? level text).bind fun key =>
      (item? fuel level (stem ++ key.1) key.2).bind fun item =>
        match item.2 with
        | ',' :: '\n' :: rest =>
          (entries? fuel level stem rest).map fun r => ((String.ofList key.1, item.1) :: r.1, r.2)
        | '\n' :: rest => some ([(String.ofList key.1, item.1)], rest)
        | _ => none

end

/-- The end of a map. -/
def mapEnd : List Char :=
  ");\n".toList

/-- The skeleton that a map describes. -/
def map? (space base : String) (text : List Char) : Option (List (String × Skeleton)) :=
  (text.dropPrefix? ('$' :: (mapVariable space base).toList ++ ": (\n".toList)).bind fun body =>
    if body = mapEnd then some []
    else (entries? body.length 1 (space.toList ++ ['-']) body).bind fun r =>
      if r.2 = mapEnd then some r.1 else none

/-! ## Keys -/

/-- Whether a key holds no single quotation mark. -/
def Unquoted (key : String) : Prop :=
  '\'' ∉ key.toList

instance (key : String) : Decidable (Unquoted key) :=
  inferInstanceAs (Decidable ('\'' ∉ key.toList))

theorem unquoted_indexKey (i : Nat) : Unquoted (indexKey i) := by
  intro h
  rw [indexKey, String.toList_ofList] at h
  exact absurd (Decimal.isDigit_of_mem_digits h) (by decide)

theorem dropPrefix?_append (front rest : List Char) :
    (front ++ rest).dropPrefix? front = some rest :=
  List.dropPrefix?_eq_some_iff.mpr ⟨front, rfl, beq_self_eq_true front⟩

theorem key?_mapKey (level : Nat) {key : String} (hkey : Unquoted key) (rest : List Char) :
    key? level (mapKey level key ++ rest) = some (key.toList, rest) := by
  have htext : mapKey level key ++ rest
      = (indent level ++ ['\'']) ++ (key.toList ++ '\'' :: ':' :: ' ' :: rest) := by
    unfold mapKey
    simp only [List.append_assoc, List.cons_append, List.nil_append]
  have hchars : ∀ c ∈ key.toList, decide (c ≠ '\'') = true :=
    fun c hc => decide_eq_true fun hquote => hkey (hquote ▸ hc)
  have hstop : ∀ c ∈ ('\'' :: ':' :: ' ' :: rest).head?, decide (c ≠ '\'') = false :=
    fun | _, rfl => rfl
  have htake : (key.toList ++ '\'' :: ':' :: ' ' :: rest).takeWhile (· ≠ '\'') = key.toList :=
    Text.takeWhile_append_stop hchars hstop
  have hdrop : (key.toList ++ '\'' :: ':' :: ' ' :: rest).dropWhile (· ≠ '\'')
      = ['\'', ':', ' '] ++ rest :=
    Text.dropWhile_append_stop hchars hstop
  unfold key?
  rw [htext, dropPrefix?_append, Option.bind_some, htake, hdrop, dropPrefix?_append]
  rfl

/-! ## What stands under a key is read back -/

/-- What is written behind a key. A reference has `name` there. -/
def itemText (level : Nat) (name : List Char) : Outline → List Char
  | .leaf _ => name
  | .branch [] => ['(', ')']
  | .branch (entry :: entries) =>
    '(' :: '\n' :: (joinEntries (entryTexts (level + 1) (name ++ ['-']) (entry :: entries))
      ++ (indent level ++ [')']))

theorem entryText_eq (level : Nat) (stem : List Char) (key : String) (outline : Outline) :
    entryText level stem key outline
      = mapKey level key ++ itemText level (stem ++ key.toList) outline := by
  cases outline with
  | leaf s => rw [entryText, itemText, List.append_assoc]
  | branch entries =>
    cases entries with
    | nil => rfl
    | cons entry entries =>
      rw [entryText, itemText]
      · simp only [List.append_assoc, List.cons_append]
      · exact List.cons_ne_nil _ _

/-- Whether the reader finds what is written behind a key, and stops where it ends. -/
def ReadsBack (outline : Outline) : Prop :=
  ∀ (fuel level : Nat) (name rest : List Char),
    (itemText level ('$' :: name) outline).length ≤ fuel →
    item? fuel level name (itemText level ('$' :: name) outline ++ rest)
      = some (outline.skeleton, rest)

theorem length_entryText (level : Nat) (stem : List Char) (key : String) (outline : Outline) :
    (itemText level (stem ++ key.toList) outline).length
      < (entryText level stem key outline).length := by
  rw [entryText_eq, List.length_append, mapKey, List.length_append]
  show _ < _ + 3 + _
  omega

/-- Behind an entry, the separator says whether another one follows. -/
theorem entries?_entryText {key : String} {outline : Outline} (hkey : Unquoted key)
    (hitem : ReadsBack outline) (fuel level : Nat) (stem rest : List Char)
    (hfuel : (entryText level ('$' :: stem) key outline).length ≤ fuel + 1) :
    entries? (fuel + 1) level stem (entryText level ('$' :: stem) key outline ++ rest)
      = match rest with
        | ',' :: '\n' :: rest =>
          (entries? fuel level stem rest).map fun r => ((key, outline.skeleton) :: r.1, r.2)
        | '\n' :: rest => some ([(key, outline.skeleton)], rest)
        | _ => none := by
  have hlength := length_entryText level ('$' :: stem) key outline
  rw [List.cons_append] at hlength
  have hread : item? fuel level (stem ++ key.toList)
        (itemText level ('$' :: stem ++ key.toList) outline ++ rest)
      = some (outline.skeleton, rest) :=
    hitem fuel level (stem ++ key.toList) rest (by omega)
  rw [entries?, entryText_eq, List.append_assoc, key?_mapKey level hkey, Option.bind_some, hread,
    Option.bind_some, String.ofList_toList]

/-- Entries that are read back one by one are read back together. -/
theorem entries?_joinEntries {outlines : List (String × Outline)} (hne : outlines ≠ [])
    (hread : ∀ entry ∈ outlines, Unquoted entry.1 ∧ ReadsBack entry.2) (fuel level : Nat)
    (stem rest : List Char)
    (hfuel : (joinEntries (entryTexts level ('$' :: stem) outlines)).length ≤ fuel) :
    entries? fuel level stem (joinEntries (entryTexts level ('$' :: stem) outlines) ++ rest)
      = some (Outline.skeletonOf outlines, rest) := by
  induction outlines generalizing fuel with
  | nil => exact absurd rfl hne
  | cons entry more ih =>
    obtain ⟨key, outline⟩ := entry
    obtain ⟨hkey, hitem⟩ : Unquoted key ∧ ReadsBack outline := hread _ List.mem_cons_self
    have hmore := fun e he => hread e (List.mem_cons_of_mem _ he)
    have hpos := length_entryText level ('$' :: stem) key outline
    cases more with
    | nil =>
      -- the last entry, without a comma
      rw [entryTexts, entryTexts, joinEntries_singleton, List.length_append] at hfuel
      obtain ⟨fuel, rfl⟩ : ∃ f, fuel = f + 1 := Nat.exists_eq_add_one.mpr (by omega)
      rw [entryTexts, entryTexts, joinEntries_singleton, List.append_assoc,
        entries?_entryText hkey hitem fuel level stem _ (by omega)]
      rfl
    | cons next more =>
      have hjoin : joinEntries (entryTexts level ('$' :: stem) ((key, outline) :: next :: more))
          = entryText level ('$' :: stem) key outline ++ ',' :: '\n'
              :: joinEntries (entryTexts level ('$' :: stem) (next :: more)) :=
        joinEntries_cons (List.cons_ne_nil _ _)
      rw [hjoin, List.length_append, List.length_cons, List.length_cons] at hfuel
      obtain ⟨fuel, rfl⟩ : ∃ f, fuel = f + 1 := Nat.exists_eq_add_one.mpr (by omega)
      rw [hjoin, List.append_assoc, entries?_entryText hkey hitem fuel level stem _ (by omega)]
      show (entries? fuel level stem (_ ++ rest)).map _ = _
      rw [ih (List.cons_ne_nil _ _) hmore fuel (by omega)]
      rfl

/-- A reference is read back: its name is the one that its key makes. -/
theorem readsBack_leaf (s : Scalar) : ReadsBack (.leaf s) := by
  intro fuel level name rest hfuel
  have hpos : 0 < (itemText level ('$' :: name) (.leaf s)).length := Nat.succ_pos _
  obtain ⟨fuel, rfl⟩ : ∃ f, fuel = f + 1 := Nat.exists_eq_add_one.mpr (by omega)
  show ((name ++ rest).dropPrefix? name).map _ = _
  rw [dropPrefix?_append]
  rfl

/-- A nested map is read back if its entries are. -/
theorem readsBack_branch {outlines : List (String × Outline)}
    (hread : ∀ entry ∈ outlines, Unquoted entry.1 ∧ ReadsBack entry.2) :
    ReadsBack (.branch outlines) := by
  intro fuel level name rest hfuel
  cases outlines with
  | nil =>
    have hpos : 0 < (itemText level ('$' :: name) (.branch [])).length := Nat.succ_pos _
    obtain ⟨fuel, rfl⟩ : ∃ f, fuel = f + 1 := Nat.exists_eq_add_one.mpr (by omega)
    rfl
  | cons entry more =>
    rw [itemText, List.cons_append, List.length_cons, List.length_cons, List.length_append] at hfuel
    obtain ⟨fuel, rfl⟩ : ∃ f, fuel = f + 1 := Nat.exists_eq_add_one.mpr (by omega)
    have hentries := entries?_joinEntries (List.cons_ne_nil entry more) hread fuel (level + 1)
      (name ++ ['-']) ((indent level ++ [')']) ++ rest) (by omega)
    rw [itemText, List.cons_append, List.cons_append, List.cons_append, List.append_assoc]
    show (entries? fuel (level + 1) (name ++ ['-']) _).bind _ = _
    rw [hentries, Option.bind_some, dropPrefix?_append]
    rfl

theorem readsBack_children {v : Value} (hkeys : v.AllKeys Unquoted)
    (hbelow : ∀ child ∈ v.children, child.2.AllKeys Unquoted → ReadsBack child.2.outline) :
    ∀ entry ∈ v.children.map (fun child => (child.1, child.2.outline)),
      Unquoted entry.1 ∧ ReadsBack entry.2 := by
  intro entry hentry
  obtain ⟨child, hchild, rfl⟩ := List.mem_map.mp hentry
  obtain ⟨hkey, hchildKeys⟩ := hkeys.children unquoted_indexKey child hchild
  exact ⟨hkey, hbelow child hchild hchildKeys⟩

/-- **What is written under a key is read back, if no key below it holds a quotation mark.** -/
theorem readsBack_outline (v : Value) (hkeys : v.AllKeys Unquoted) : ReadsBack v.outline := by
  induction v using Value.childInduction with
  | step v ih =>
    obtain ⟨s, rfl⟩ | ⟨-, houtline⟩ := v.outline_cases
    · exact readsBack_leaf s
    · rw [houtline]
      exact readsBack_branch (readsBack_children hkeys ih)

/-- The map of a tree is read back. -/
theorem map?_mapText {tree : Tree} (hkeys : tree.AllKeys Unquoted) (space base : String) :
    map? space base (mapText tree space base) = some tree.skeleton := by
  have htext : mapText tree space base
      = ('$' :: (mapVariable space base).toList ++ ": (\n".toList)
        ++ (joinEntries (entryTexts 1 (stem space) tree.outline) ++ mapEnd) :=
    List.append_assoc _ _ _
  have hread : ∀ entry ∈ tree.outline, Unquoted entry.1 ∧ ReadsBack entry.2 := by
    rw [Tree.outline, Value.outlineEntries_eq_map]
    exact readsBack_children hkeys fun child _ => readsBack_outline child.2
  unfold map?
  rw [htext, dropPrefix?_append, Option.bind_some]
  unfold Tree.skeleton
  cases houtline : tree.outline with
  | nil => rfl
  | cons entry more =>
    rw [houtline] at hread
    -- something stands before the end
    have hbody : joinEntries (entryTexts 1 (stem space) (entry :: more)) ++ mapEnd ≠ mapEnd := by
      intro hend
      exact joinEntries_ne_nil (List.cons_ne_nil _ _) (List.append_left_eq_self.mp hend)
    have hentries : entries? (joinEntries (entryTexts 1 (stem space) (entry :: more))
          ++ mapEnd).length 1 (space.toList ++ ['-'])
          (joinEntries (entryTexts 1 (stem space) (entry :: more)) ++ mapEnd)
        = some (Outline.skeletonOf (entry :: more), mapEnd) :=
      entries?_joinEntries (List.cons_ne_nil entry more) hread _ 1 (space.toList ++ ['-']) mapEnd
        (by rw [List.length_append]; exact Nat.le_add_right _ _)
    rw [if_neg hbody, hentries, Option.bind_some, if_pos rfl]

/-! ## A map says no more than the skeleton -/

mutual

theorem itemText_congr : ∀ (level : Nat) (name : List Char) {o o' : Outline},
    o.skeleton = o'.skeleton → itemText level name o = itemText level name o'
  | _, _, .leaf _, .leaf _, _ => rfl
  | _, _, .leaf _, .branch _, h => nomatch h
  | _, _, .branch _, .leaf _, h => nomatch h
  | _, _, .branch [], .branch [], _ => rfl
  | _, _, .branch [], .branch (_ :: _), h => nomatch h
  | _, _, .branch (_ :: _), .branch [], h => nomatch h
  | level, name, .branch (entry :: entries), .branch (entry' :: entries'), h => by
    rw [itemText, itemText,
      entryTexts_congr (level + 1) (name ++ ['-']) (Skeleton.branch.inj h)]

theorem entryTexts_congr : ∀ (level : Nat) (stem : List Char) {os os' : List (String × Outline)},
    Outline.skeletonOf os = Outline.skeletonOf os' →
    entryTexts level stem os = entryTexts level stem os'
  | _, _, [], [], _ => rfl
  | _, _, [], _ :: _, h => nomatch h
  | _, _, _ :: _, [], h => nomatch h
  | level, stem, (key, o) :: rest, (key', o') :: rest', h => by
    obtain ⟨hentry, hrest⟩ := List.cons.inj h
    obtain ⟨rfl, hskeleton⟩ := Prod.mk.inj hentry
    rw [entryTexts, entryTexts, entryText_eq, entryText_eq,
      itemText_congr level (stem ++ key.toList) hskeleton, entryTexts_congr level stem hrest]

end

theorem mapText_congr {t t' : Tree} (h : t.skeleton = t'.skeleton) (space base : String) :
    mapText t space base = mapText t' space base := by
  unfold mapText
  rw [entryTexts_congr 1 (stem space) h]

/-- **The map of a tree determines its skeleton.** A reader recovers the skeleton of every tree
whose keys hold no quotation mark, and the maps of two such trees are the same text if and only if
the trees have the same skeleton. -/
theorem skeleton_of_mapText (space base : String) :
    (∀ tree : Tree, tree.AllKeys Unquoted →
      map? space base (mapText tree space base) = some tree.skeleton)
    ∧ ∀ t t' : Tree, t.AllKeys Unquoted → t'.AllKeys Unquoted →
      (mapText t space base = mapText t' space base ↔ t.skeleton = t'.skeleton) := by
  refine ⟨fun tree hkeys => map?_mapText hkeys space base, fun t t' ht ht' => ⟨?_, ?_⟩⟩
  · intro htext
    have hread : some t.skeleton = some t'.skeleton := by
      rw [← map?_mapText ht space base, ← map?_mapText ht' space base, htext]
    exact Option.some.inj hread
  · exact fun h => mapText_congr h space base

/-- A tree whose keys hold what stands between entries. -/
def bracketTree : Tree :=
  ⟨[("a,\n    (b)", .text "1px"), ("(", .group [("c\n    ),", .list [])]),
    ("d: ()", .list [.leaf .null, .group []])]⟩

/-- The same keys over other scalars, and groups in place of lists. -/
def bracketGroups : Tree :=
  ⟨[("a,\n    (b)", .text "2px"), ("(", .group [("c\n    ),", .group [])]),
    ("d: ()", .group [("0", .text ")"), ("1", .list [])])]⟩

theorem skeleton_of_mapText_bracketTree :
    bracketTree.AllKeys Unquoted ∧ bracketGroups.AllKeys Unquoted
    ∧ map? "ns" "tokens" (mapText bracketTree "ns" "tokens")
      = some [("a,\n    (b)", .leaf), ("(", .branch [("c\n    ),", .branch [])]),
          ("d: ()", .branch [("0", .leaf), ("1", .branch [])])]
    ∧ mapText bracketTree "ns" "tokens" = mapText bracketGroups "ns" "tokens" := by
  have htree : bracketTree.AllKeys Unquoted :=
    ⟨by decide +kernel, trivial, by decide +kernel, ⟨by decide +kernel, trivial, trivial⟩,
      by decide +kernel, ⟨trivial, trivial, trivial⟩, trivial⟩
  have hgroups : bracketGroups.AllKeys Unquoted :=
    ⟨by decide +kernel, trivial, by decide +kernel, ⟨by decide +kernel, trivial, trivial⟩,
      by decide +kernel, ⟨by decide +kernel, trivial, by decide +kernel, trivial, trivial⟩, trivial⟩
  obtain ⟨hreader, hsame⟩ := skeleton_of_mapText "ns" "tokens"
  exact ⟨htree, hgroups, hreader bracketTree htree, (hsame _ _ htree hgroups).mpr rfl⟩

-- with quotation marks in keys, one entry may look like two
example : mapText ⟨[("a': (),\n    'b", .group [])]⟩ "ns" "tokens"
    = mapText ⟨[("a", .group []), ("b", .group [])]⟩ "ns" "tokens" := by decide +kernel

end Stylesheet

end DesignTokens
