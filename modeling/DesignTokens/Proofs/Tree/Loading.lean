import DesignTokens.Proofs.Tree.Lookup
import DesignTokens.Tree.Load

/-!
# Paths through a document

A path can be followed in a document before the document is a tree (`Yaml.Value.walk?`): tags are
dropped at each step, a mapping is asked for the last of its entries whose key is written like the
next key of the path, and a sequence for the item with that index. The tree that is loaded from the
document is the one in which every path leads to what this walk comes to.

* `Yaml.Value.child?_toTokens`: one step;
* `Yaml.Value.at?_toTokens`: a whole path;
* `Yaml.Value.keys_of_toTokens`: the keys of a group.
-/

namespace DesignTokens.Yaml.Value

/-- How a key is written, without its tags. Sequences and mappings are not written as keys. -/
def shown? (key : Yaml.Value) : Option String :=
  match key.untag with
  | .text s => some s
  | .number n => some (Scalar.number n).display
  | .bool b => some (Scalar.bool b).display
  | .null => some Scalar.null.display
  | _ => none

/-- What one key of a path leads to: in a mapping the last value whose key is written like it, in a
sequence the item with that index. -/
def step? (v : Yaml.Value) (segment : String) : Option Yaml.Value :=
  match v.untag with
  | .mapping entries =>
    ((entries.filter fun entry => entry.1.shown? == some segment).getLast?).map Prod.snd
  | .sequence items => (index? segment).bind fun i => items[i]?
  | _ => none

/-- What a path of keys leads to. -/
def walk? : Yaml.Value → List String → Option Yaml.Value
  | v, [] => some v
  | v, segment :: path => (v.step? segment).bind fun w => w.walk? path

variable {v w : Yaml.Value}

/-! ## Tags are dropped -/

theorem untag_ne_tagged (v : Yaml.Value) (tag : String) (w : Yaml.Value) :
    v.untag ≠ .tagged tag w := by
  fun_induction untag v with
  | case1 _ _ ih => exact ih
  | case2 v h => exact fun heq => h tag w heq

theorem toTokens_untag (v : Yaml.Value) : v.untag.toTokens = v.toTokens := by
  fun_induction untag v with
  | case1 _ _ ih => rw [ih, toTokens]
  | case2 => rfl

theorem keyText?_eq_shown? (key : Yaml.Value) : key.keyText? = key.shown? := by
  unfold shown?
  fun_induction untag key with
  | case1 _ _ ih => rw [keyText?, ih]
  | case2 key h =>
    cases key with
    | tagged tag w => exact absurd rfl (h tag w)
    | _ => rfl

/-! ## One step -/

theorem itemsToTokens_eq_map (items : List Yaml.Value) :
    itemsToTokens items = items.map toTokens := by
  induction items with
  | nil => rfl
  | cons item rest ih => rw [itemsToTokens, ih, List.map_cons]

/-- The entries with keys that are written, as they are put into a group. -/
theorem entriesToTokens_eq (entries : List (Yaml.Value × Yaml.Value)) :
    entriesToTokens entries
      = entries.filterMap fun entry => entry.1.shown?.map fun key => (key, entry.2.toTokens) := by
  induction entries with
  | nil => rfl
  | cons entry rest ih =>
    obtain ⟨key, value⟩ := entry
    rw [entriesToTokens, keyText?_eq_shown?, ih]
    cases h : key.shown? with
    | none => rw [List.filterMap_cons_none (by rw [h]; rfl)]
    | some name => rw [List.filterMap_cons_some (by rw [h]; rfl)]

theorem keys_entriesToTokens (entries : List (Yaml.Value × Yaml.Value)) :
    (entriesToTokens entries).map Prod.fst = entries.filterMap fun entry => entry.1.shown? := by
  rw [entriesToTokens_eq, List.map_filterMap]
  refine List.filterMap_congr fun entry _ => ?_
  rw [Option.map_map]
  exact Option.map_id_fun' ▸ rfl

/-- Of the entries put into a group, those of one key are those written like it. -/
theorem filter_entriesToTokens (entries : List (Yaml.Value × Yaml.Value)) (segment : String) :
    (entriesToTokens entries).filter (fun entry => entry.1 == segment)
      = (entries.filter fun entry => entry.1.shown? == some segment).map fun entry =>
          (segment, entry.2.toTokens) := by
  induction entries with
  | nil => rfl
  | cons entry rest ih =>
    obtain ⟨key, value⟩ := entry
    rw [entriesToTokens, keyText?_eq_shown?]
    cases h : key.shown? with
    | none => rw [List.filter_cons_of_neg (by simp [h]), ih]
    | some name =>
      by_cases hname : name = segment
      · rw [List.filter_cons_of_pos (by simpa using hname), List.filter_cons_of_pos
          (by simpa [h] using hname), ih, List.map_cons, hname]
      · rw [List.filter_cons_of_neg (by simpa using hname), List.filter_cons_of_neg
          (by simpa [h] using hname), ih]

/-- **A key of a loaded value leads to what a step in the document comes to.** -/
theorem child?_toTokens (v : Yaml.Value) (segment : String) :
    v.toTokens.child? segment = (v.step? segment).map toTokens := by
  rw [← toTokens_untag]
  unfold step?
  cases h : v.untag with
  | mapping entries =>
    rw [toTokens]
    show Table.get? (Table.ofPairs (entriesToTokens entries)) segment = _
    rw [Table.get?_ofPairs, filter_entriesToTokens, List.getLast?_map, Option.map_map,
      Option.map_map]
    rfl
  | sequence items =>
    rw [toTokens, itemsToTokens_eq_map]
    show (index? segment).bind _ = _
    rw [Option.map_bind]
    simp only [List.getElem?_map]
    rfl
  | tagged tag w => exact absurd h (untag_ne_tagged v tag w)
  | _ => rfl

/-! ## Paths -/

/-- **A path in a loaded value leads to what the walk in the document comes to**, and nowhere
exactly if the walk comes to nothing. -/
theorem at?_toTokens (v : Yaml.Value) (path : List String) :
    v.toTokens.at? path = (v.walk? path).map toTokens := by
  induction path generalizing v with
  | nil => rfl
  | cons segment path ih =>
    rw [Value.at?, child?_toTokens, walk?, Option.map_bind, Option.bind_map]
    exact congrArg (v.step? segment).bind (funext ih)

/-- **The keys of a loaded group** are those of a mapping, each where it came first. -/
theorem keys_of_toTokens {group : List (String × DesignTokens.Value)}
    (h : w.toTokens = .group group) :
    ∃ entries, w.untag = .mapping entries
      ∧ Table.keys group = (entries.filterMap fun entry => entry.1.shown?).eraseDups
      ∧ (Table.keys group).Nodup := by
  rw [← toTokens_untag] at h
  cases hw : w.untag with
  | mapping entries =>
    rw [hw, toTokens] at h
    obtain rfl := Value.group.inj h
    refine ⟨entries, rfl, ?_, Table.nodup_keys_ofPairs _⟩
    rw [Table.keys_ofPairs, keys_entriesToTokens]
  | tagged tag inner => exact absurd hw (untag_ne_tagged w tag inner)
  | _ => rw [hw] at h; exact nomatch h

end DesignTokens.Yaml.Value

namespace DesignTokens.Tree

open Yaml.Value in
/--
**Loading commutes with following paths.**

A document whose root is a mapping, under whatever tags, is loaded. Every path leads in the tree to
the conversion of what the walk comes to in the document, and nowhere exactly if the walk comes to
nothing. A path that leads to a group in the tree comes to a mapping in the document, and the keys
of the group are the keys of the mapping as they are written, in the order of their first
occurrence and without repetition.
-/
theorem ofDocument_follows (document : Yaml.Value) {entries : List (Yaml.Value × Yaml.Value)}
    (hroot : document.untag = .mapping entries) :
    ∃ tree, ofDocument document = .ok tree
      ∧ (∀ path, tree.at? path = (document.walk? path).map toTokens)
      ∧ ∀ path group, tree.at? path = some (.group group) →
          ∃ below mapping, document.walk? path = some below ∧ below.untag = .mapping mapping
            ∧ Table.keys group = (mapping.filterMap fun entry => entry.1.shown?).eraseDups
            ∧ (Table.keys group).Nodup := by
  have htree : (ofPairs (entriesToTokens entries)).toValue = document.toTokens := by
    rw [← toTokens_untag document, hroot, toTokens]
    rfl
  have hat : ∀ path, (ofPairs (entriesToTokens entries)).at? path
      = (document.walk? path).map toTokens := by
    intro path
    unfold Tree.at?
    rw [htree, at?_toTokens]
  refine ⟨ofPairs (entriesToTokens entries), ?_, hat, fun path group hgroup => ?_⟩
  · unfold ofDocument
    rw [hroot]
  · rw [hat] at hgroup
    obtain ⟨below, hbelow, hgroup⟩ := Option.map_eq_some_iff.mp hgroup
    obtain ⟨mapping, hmapping, hkeys⟩ := keys_of_toTokens hgroup
    exact ⟨below, mapping, hbelow, hmapping, hkeys⟩

/-- A document with tags at its root, on a key and on a value, with a key that is a sequence, and
with three keys that are written alike. -/
def taggedDocument : Yaml.Value :=
  .tagged "!outer" (.tagged "!inner" (.mapping
    [(.number (.int 1), .text "first"),
      (.sequence [], .text "dropped"),
      (.bool true, .null),
      (.tagged "!key" (.text "1"), .sequence [.null, .text "second"]),
      (.text "1", .tagged "!list" (.sequence
        [.null, .mapping [(.null, .text "a"), (.text "null", .text "b")]]))]))

theorem ofDocument_follows_taggedDocument :
    ∃ entries tree, taggedDocument.untag = .mapping entries
      ∧ ofDocument taggedDocument = .ok tree
      ∧ Table.keys tree.entries = ["1", "true"]
      ∧ tree.at? ["1", "1", "null"] = some (.text "b")
      ∧ tree.at? ["1", "01"] = none := by
  obtain ⟨tree, hload, hat, hgroups⟩ := ofDocument_follows taggedDocument rfl
  obtain ⟨below, mapping, hbelow, hmapping, hkeys, -⟩ := hgroups [] tree.entries rfl
  obtain rfl := Option.some.inj hbelow
  obtain rfl := Yaml.Value.mapping.inj hmapping
  refine ⟨_, tree, rfl, hload, hkeys.trans (by decide +kernel), ?_, ?_⟩
  · rw [hat]
    rfl
  · rw [hat]
    rfl

end DesignTokens.Tree
