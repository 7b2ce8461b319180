import DesignTokens.Proofs.Json.RoundTrip
import DesignTokens.Tree.Outline

/-!
# The leaves of a JSON document

A datum that is neither an array nor an object is a leaf. Its path is made of the keys of objects
and of the indices of arrays, counted from zero. The datum of a tree has the leaves of the tree, in
order and under the same paths (`leavesOfMembers_memberDatums`), although it is walked by itself and
knows nothing of outlines.
-/

namespace DesignTokens.Json

/-- A part of a document that has no parts, with the keys and indices that lead to it. -/
structure DatumLeaf where
  path : List String
  datum : Datum

/-- The leaf one level further down, under a key. -/
def DatumLeaf.under (key : String) (l : DatumLeaf) : DatumLeaf :=
  { l with path := key :: l.path }

mutual

/-- The leaves of a datum in order. -/
def Datum.leaves : Datum → List DatumLeaf
  | .array items => Datum.leavesOfItems 0 items
  | .object members => Datum.leavesOfMembers members
  | .null => [⟨[], .null⟩]
  | .bool b => [⟨[], .bool b⟩]
  | .number q => [⟨[], .number q⟩]
  | .string s => [⟨[], .string s⟩]

/-- The leaves of array items, keyed by their indices from `i` on. -/
def Datum.leavesOfItems (i : Nat) : List Datum → List DatumLeaf
  | [] => []
  | datum :: rest =>
    datum.leaves.map (DatumLeaf.under (indexKey i)) ++ Datum.leavesOfItems (i + 1) rest

/-- The leaves of object members, each under its key. -/
def Datum.leavesOfMembers : List (String × Datum) → List DatumLeaf
  | [] => []
  | (key, datum) :: rest =>
    datum.leaves.map (DatumLeaf.under key) ++ Datum.leavesOfMembers rest

end

/-- A leaf of a tree as a leaf of a document. -/
def DatumLeaf.ofLeaf (l : Leaf) : DatumLeaf :=
  ⟨l.path, scalarDatum l.scalar⟩

theorem leavesOfMembers_append (members more : List (String × Datum)) :
    Datum.leavesOfMembers (members ++ more)
      = Datum.leavesOfMembers members ++ Datum.leavesOfMembers more := by
  induction members with
  | nil => rfl
  | cons entry members ih =>
    obtain ⟨key, datum⟩ := entry
    rw [List.cons_append, Datum.leavesOfMembers, Datum.leavesOfMembers, ih, List.append_assoc]

theorem memberDatums_append (entries more : List (String × Value)) :
    memberDatums (entries ++ more) = memberDatums entries ++ memberDatums more := by
  induction entries with
  | nil => rfl
  | cons entry entries ih =>
    obtain ⟨key, value⟩ := entry
    rw [List.cons_append, memberDatums, memberDatums, ih, List.cons_append]

/-- A scalar is a leaf of a document, too. -/
theorem leaves_scalarDatum (s : Scalar) : (scalarDatum s).leaves = [⟨[], scalarDatum s⟩] := by
  cases s with
  | text s => rfl
  | bool b => rfl
  | null => rfl
  | number n =>
    cases n with
    | int n => rfl
    | float x =>
      show (numberDatum (.float x)).leaves = [⟨[], numberDatum (.float x)⟩]
      unfold numberDatum
      dsimp only
      split <;> rfl

/-- Going one level down commutes with reading leaves as those of a document. -/
theorem map_under_ofLeaf (key : String) (leaves : List Leaf) :
    (leaves.map DatumLeaf.ofLeaf).map (DatumLeaf.under key)
      = (leaves.map (Leaf.under key)).map DatumLeaf.ofLeaf := by
  rw [List.map_map, List.map_map]
  rfl

mutual

theorem leaves_valueDatum : ∀ v : Value,
    (valueDatum v).leaves = v.outline.leaves.map DatumLeaf.ofLeaf
  | .leaf s => leaves_scalarDatum s
  | .group entries => leavesOfMembers_memberDatums entries
  | .list items => leavesOfItems_itemDatums 0 items

theorem leavesOfItems_itemDatums : ∀ (i : Nat) (items : List Value),
    Datum.leavesOfItems i (itemDatums items)
      = (Outline.leavesOf (Value.outlineItems i items)).map DatumLeaf.ofLeaf
  | _, [] => rfl
  | i, value :: rest => by
    rw [itemDatums, Datum.leavesOfItems, Value.outlineItems, Outline.leavesOf, List.map_append,
      leaves_valueDatum value, leavesOfItems_itemDatums (i + 1) rest, map_under_ofLeaf]

/-- **The leaves of an object are those of the entries it is made of.** -/
theorem leavesOfMembers_memberDatums : ∀ entries : List (String × Value),
    Datum.leavesOfMembers (memberDatums entries)
      = (Outline.leavesOf (Value.outlineEntries entries)).map DatumLeaf.ofLeaf
  | [] => rfl
  | (key, value) :: rest => by
    rw [memberDatums, Datum.leavesOfMembers, Value.outlineEntries, Outline.leavesOf,
      List.map_append, leaves_valueDatum value, leavesOfMembers_memberDatums rest,
      map_under_ofLeaf]

end

end DesignTokens.Json
