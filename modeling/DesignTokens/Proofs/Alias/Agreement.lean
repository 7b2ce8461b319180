import DesignTokens.Proofs.Alias.Report
import Mathlib.Data.List.Nodup

/-!
# Tables that agree

Resolution reads two things off the anchors of a text: the first definition of a name, when a
pointer is followed, and the traced value of its last definition, when a marker is replaced. Two
tables that agree on the names a line leads to resolve the line alike:

* `trace_of_agree`: a trace depends on the first definitions of the names that are pointed at;
* `resolveLine_of_agree`: a resolved line depends on the trace of its definition and on the table
  values of its markers;
* `first?_of_perm`, `tableValue?_of_perm`: where every name is defined once, the order of the definitions
  decides nothing.
-/

namespace DesignTokens.Alias

open Text

namespace Anchors

variable {anchors other : Anchors}

/-! ## Traces -/

/-- **A walk depends on the first definitions of the names that are pointed at.** -/
theorem follow_of_agree
    (hagree : ∀ b ∈ anchors, ∀ target, pointerTarget? b.value = some target →
      other.first? target = anchors.first? target)
    {chain : List (List Char)} {value : List Char}
    (hvalue : ∀ target, pointerTarget? value = some target →
      other.first? target = anchors.first? target) :
    other.follow chain value = anchors.follow chain value := by
  induction chain, value using follow.induct anchors with
  | case1 chain value h => rw [follow_of_literal h, follow_of_literal h]
  | case2 chain value target h hmem => rw [follow_of_mem h hmem, follow_of_mem h hmem]
  | case3 chain value target h hmem hdef =>
    rw [follow_of_new h hmem, follow_of_new h hmem, hvalue target h, hdef]
  | case4 chain value target h hmem next hdef ih =>
    rw [follow_of_new h hmem, follow_of_new h hmem, hvalue target h, hdef]
    obtain ⟨b, hb, -, rfl⟩ := mem_of_first? hdef
    exact ih (hagree b hb)

theorem trace_of_agree
    (hagree : ∀ b ∈ anchors, ∀ target, pointerTarget? b.value = some target →
      other.first? target = anchors.first? target)
    {a : Anchor} (ha : a ∈ anchors) : other.trace a = anchors.trace a :=
  follow_of_agree hagree (hagree a ha)

/-- Tables with the same first definitions trace everything alike. -/
theorem trace_of_first?_eq (hfirst : other.first? = anchors.first?) (a : Anchor) :
    other.trace a = anchors.trace a :=
  follow_of_agree (fun _ _ _ _ => by rw [hfirst]) fun _ _ => by rw [hfirst]

/-! ## Lines -/

/-- The traced value of the last definition of a name. -/
def tableValue? (anchors : Anchors) (name : List Char) : Option (List Char) :=
  (anchors.last? name).map fun a => (anchors.trace a).value

theorem isNone_tableValue? (name : List Char) :
    (anchors.tableValue? name).isNone = (anchors.last? name).isNone := by
  unfold tableValue?
  cases anchors.last? name <;> rfl

theorem markerValue_of_agree {name : List Char}
    (h : other.tableValue? name = anchors.tableValue? name) :
    other.markerValue name = anchors.markerValue name := by
  have hmap : ∀ table : Anchors,
      table.markerValue? name = (table.tableValue? name).map unquote := fun table => by
    unfold markerValue? tableValue?
    rw [Option.map_map]
    rfl
  unfold markerValue
  rw [hmap, hmap, h]

theorem settleDefinition_of_agree {line : List Char}
    (h : ∀ d, Definition.find? line = some d →
      other.trace ⟨d.name, d.value⟩ = anchors.trace ⟨d.name, d.value⟩) :
    other.settleDefinition line = anchors.settleDefinition line := by
  unfold settleDefinition
  split
  · rfl
  · rename_i d hd
    rw [h d hd]

/-- **A resolved line depends on the trace of its definition and on the table values of its
markers.** -/
theorem resolveLine_of_agree {line : List Char}
    (htrace : ∀ d, Definition.find? line = some d →
      other.trace ⟨d.name, d.value⟩ = anchors.trace ⟨d.name, d.value⟩)
    (htable : ∀ name ∈ markerNames (anchors.settleDefinition line),
      other.tableValue? name = anchors.tableValue? name) :
    other.resolveLine line = anchors.resolveLine line := by
  unfold resolveLine
  rw [settleDefinition_of_agree htrace]
  exact substitute_congr fun name hname => markerValue_of_agree (htable name hname)

/-- The problems of markers depend on the same table. -/
theorem undefinedMarkers_of_agree {text : List Char}
    (htable : ∀ name ∈ markerNames text, other.tableValue? name = anchors.tableValue? name) :
    other.undefinedMarkers text = anchors.undefinedMarkers text := by
  unfold undefinedMarkers
  refine List.filter_congr fun name hname => ?_
  rw [← isNone_tableValue?, htable name hname, isNone_tableValue?]

/-! ## Names that are defined once -/

theorem first?_eq_some_iff (hunique : (anchors.map Anchor.name).Nodup) {name value : List Char} :
    anchors.first? name = some value ↔ ⟨name, value⟩ ∈ anchors := by
  constructor
  · intro h
    obtain ⟨a, ha, hname, hvalue⟩ := mem_of_first? h
    rwa [← hname, ← hvalue]
  · intro h
    cases hfirst : anchors.first? name with
    | none =>
      have hnone := List.find?_eq_none.mp (Option.map_eq_none_iff.mp hfirst) _ h
      exact absurd (decide_eq_true rfl) hnone
    | some v =>
      obtain ⟨a, ha, hname, hvalue⟩ := mem_of_first? hfirst
      -- two definitions of one name are one definition
      have hsame : a = ⟨name, value⟩ := List.inj_on_of_nodup_map hunique ha h hname
      rw [← hvalue, hsame]

theorem last?_eq_some_iff (hunique : (anchors.map Anchor.name).Nodup) {name : List Char}
    {a : Anchor} : anchors.last? name = some a ↔ a ∈ anchors ∧ a.name = name := by
  constructor
  · intro h
    exact ⟨mem_of_last? h, by simpa using List.find?_some h⟩
  · rintro ⟨ha, rfl⟩
    obtain ⟨earlier, later, rfl⟩ := List.append_of_mem ha
    rw [List.map_append, List.map_cons] at hunique
    have hlater := (List.nodup_cons.mp hunique.of_append_right).1
    exact last?_append_cons fun b hb hname => hlater (hname ▸ List.mem_map_of_mem hb)

section Perm

variable (hperm : other.Perm anchors) (hunique : (anchors.map Anchor.name).Nodup)

include hperm hunique

theorem first?_of_perm : other.first? = anchors.first? := by
  have hunique' : (other.map Anchor.name).Nodup := (hperm.map _).nodup_iff.mpr hunique
  funext name
  refine Option.ext fun value => ?_
  rw [first?_eq_some_iff hunique', first?_eq_some_iff hunique, hperm.mem_iff]

theorem last?_of_perm : other.last? = anchors.last? := by
  have hunique' : (other.map Anchor.name).Nodup := (hperm.map _).nodup_iff.mpr hunique
  funext name
  refine Option.ext fun a => ?_
  rw [last?_eq_some_iff hunique', last?_eq_some_iff hunique, hperm.mem_iff]

theorem tableValue?_of_perm : other.tableValue? = anchors.tableValue? := by
  funext name
  unfold tableValue?
  rw [last?_of_perm hperm hunique]
  exact congrArg (Option.map · _)
    (funext fun a => by rw [trace_of_first?_eq (first?_of_perm hperm hunique)])

end Perm

end Anchors

end DesignTokens.Alias
