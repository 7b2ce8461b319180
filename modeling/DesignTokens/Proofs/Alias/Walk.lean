import DesignTokens.Proofs.Alias.Trace
import Mathlib.Data.List.Nodup

/-!
# Walks that end and walks that go on

Every value has at most one pointer and every name at most one first definition, so a walk has no
choice. This file is about where that leads, without the chain that a trace keeps:

* `Walk.exists_of_append` and `Walk.append`: walks are cut and joined;
* `Walk.exists_of_stuck`: a walk that cannot go on has every other walk from its value in front;
* `endless_of_loop`: a walk that comes back never ends;
* `Walk.nodup`: so a walk that leads to an end meets no name twice.
-/

namespace DesignTokens.Alias

namespace Anchors

/-- The value that the pointer of a value leads to, if it is a pointer to a name that is defined. -/
def next? (anchors : Anchors) (value : List Char) : Option (List Char) :=
  (pointerTarget? value).bind anchors.first?

/-- Every walk from a value can go on: it never comes to a value that is not a pointer, nor to a
name that nothing defines. -/
def Endless (anchors : Anchors) (value : List Char) : Prop :=
  ∀ names last, Walk anchors value names last → (anchors.next? last).isSome

/-- Following a value meets a name. -/
def Meets (anchors : Anchors) (value name : List Char) : Prop :=
  ∃ names last, Walk anchors value names last ∧ pointerTarget? last = some name

variable {anchors : Anchors} {value last last' between : List Char}
  {names names' front back : List (List Char)}

theorem next?_of_target {target : List Char} (h : pointerTarget? value = some target) :
    anchors.next? value = anchors.first? target := by
  unfold next?
  rw [h, Option.bind_some]

theorem next?_of_literal (h : pointerTarget? value = none) : anchors.next? value = none := by
  unfold next?
  rw [h, Option.bind_none]

/-! ## Cutting and joining -/

theorem Walk.append (h : Walk anchors value front between) (h' : Walk anchors between back last) :
    Walk anchors value (front ++ back) last := by
  induction h with
  | stay value => exact h'
  | step htarget hdef _ ih => exact .step htarget hdef (ih h')

theorem Walk.exists_of_append (h : Walk anchors value (front ++ back) last) :
    ∃ between, Walk anchors value front between ∧ Walk anchors between back last := by
  induction front generalizing value with
  | nil => exact ⟨value, .stay value, h⟩
  | cons target front ih =>
    cases h with
    | step htarget hdef hrest =>
      obtain ⟨between, hfront, hback⟩ := ih hrest
      exact ⟨between, .step htarget hdef hfront, hback⟩

/-- A walk ends with the value of the name it meets last. -/
theorem Walk.first?_of_concat {target : List Char}
    (h : Walk anchors value (front ++ [target]) last) : anchors.first? target = some last := by
  obtain ⟨between, -, hlast⟩ := h.exists_of_append
  cases hlast with
  | step _ hdef hnil =>
    cases hnil
    exact hdef

/-- Of a walk that meets names, the first one is that of the pointer it begins with. -/
theorem Walk.pointerTarget?_of_cons {target : List Char}
    (h : Walk anchors value (target :: names) last) : pointerTarget? value = some target := by
  cases h with
  | step htarget _ _ => exact htarget

/-! ## Walks from one value -/

/-- A walk from a value that leads nowhere stays there. -/
theorem Walk.eq_of_stuck (h : Walk anchors value names last) (hstuck : anchors.next? value = none) :
    names = [] ∧ last = value := by
  cases h with
  | stay value => exact ⟨rfl, rfl⟩
  | step htarget hdef _ =>
    rw [next?_of_target htarget, hdef] at hstuck
    exact absurd hstuck (by simp)

/-- **Of two walks from one value, one goes on where the other one ends.** -/
theorem Walk.comparable (h : Walk anchors value names last) (h' : Walk anchors value names' last') :
    (∃ more, names' = names ++ more ∧ Walk anchors last more last')
    ∨ ∃ more, names = names' ++ more ∧ Walk anchors last' more last := by
  induction h generalizing names' with
  | stay value => exact Or.inl ⟨names', rfl, h'⟩
  | @step value target next last names htarget hdef hrest ih =>
    cases h' with
    | stay => exact Or.inr ⟨target :: names, rfl, .step htarget hdef hrest⟩
    | @step _ target' next' _ names' htarget' hdef' hrest' =>
      -- both take the same pointer to the same definition
      obtain rfl : target = target' := Option.some.inj (htarget.symm.trans htarget')
      obtain rfl : next = next' := Option.some.inj (hdef.symm.trans hdef')
      rcases ih hrest' with ⟨more, rfl, hmore⟩ | ⟨more, rfl, hmore⟩
      · exact Or.inl ⟨more, rfl, hmore⟩
      · exact Or.inr ⟨more, rfl, hmore⟩

/-- A walk that cannot go on begins with every walk from its value. -/
theorem Walk.exists_of_stuck (h : Walk anchors value names last)
    (hstuck : anchors.next? last = none) (h' : Walk anchors value names' last') :
    ∃ more, names = names' ++ more ∧ Walk anchors last' more last := by
  rcases h.comparable h' with ⟨more, rfl, hmore⟩ | hmore
  · obtain ⟨rfl, rfl⟩ := hmore.eq_of_stuck hstuck
    exact ⟨[], by rw [List.append_nil, List.append_nil], .stay last'⟩
  · exact hmore

/-- There is at most one walk that cannot go on. -/
theorem Walk.unique_of_stuck (h : Walk anchors value names last)
    (hstuck : anchors.next? last = none) (h' : Walk anchors value names' last')
    (hstuck' : anchors.next? last' = none) : names' = names ∧ last' = last := by
  obtain ⟨more, rfl, hmore⟩ := h.exists_of_stuck hstuck h'
  obtain ⟨rfl, rfl⟩ := hmore.eq_of_stuck hstuck'
  exact ⟨(List.append_nil names').symm, rfl⟩

/-! ## Walks that come back -/

theorem Endless.of_walk (h : Endless anchors between) (hwalk : Walk anchors value front between) :
    Endless anchors value := by
  intro names last hlast
  by_contra hstuck
  obtain ⟨more, rfl, hmore⟩ :=
    hlast.exists_of_stuck (Option.not_isSome_iff_eq_none.mp hstuck) hwalk
  exact hstuck (h more last hmore)

/-- **A walk that comes back to its value never ends.** -/
theorem endless_of_loop (h : Walk anchors value names value) (hne : names ≠ []) :
    Endless anchors value := by
  intro round last hround
  by_contra hstuck
  rw [Option.not_isSome_iff_eq_none] at hstuck
  have hpos := List.length_pos_iff.mpr hne
  -- a walk that cannot go on begins with the loop, and what is left of it is a shorter one
  induction hlength : round.length using Nat.strongRecOn generalizing round with
  | ind n ih =>
    obtain ⟨more, rfl, hmore⟩ := hround.exists_of_stuck hstuck h
    refine ih more.length ?_ more hmore rfl
    rw [← hlength, List.length_append]
    omega

/-- A walk that is at a name it has met before never ends. -/
theorem endless_of_mem {target : List Char} (h : Walk anchors value names last)
    (htarget : pointerTarget? last = some target) (hmem : target ∈ names) :
    Endless anchors value := by
  obtain ⟨before, after, rfl⟩ := List.append_of_mem hmem
  rw [List.append_cons] at h
  obtain ⟨again, hbefore, hafter⟩ := h.exists_of_append
  -- the loop is the way from the first meeting to the second one
  have hdef := hbefore.first?_of_concat
  have hclose : Walk anchors again (after ++ [target]) again :=
    hafter.append (.step htarget hdef (.stay again))
  exact (endless_of_loop hclose (by simp)).of_walk hbefore

theorem not_endless_of_stuck (h : Walk anchors value names last)
    (hstuck : anchors.next? last = none) : ¬ Endless anchors value := by
  intro hendless
  have hgoes := hendless names last h
  rw [hstuck] at hgoes
  exact absurd hgoes (by simp)

/-- **A walk from a value that leads to an end meets no name twice.** -/
theorem Walk.nodup (h : Walk anchors value names last) (hends : ¬ Endless anchors value) :
    names.Nodup := by
  induction names using List.reverseRecOn generalizing last with
  | nil => exact List.nodup_nil
  | append_singleton names target ih =>
    obtain ⟨between, hfront, hlast⟩ := h.exists_of_append
    rw [← List.concat_eq_append, List.nodup_concat]
    exact ⟨fun hmem => hends (endless_of_mem hfront hlast.pointerTarget?_of_cons hmem), ih hfront⟩

end Anchors

end DesignTokens.Alias
