import DesignTokens.Proofs.Alias.Report
import DesignTokens.Proofs.Alias.Agreement
import DesignTokens.Proofs.Alias.Walk
import Mathlib.Data.List.Chain
import Mathlib.Data.List.Perm.Subperm

/-!
# How a trace ends

The trace of a definition follows names that differ from each other and from the definition's own
name, so there are fewer of them than names that are defined. It stops at a literal value, at a name
that nothing defines, or at a name it knows already.

The own name of a definition counts among the known ones. Pointers lead to first definitions,
though, so a later definition of a name may come to its own name without ever coming back to itself.

* `followWithin_nameCount`: how many pointers a trace reads;
* `trace_classified`: the three ways to end, of which each definition has one;
* `reportsCycle_iff`: a cycle is reported if the walk never ends, and also if it meets the
  definition's own name;
* `cycle_endless_iff`: so of first definitions only true cycles are reported, but not of later ones.
-/

namespace DesignTokens.Alias

namespace Anchors

/-- Follow a value through first definitions, behind a chain of names, if that takes no more than
the given number of pointers. -/
def followWithin (anchors : Anchors) : Nat → List (List Char) → List Char → Option Trace
  | 0, _, value => if (pointerTarget? value).isSome then none else some (.literal value)
  | pointers + 1, chain, value =>
    match pointerTarget? value with
    | none => some (.literal value)
    | some target =>
      if target ∈ chain then some (.cycle (chain ++ [target]))
      else
        match anchors.first? target with
        | none => some (.missing target)
        | some next => followWithin anchors pointers (chain ++ [target]) next

/-- What stops a trace. -/
inductive Ending where
  | literal (value : List Char)
  | missing (target : List Char)
  | cyclic (target : List Char)

/-- What stops the trace of a definition when it has followed the given names, all of them different
from each other and from the definition's own name. -/
def StopsAt (anchors : Anchors) (a : Anchor) (names : List (List Char)) : Ending → Prop
  | .literal value =>
    anchors.Walk a.value names value ∧ (a.name :: names).Nodup ∧ pointerTarget? value = none
  | .missing target =>
    ∃ last, anchors.Walk a.value names last ∧ (a.name :: names).Nodup
      ∧ pointerTarget? last = some target ∧ anchors.first? target = none
  | .cyclic target =>
    ∃ last, anchors.Walk a.value names last ∧ (a.name :: names).Nodup
      ∧ pointerTarget? last = some target ∧ target ∈ a.name :: names

variable {anchors : Anchors} {a : Anchor} {value last : List Char} {names chain : List (List Char)}

/-! ## Names that are followed -/

theorem first?_ne_none_of_mem {name : List Char} (ha : a ∈ anchors) (hname : a.name = name) :
    anchors.first? name ≠ none := by
  intro hnone
  have hfree := List.find?_eq_none.mp (Option.map_eq_none_iff.mp hnone) a ha
  exact hfree (decide_eq_true hname)

/-- The names that a definition follows and its own one are names that are defined. -/
theorem Walk.length_lt_nameCount (h : Walk anchors a.value names last) (ha : a ∈ anchors)
    (hnodup : (a.name :: names).Nodup) : names.length < anchors.nameCount := by
  have hdefined : a.name :: names ⊆ (anchors.map Anchor.name).eraseDups := by
    intro name hname
    rw [List.mem_eraseDups]
    rcases List.mem_cons.mp hname with rfl | hname
    · exact List.mem_map_of_mem ha
    · obtain ⟨b, hb, rfl⟩ := h.mem_names name hname
      exact List.mem_map_of_mem hb
  exact (hnodup.subperm hdefined).length_le

/-- Each name that is followed points at the next one. -/
theorem Walk.isChain_concat {target : List Char} (h : Walk anchors value names last)
    (htarget : pointerTarget? last = some target) :
    (names ++ [target]).head? = pointerTarget? value
    ∧ List.IsChain (fun name next => (anchors.first? name).bind pointerTarget? = some next)
        (names ++ [target]) := by
  induction h with
  | stay value => exact ⟨htarget.symm, List.isChain_singleton target⟩
  | @step value name next last names hname hdef _ ih =>
    obtain ⟨hhead, hchain⟩ := ih htarget
    refine ⟨hname.symm, List.isChain_cons.mpr ⟨fun second hsecond => ?_, hchain⟩⟩
    rw [hdef, Option.bind_some, ← hhead]
    exact hsecond

/-! ## The end of a trace -/

/-- The trace that an ending means. -/
def Ending.trace (a : Anchor) (names : List (List Char)) : Ending → Trace
  | literal value => .literal value
  | missing target => .missing target
  | cyclic target => .cycle (a.name :: names ++ [target])

theorem exists_stopsAt (anchors : Anchors) (a : Anchor) :
    ∃ names ending, anchors.StopsAt a names ending := by
  have hends := ends_follow anchors [a.name] a.value
  generalize anchors.follow [a.name] a.value = t at hends
  have hnodup : ∀ names : List (List Char), names.Nodup → (∀ n ∈ names, n ∉ [a.name]) →
      (a.name :: names).Nodup := fun names hn hout =>
    List.nodup_cons.mpr ⟨fun hm => hout _ hm (List.mem_singleton_self _), hn⟩
  cases hends with
  | literal hwalk hn hout hlast => exact ⟨_, .literal _, hwalk, hnodup _ hn hout, hlast⟩
  | missing hwalk hn hout hlast _ hnone =>
    exact ⟨_, .missing _, _, hwalk, hnodup _ hn hout, hlast, hnone⟩
  | cycle hwalk hn hout hlast hmem =>
    exact ⟨_, .cyclic _, _, hwalk, hnodup _ hn hout, hlast, hmem⟩

/-- **What stops the trace of a definition is what the trace is.** -/
theorem trace_of_stopsAt {ending : Ending} (ha : a ∈ anchors)
    (h : anchors.StopsAt a names ending) : anchors.trace a = ending.trace a names := by
  have hout : (a.name :: names).Nodup → ∀ n ∈ names, n ∉ [a.name] := fun hnodup n hn hown =>
    (List.nodup_cons.mp hnodup).1 (List.mem_singleton.mp hown ▸ hn)
  unfold trace
  rw [follow_eq_iff_ends]
  cases ending with
  | literal value =>
    obtain ⟨hwalk, hnodup, hlast⟩ := h
    exact .literal hwalk (List.nodup_cons.mp hnodup).2 (hout hnodup) hlast
  | missing target =>
    obtain ⟨last, hwalk, hnodup, hlast, hnone⟩ := h
    refine .missing hwalk (List.nodup_cons.mp hnodup).2 (hout hnodup) hlast (fun hmem => ?_) hnone
    -- what is followed is defined
    rcases List.mem_append.mp hmem with hmem | hmem
    · exact first?_ne_none_of_mem ha (List.mem_singleton.mp hmem).symm hnone
    · obtain ⟨b, hb, hname⟩ := hwalk.mem_names target hmem
      exact first?_ne_none_of_mem hb hname hnone
  | cyclic target =>
    obtain ⟨last, hwalk, hnodup, hlast, hmem⟩ := h
    exact .cycle hwalk (List.nodup_cons.mp hnodup).2 (hout hnodup) hlast hmem

theorem StopsAt.unique {names' : List (List Char)} {ending ending' : Ending} (ha : a ∈ anchors)
    (h : anchors.StopsAt a names ending) (h' : anchors.StopsAt a names' ending') :
    names' = names ∧ ending' = ending := by
  have hsame := (trace_of_stopsAt ha h').symm.trans (trace_of_stopsAt ha h)
  cases ending <;> cases ending' <;> simp only [Ending.trace, reduceCtorEq] at hsame
  case literal.literal value value' =>
    obtain ⟨hwalk, -, hlast⟩ := h
    obtain ⟨hwalk', -, hlast'⟩ := h'
    obtain ⟨rfl, rfl⟩ := hwalk.unique_of_stuck (next?_of_literal hlast) hwalk'
      (next?_of_literal hlast')
    exact ⟨rfl, rfl⟩
  case missing.missing target target' =>
    obtain ⟨last, hwalk, -, hlast, hnone⟩ := h
    obtain ⟨last', hwalk', -, hlast', hnone'⟩ := h'
    rw [← next?_of_target hlast] at hnone
    rw [← next?_of_target hlast'] at hnone'
    obtain ⟨rfl, rfl⟩ := hwalk.unique_of_stuck hnone hwalk' hnone'
    exact ⟨rfl, congrArg Ending.missing (Option.some.inj (hlast'.symm.trans hlast))⟩
  case cyclic.cyclic target target' =>
    have hnames := List.append_inj' (Trace.cycle.inj hsame) rfl
    exact ⟨(List.cons.inj hnames.1).2, congrArg Ending.cyclic (List.cons.inj hnames.2).1⟩

/-! ## How many pointers a trace reads -/

theorem followWithin_add_one (anchors : Anchors) (pointers : Nat) (chain : List (List Char))
    (value : List Char) :
    anchors.followWithin (pointers + 1) chain value =
      match pointerTarget? value with
      | none => some (.literal value)
      | some target =>
        if target ∈ chain then some (.cycle (chain ++ [target]))
        else
          match anchors.first? target with
          | none => some (.missing target)
          | some next => anchors.followWithin pointers (chain ++ [target]) next :=
  rfl

theorem followWithin_of_literal (h : pointerTarget? value = none) (pointers : Nat)
    (chain : List (List Char)) :
    anchors.followWithin pointers chain value = some (.literal value) := by
  cases pointers with
  | zero => exact if_neg (by rw [h]; decide)
  | succ pointers => rw [followWithin_add_one, h]

theorem followWithin_succ {target : List Char} (h : pointerTarget? value = some target)
    (pointers : Nat) (chain : List (List Char)) :
    anchors.followWithin (pointers + 1) chain value =
      if target ∈ chain then some (.cycle (chain ++ [target]))
      else
        match anchors.first? target with
        | none => some (.missing target)
        | some next => anchors.followWithin pointers (chain ++ [target]) next := by
  rw [followWithin_add_one, h]

theorem followWithin_of_walk (h : Walk anchors value names last) (hnodup : (chain ++ names).Nodup)
    (pointers : Nat) :
    anchors.followWithin (pointers + names.length) chain value
      = anchors.followWithin pointers (chain ++ names) last := by
  induction h generalizing chain with
  | stay value => rw [List.append_nil]; rfl
  | @step value target next last names htarget hdef _ ih =>
    have hnew : target ∉ chain := fun hmem =>
      List.disjoint_of_nodup_append hnodup hmem List.mem_cons_self
    rw [List.append_cons] at hnodup ⊢
    rw [List.length_cons, ← Nat.add_assoc, followWithin_succ htarget, if_neg hnew, hdef]
    exact ih hnodup

/-- **A trace reads no more pointers than there are names defined.** -/
theorem followWithin_nameCount (ha : a ∈ anchors) :
    anchors.followWithin anchors.nameCount [a.name] a.value = some (anchors.trace a) := by
  obtain ⟨names, ending, h⟩ := exists_stopsAt anchors a
  rw [trace_of_stopsAt ha h]
  -- a pointer is left for the name behind those that are followed
  have hreach : ∀ last, Walk anchors a.value names last → (a.name :: names).Nodup →
      ∃ left, anchors.followWithin anchors.nameCount [a.name] a.value
        = anchors.followWithin (left + 1) (a.name :: names) last := by
    intro last hwalk hnodup
    obtain ⟨left, hleft⟩ := Nat.exists_eq_add_of_lt (hwalk.length_lt_nameCount ha hnodup)
    have hcount : anchors.nameCount = left + 1 + names.length := by omega
    exact ⟨left, by rw [hcount]; exact followWithin_of_walk hwalk hnodup (left + 1)⟩
  cases ending with
  | literal value =>
    obtain ⟨hwalk, hnodup, hlast⟩ := h
    obtain ⟨left, hleft⟩ := hreach value hwalk hnodup
    rw [hleft, followWithin_of_literal hlast]
    rfl
  | missing target =>
    obtain ⟨last, hwalk, hnodup, hlast, hnone⟩ := h
    obtain ⟨left, hleft⟩ := hreach last hwalk hnodup
    have hnew : target ∉ a.name :: names := fun hmem => by
      rcases List.mem_cons.mp hmem with hmem | hmem
      · exact first?_ne_none_of_mem ha hmem.symm hnone
      · obtain ⟨b, hb, hname⟩ := hwalk.mem_names target hmem
        exact first?_ne_none_of_mem hb hname hnone
    rw [hleft, followWithin_succ hlast, if_neg hnew, hnone]
    rfl
  | cyclic target =>
    obtain ⟨last, hwalk, hnodup, hlast, hmem⟩ := h
    obtain ⟨left, hleft⟩ := hreach last hwalk hnodup
    rw [hleft, followWithin_succ hlast, if_pos hmem]
    rfl

/-! ## Cycles -/

/-- The first definition of a name that is met by following it never ends. -/
theorem Meets.endless (h : anchors.Meets a.value a.name)
    (hfirst : anchors.first? a.name = some a.value) : anchors.Endless a.value := by
  obtain ⟨names, last, hwalk, htarget⟩ := h
  exact endless_of_loop (hwalk.append (.step htarget hfirst (.stay a.value))) (by simp)

theorem exists_cyclic_iff (ha : a ∈ anchors) :
    (∃ names target, anchors.StopsAt a names (.cyclic target))
      ↔ anchors.Endless a.value ∨ anchors.Meets a.value a.name := by
  constructor
  · rintro ⟨names, target, last, hwalk, -, hlast, hmem⟩
    rcases List.mem_cons.mp hmem with rfl | hmem
    · exact Or.inr ⟨names, last, hwalk, hlast⟩
    · exact Or.inl (endless_of_mem hwalk hlast hmem)
  · intro h
    obtain ⟨names, ending, hstop⟩ := exists_stopsAt anchors a
    -- a walk that ends is not endless, and it does not meet the own name on its way or at its end
    have hends : ∀ last, Walk anchors a.value names last → (a.name :: names).Nodup →
        anchors.next? last = none → pointerTarget? last = some a.name := by
      intro last hwalk hnodup hstuck
      rcases h with h | ⟨names', last', hwalk', htarget⟩
      · exact absurd h (not_endless_of_stuck hwalk hstuck)
      · obtain ⟨more, rfl, hmore⟩ := hwalk.exists_of_stuck hstuck hwalk'
        cases hmore with
        | stay => exact htarget
        | step hnext _ _ =>
          obtain rfl := Option.some.inj (hnext.symm.trans htarget)
          exact absurd (List.mem_append_right _ List.mem_cons_self) (List.nodup_cons.mp hnodup).1
    cases ending with
    | cyclic target => exact ⟨names, target, hstop⟩
    | literal value =>
      obtain ⟨hwalk, hnodup, hlast⟩ := hstop
      have hown := hends value hwalk hnodup (next?_of_literal hlast)
      rw [hlast] at hown
      exact absurd hown (by simp)
    | missing target =>
      obtain ⟨last, hwalk, hnodup, hlast, hnone⟩ := hstop
      have hown := hends last hwalk hnodup (by rw [next?_of_target hlast, hnone])
      obtain rfl := Option.some.inj (hlast.symm.trans hown)
      exact absurd hnone (first?_ne_none_of_mem ha rfl)

/-- A definition gets the placeholder of a cycle, and the cycle is reported. -/
def ReportsCycle (anchors : Anchors) (a : Anchor) : Prop :=
  ∃ chain, (anchors.trace a).value = Trace.cyclicValue chain
    ∧ (anchors.trace a).diagnostic? = some (.cyclicAnchorChain (chain.map String.ofList))

theorem reportsCycle_iff (ha : a ∈ anchors) :
    anchors.ReportsCycle a ↔ anchors.Endless a.value ∨ anchors.Meets a.value a.name := by
  rw [← exists_cyclic_iff ha]
  constructor
  · rintro ⟨chain, -, hproblem⟩
    obtain ⟨names, ending, h⟩ := exists_stopsAt anchors a
    rw [trace_of_stopsAt ha h] at hproblem
    cases ending with
    | literal value => exact absurd hproblem (by simp [Ending.trace, Trace.diagnostic?])
    | missing target => exact absurd hproblem (by simp [Ending.trace, Trace.diagnostic?])
    | cyclic target => exact ⟨names, target, h⟩
  · rintro ⟨names, target, h⟩
    unfold ReportsCycle
    rw [trace_of_stopsAt ha h]
    exact ⟨a.name :: names ++ [target], rfl, rfl⟩

end Anchors

/-! ## The definitions of a text -/

section Text

open Anchors

variable {raw : String} {anchors : Anchors} {a : Anchor}

/--
**A trace has one of three ends.**

Take a definition of a text, and follow its pointers through first definitions. This reads no more
pointers than there are names defined. It stops for one reason and at one place: the names followed
until then are defined, differ from each other and are not the definition's own, and what comes next
is a literal value, a name that nothing defines, or a name met before. The value and the problem are
as the reason says. In a cycle every name of the chain points at the next one, and only the last one
stands there twice. If every name is defined once, the cycles are the walks without an end.
-/
theorem trace_classified (htext : ofText raw.toList = anchors) (ha : a ∈ anchors) :
    (resolve raw).definitionProblems = anchors.filterMap (fun b => (anchors.trace b).diagnostic?)
    ∧ anchors.followWithin anchors.nameCount [a.name] a.value = some (anchors.trace a)
    ∧ (∃! stop : List (List Char) × Ending, anchors.StopsAt a stop.1 stop.2)
    ∧ (∀ names value, anchors.StopsAt a names (.literal value) →
        (anchors.trace a).value = value ∧ (anchors.trace a).diagnostic? = none)
    ∧ (∀ names target, anchors.StopsAt a names (.missing target) →
        (anchors.trace a).value = "CANNOT FIND VALUE FOR ".toList ++ target
        ∧ (anchors.trace a).diagnostic? = some (.unresolvedAlias (String.ofList target)))
    ∧ (∀ names target, anchors.StopsAt a names (.cyclic target) →
        (anchors.trace a).value = "CYCLIC REFERENCE FOR ".toList
            ++ " -> ".toList.intercalate (a.name :: names ++ [target])
        ∧ (anchors.trace a).diagnostic?
            = some (.cyclicAnchorChain ((a.name :: names ++ [target]).map String.ofList))
        ∧ (names ++ [target]).head? = pointerTarget? a.value
        ∧ List.IsChain (fun name next => (anchors.first? name).bind pointerTarget? = some next)
            (names ++ [target])
        ∧ (a.name :: names).Nodup ∧ target ∈ a.name :: names)
    ∧ ((anchors.map Anchor.name).Nodup →
        ((∃ names target, anchors.StopsAt a names (.cyclic target))
          ↔ anchors.Endless a.value)) := by
  refine ⟨?_, followWithin_nameCount ha, ?_, ?_, ?_, ?_, fun hunique => ?_⟩
  · rw [definitionProblems_resolve, htext]
    unfold definitionProblems
    rw [htext]
  · obtain ⟨names, ending, h⟩ := exists_stopsAt anchors a
    refine ⟨(names, ending), h, fun stop hstop => ?_⟩
    obtain ⟨hnames, hending⟩ := h.unique ha hstop
    exact Prod.ext hnames hending
  · intro names value h
    rw [trace_of_stopsAt ha h]
    exact ⟨rfl, rfl⟩
  · intro names target h
    rw [trace_of_stopsAt ha h]
    exact ⟨rfl, rfl⟩
  · intro names target h
    rw [trace_of_stopsAt ha h]
    obtain ⟨last, hwalk, hnodup, hlast, hmem⟩ := h
    obtain ⟨hhead, hchain⟩ := hwalk.isChain_concat hlast
    exact ⟨rfl, rfl, hhead, hchain, hnodup, hmem⟩
  · -- the definition is the first of its name, so meeting the name is coming back
    have hfirst : anchors.first? a.name = some a.value := (first?_eq_some_iff hunique).mpr ha
    rw [exists_cyclic_iff ha]
    exact ⟨fun h => h.elim id fun hmeets => hmeets.endless hfirst, Or.inl⟩

/-- Two pointers that lead into a loop, one to the end of a chain, and one to nothing. -/
def tailedText : String :=
  "a: &a *b\nb: &b *c\nc: &c *b\nsize: &size 4px\npad: &pad *size\ngap: &gap *pad\nx: &x *y\n"

theorem ofText_tailedText :
    ofText tailedText.toList
      = [⟨"a".toList, "*b".toList⟩, ⟨"b".toList, "*c".toList⟩, ⟨"c".toList, "*b".toList⟩,
        ⟨"size".toList, "4px".toList⟩, ⟨"pad".toList, "*size".toList⟩,
        ⟨"gap".toList, "*pad".toList⟩, ⟨"x".toList, "*y".toList⟩] := by
  decide +kernel

theorem trace_classified_tailedText :
    (resolve tailedText).definitionProblems.length = 4
    ∧ (∃ names target,
        (ofText tailedText.toList).StopsAt ⟨"a".toList, "*b".toList⟩ names (.cyclic target))
    ∧ (ofText tailedText.toList).Endless "*b".toList := by
  have ha : ⟨"a".toList, "*b".toList⟩ ∈ ofText tailedText.toList := by
    rw [ofText_tailedText]
    decide +kernel
  have hunique : ((ofText tailedText.toList).map Anchor.name).Nodup := by
    rw [ofText_tailedText]
    decide +kernel
  obtain ⟨hproblems, hwithin, -, -, -, -, hcyclic⟩ := trace_classified rfl ha
  have hb : (ofText tailedText.toList).first? "b".toList = some "*c".toList := by
    rw [ofText_tailedText]
    decide +kernel
  have hc : (ofText tailedText.toList).first? "c".toList = some "*b".toList := by
    rw [ofText_tailedText]
    decide +kernel
  have hstop : (ofText tailedText.toList).StopsAt ⟨"a".toList, "*b".toList⟩
      ["b".toList, "c".toList] (.cyclic "b".toList) :=
    ⟨"*b".toList, .step (by decide +kernel) hb (.step (by decide +kernel) hc (.stay _)),
      by decide +kernel, by decide +kernel, by decide +kernel⟩
  refine ⟨?_, ⟨_, _, hstop⟩, (hcyclic hunique).mp ⟨_, _, hstop⟩⟩
  rw [hproblems]
  decide +kernel

/--
**A cycle is reported only of walks without an end, unless a later definition meets its own name.**

Of a definition two things are expected: it is reported as a cycle only if following its value never
comes to an end, and if that comes to a literal value, then this is its traced value. Both hold
exactly if the definition cannot come to its own name without going on forever. That is so for the
first definition of a name, because pointers lead there. A later definition that comes to its own
name is reported as a cycle even if the first definition leads to an end.
-/
theorem cycle_endless_iff (ha : a ∈ ofText raw.toList) :
    ((((ofText raw.toList).ReportsCycle a → (ofText raw.toList).Endless a.value)
        ∧ ∀ names value, (ofText raw.toList).Walk a.value names value →
            pointerTarget? value = none → (ofText raw.toList).trace a = .literal value)
      ↔ ((ofText raw.toList).Meets a.value a.name → (ofText raw.toList).Endless a.value))
    ∧ ((ofText raw.toList).first? a.name = some a.value →
        (ofText raw.toList).Meets a.value a.name → (ofText raw.toList).Endless a.value)
    ∧ ((ofText raw.toList).Meets a.value a.name → (ofText raw.toList).ReportsCycle a) := by
  have hreports := reportsCycle_iff ha
  refine ⟨⟨fun h hmeets => h.1 (hreports.mpr (Or.inr hmeets)), fun h => ⟨?_, ?_⟩⟩,
    fun hfirst hmeets => hmeets.endless hfirst, fun hmeets => hreports.mpr (Or.inr hmeets)⟩
  · intro hcycle
    exact (hreports.mp hcycle).elim id h
  · intro names value hwalk hlast
    have hends := not_endless_of_stuck hwalk (next?_of_literal hlast)
    have hown : a.name ∉ names := by
      intro hmem
      obtain ⟨before, after, rfl⟩ := List.append_of_mem hmem
      obtain ⟨last, hbefore, hafter⟩ := hwalk.exists_of_append
      exact hends (h ⟨before, last, hbefore, hafter.pointerTarget?_of_cons⟩)
    have hstop : (ofText raw.toList).StopsAt a names (.literal value) :=
      ⟨hwalk, List.nodup_cons.mpr ⟨hown, hwalk.nodup hends⟩, hlast⟩
    exact trace_of_stopsAt ha hstop

/-- A text with a second definition of a name, which leads to the first one. -/
def redefinedText : String :=
  "one: &size 4px\nmid: &mid *size\ntwo: &size *mid\n"

theorem ofText_redefinedText :
    ofText redefinedText.toList
      = [⟨"size".toList, "4px".toList⟩, ⟨"mid".toList, "*size".toList⟩,
        ⟨"size".toList, "*mid".toList⟩] := by
  decide +kernel

theorem cycle_endless_iff_redefinedText :
    (ofText redefinedText.toList).ReportsCycle ⟨"size".toList, "*mid".toList⟩
    ∧ (∀ names value, (ofText redefinedText.toList).Walk "*size".toList names value →
        pointerTarget? value = none →
        (ofText redefinedText.toList).trace ⟨"mid".toList, "*size".toList⟩ = .literal value) := by
  have hlater : ⟨"size".toList, "*mid".toList⟩ ∈ ofText redefinedText.toList := by
    simp [ofText_redefinedText]
  have honce : ⟨"mid".toList, "*size".toList⟩ ∈ ofText redefinedText.toList := by
    simp [ofText_redefinedText]
  have hmid : (ofText redefinedText.toList).first? "mid".toList = some "*size".toList := by
    rw [ofText_redefinedText]
    decide +kernel
  have hown : (ofText redefinedText.toList).Meets "*mid".toList "size".toList :=
    ⟨["mid".toList], "*size".toList, .step (by decide +kernel) hmid (.stay _), by decide +kernel⟩
  obtain ⟨hexact, hfirst, -⟩ := cycle_endless_iff honce
  exact ⟨(cycle_endless_iff hlater).2.2 hown, (hexact.mpr (hfirst hmid)).2⟩

/-- Following the second definition comes to a literal value, and yet a cycle is reported. -/
theorem resolve_redefinedText :
    (ofText redefinedText.toList).Walk "*mid".toList ["mid".toList, "size".toList] "4px".toList
    ∧ pointerTarget? "4px".toList = none
    ∧ (ofText redefinedText.toList).trace ⟨"size".toList, "*mid".toList⟩
        = .cycle ["size".toList, "mid".toList, "size".toList]
    ∧ (resolve redefinedText).text
        = "one: &size 4px\nmid: &mid 4px\ntwo: &size CYCLIC REFERENCE FOR size -> mid -> size\n"
    ∧ (resolve redefinedText).diagnostics = [.cyclicAnchorChain ["size", "mid", "size"]] := by
  have hmid : (ofText redefinedText.toList).first? "mid".toList = some "*size".toList := by
    rw [ofText_redefinedText]
    decide +kernel
  have hsize : (ofText redefinedText.toList).first? "size".toList = some "4px".toList := by
    rw [ofText_redefinedText]
    decide +kernel
  refine ⟨.step (by decide +kernel) hmid (.step (by decide +kernel) hsize (.stay _)),
    by decide +kernel, ?_, by decide +kernel, by decide +kernel⟩
  rw [ofText_redefinedText]
  decide +kernel

end Text

end DesignTokens.Alias
