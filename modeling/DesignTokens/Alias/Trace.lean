import DesignTokens.Alias.Anchor
import DesignTokens.Alias.Diagnostic

/-!
# Tracing anchors

The value of an anchor may point at another anchor, and so on. `Anchors.trace` follows the pointers
through first definitions until one of three things happens:

- a value is reached that is not a pointer (`Trace.literal`);
- a name is reached that nothing defines (`Trace.missing`);
- a name is reached that is already in the chain (`Trace.cycle`).

Every step that goes on puts a new defined name into the chain, so the walk ends.
-/

namespace DesignTokens.Alias

/-- Where the pointers of an anchor lead. -/
inductive Trace where
  | literal (value : List Char)
  | missing (name : List Char)
  /-- The chain begins with the anchor's own name; its last name is the one met twice. -/
  | cycle (chain : List (List Char))
  deriving DecidableEq, Repr

namespace Trace

/-- What stands in the text for a name that nothing defines. -/
def missingValue (name : List Char) : List Char :=
  "CANNOT FIND VALUE FOR ".toList ++ name

/-- What stands in the text for an anchor whose pointers loop. -/
def cyclicValue (chain : List (List Char)) : List Char :=
  "CYCLIC REFERENCE FOR ".toList ++ " -> ".toList.intercalate chain

/-- The value that a trace puts into the text. -/
def value : Trace → List Char
  | literal v => v
  | missing name => missingValue name
  | cycle chain => cyclicValue chain

/-- The problem that a trace reports. -/
def diagnostic? : Trace → Option Diagnostic
  | literal _ => none
  | missing name => some (.unresolvedAlias (String.ofList name))
  | cycle chain => some (.cyclicAnchorChain (chain.map String.ofList))

end Trace

namespace Anchors

/-- The anchors whose names are not in the chain. -/
def outside (anchors : Anchors) (chain : List (List Char)) : Anchors :=
  anchors.filter fun a => a.name ∉ chain

theorem length_outside_append_lt {anchors : Anchors} {chain : List (List Char)}
    {target value : List Char} (hnew : target ∉ chain)
    (hdef : anchors.first? target = some value) :
    (anchors.outside (chain ++ [target])).length < (anchors.outside chain).length := by
  obtain ⟨a, ha, -⟩ := Option.map_eq_some_iff.1 hdef
  have hname : a.name = target := by simpa using List.find?_some ha
  have hmem : a ∈ anchors := List.mem_of_find?_eq_some ha
  have hsub : anchors.outside (chain ++ [target])
      = (anchors.outside chain).filter fun b => b.name ≠ target := by
    simp only [outside, List.filter_filter, List.mem_append, List.mem_singleton]
    exact List.filter_congr fun b _ => by simp [and_comm]
  rw [hsub]
  refine Nat.lt_of_le_of_ne (List.length_filter_le _ _) fun heq => ?_
  have hall := List.length_filter_eq_length_iff.1 heq a
    (List.mem_filter.2 ⟨hmem, by simpa [hname] using hnew⟩)
  simp [hname] at hall

/-- Follow a value through first definitions, behind the chain of names met so far. -/
def follow (anchors : Anchors) (chain : List (List Char)) (value : List Char) : Trace :=
  match pointerTarget? value with
  | none => .literal value
  | some target =>
    if _hnew : target ∈ chain then .cycle (chain ++ [target])
    else
      match _hdef : anchors.first? target with
      | none => .missing target
      | some next => follow anchors (chain ++ [target]) next
termination_by (anchors.outside chain).length
decreasing_by exact length_outside_append_lt _hnew _hdef

/-- Where the pointers of one definition lead. -/
def trace (anchors : Anchors) (a : Anchor) : Trace :=
  anchors.follow [a.name] a.value

/-- The traces of all definitions, in order. -/
def traces (anchors : Anchors) : List Trace :=
  anchors.map anchors.trace

end Anchors

end DesignTokens.Alias
