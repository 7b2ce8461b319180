import DesignTokens.Yaml.Lexer
import DesignTokens.Yaml.Node
import DesignTokens.Yaml.Scalar

/-!
# Reading documents

The value of a document is made from its node in two steps.

- `Node.link?` replaces the names of anchors by numbers. An anchor gets the number of different
  names that come before it, and an alias the number of the last anchor of its name before it.
- `Linking.value?` follows the aliases to the last anchor of their number and gives the scalars
  their types. Collections are nested at most 128 deep, aliases included, and aliases are followed
  at most a hundred times for each event of the document.
-/

namespace DesignTokens.Yaml

namespace Node

/-! ## Numbering anchors -/

/-- The names of the anchors that have come. -/
structure AnchorNumbers where
  /-- The names with their numbers, the latest first. -/
  numbered : List (List Char × Nat) := []
  /-- How many different names there are. -/
  distinct : Nat := 0

/-- The number of the last anchor of a name. -/
def AnchorNumbers.number? (names : AnchorNumbers) (name : List Char) : Option Nat :=
  names.numbered.lookup name

/-- Add an anchor: its number is the count of the different names before it. -/
def AnchorNumbers.add (names : AnchorNumbers) (name : List Char) : AnchorNumbers where
  numbered := (name, names.distinct) :: names.numbered
  distinct := if (names.number? name).isSome then names.distinct else names.distinct + 1

/-- Number the anchor of a node. -/
def linkProperties (names : AnchorNumbers) (props : Properties (List Char)) :
    Properties Nat × AnchorNumbers :=
  match props.anchor with
  | none => (⟨none, props.tag⟩, names)
  | some name => (⟨some names.distinct, props.tag⟩, names.add name)

mutual

/-- Number the anchors of a node from left to right; an alias must have an anchor before it. -/
def link? (names : AnchorNumbers) : Node (List Char) → Option (Node Nat × AnchorNumbers)
  | .aliasOf name => (names.number? name).map fun n => (.aliasOf n, names)
  | .scalar props text plain =>
    let (props, names) := linkProperties names props
    some (.scalar props text plain, names)
  | .sequence props items => do
    let (props, names) := linkProperties names props
    let (items, names) ← linkItems? names items
    some (.sequence props items, names)
  | .mapping props entries => do
    let (props, names) := linkProperties names props
    let (entries, names) ← linkEntries? names entries
    some (.mapping props entries, names)

/-- Number the anchors of items. -/
def linkItems? (names : AnchorNumbers) :
    List (Node (List Char)) → Option (List (Node Nat) × AnchorNumbers)
  | [] => some ([], names)
  | item :: rest => do
    let (item, names) ← link? names item
    let (rest, names) ← linkItems? names rest
    some (item :: rest, names)

/-- Number the anchors of keys and values. -/
def linkEntries? (names : AnchorNumbers) :
    List (Node (List Char) × Node (List Char)) →
      Option (List (Node Nat × Node Nat) × AnchorNumbers)
  | [] => some ([], names)
  | (key, value) :: rest => do
    let (key, names) ← link? names key
    let (value, names) ← link? names value
    let (rest, names) ← linkEntries? names rest
    some ((key, value) :: rest, names)

end

mutual

/-- The anchored nodes of a node with their numbers, in the order in which they begin. -/
def anchored : Node Nat → List (Nat × Node Nat)
  | .aliasOf _ => []
  | .scalar props text plain => (props.anchor.map fun n => (n, .scalar props text plain)).toList
  | .sequence props items =>
    (props.anchor.map fun n => (n, .sequence props items)).toList ++ anchoredItems items
  | .mapping props entries =>
    (props.anchor.map fun n => (n, .mapping props entries)).toList ++ anchoredEntries entries

/-- The anchored nodes of items. -/
def anchoredItems : List (Node Nat) → List (Nat × Node Nat)
  | [] => []
  | item :: rest => item.anchored ++ anchoredItems rest

/-- The anchored nodes of keys and values. -/
def anchoredEntries : List (Node Nat × Node Nat) → List (Nat × Node Nat)
  | [] => []
  | (key, value) :: rest => key.anchored ++ value.anchored ++ anchoredEntries rest

end

mutual

/-- The number of events of a node: one for a scalar or alias, and two and those of the parts for a
collection. -/
def eventCount : Node Nat → Nat
  | .aliasOf _ => 1
  | .scalar .. => 1
  | .sequence _ items => 2 + itemEventCount items
  | .mapping _ entries => 2 + entryEventCount entries

/-- The number of events of items. -/
def itemEventCount : List (Node Nat) → Nat
  | [] => 0
  | item :: rest => item.eventCount + itemEventCount rest

/-- The number of events of keys and values. -/
def entryEventCount : List (Node Nat × Node Nat) → Nat
  | [] => 0
  | (key, value) :: rest => key.eventCount + value.eventCount + entryEventCount rest

end

end Node

/-! ## Values -/

/-- The text of a tag that begins with an exclamation mark, without that mark unless it stands
alone; other tags say nothing about the kind of a value. -/
def localTag? (tag : List UInt8) : Option String :=
  match tag with
  | 0x21 :: rest => do
    let text ← String.fromUTF8? ⟨(if rest.isEmpty then tag else rest).toArray⟩
    match text.toList with
    | '!' :: c :: cs => some (String.ofList (c :: cs))
    | _ => some text
  | _ => none

/-- What the value of a node depends on besides the node. -/
structure Linking where
  /-- The anchored nodes; of equal numbers the last one counts. -/
  targets : List (Nat × Node Nat)
  /-- How often aliases may be followed. -/
  jumpLimit : Nat

namespace Linking

/-- The greatest nesting depth of collections. -/
def maxDepth : Nat := 128

/-- The linking of a document. -/
def ofNode (node : Node Nat) : Linking where
  targets := node.anchored.reverse
  jumpLimit := 100 * node.eventCount

/-- Follow a node if it is an alias; `jumps` counts how often that was done. What is known of the
tags around a node does not reach beyond an alias. -/
def follow? (l : Linking) (tagged : Bool) (jumps : Nat) :
    Node Nat → Option (Node Nat × Bool × Nat)
  | .aliasOf n =>
    if jumps < l.jumpLimit then
      (l.targets.lookup n).map fun target => (target, false, jumps + 1)
    else none
  | node => some (node, tagged, jumps)

/-- Apply a reader to all members of a list and thread the count of jumps through. -/
def eachValue? {α β : Type} (read? : Nat → α → Option (β × Nat)) :
    Nat → List α → Option (List β × Nat)
  | jumps, [] => some ([], jumps)
  | jumps, a :: rest => do
    let (b, jumps) ← read? jumps a
    let (bs, jumps) ← eachValue? read? jumps rest
    some (b :: bs, jumps)

/-- Whether no key occurs twice. -/
def distinctKeys : List (Value × Value) → Bool
  | [] => true
  | (key, _) :: rest => !(rest.any fun entry => key.same entry.1) && distinctKeys rest

/-- The value of a node within `depth` levels of collections. A tag is disregarded if the value is
already tagged; the keys of a tagged mapping are. -/
def value? (l : Linking) : Nat → Bool → Nat → Node Nat → Option (Value × Nat)
  | depth, tagged, jumps, node => do
    let (node, tagged, jumps) ← l.follow? tagged jumps node
    let wrap (props : Properties Nat) (value : Value) : Value :=
      match if tagged then none else props.tag.bind localTag? with
      | some tag => .tagged tag value
      | none => value
    match node, depth with
    | .scalar props text plain, _ =>
      let value ← Scalar.value? (if tagged then none else props.tag) text plain
      some (wrap props value, jumps)
    | .sequence props items, depth + 1 =>
      let (items, jumps) ← eachValue? (value? l depth false) jumps items
      some (wrap props (.sequence items), jumps)
    | .mapping props entries, depth + 1 =>
      let keysTagged := tagged || (props.tag.bind localTag?).isSome
      let entry? (jumps : Nat) (entry : Node Nat × Node Nat) := do
        let (key, jumps) ← value? l depth keysTagged jumps entry.1
        let (value, jumps) ← value? l depth false jumps entry.2
        some ((key, value), jumps)
      let (entries, jumps) ← eachValue? entry? jumps entries
      if distinctKeys entries then some (wrap props (.mapping entries), jumps) else none
    | _, _ => none

end Linking

/-- The value of the one document in a text; a text without a document is null. -/
def Value.ofText? (text : String) : Option Value := do
  let tokens ← Token.ofText? text.toList
  match ← Node.ofTokens? tokens with
  | none => some .null
  | some node =>
    let (node, _) ← node.link? {}
    let l := Linking.ofNode node
    let (value, _) ← l.value? Linking.maxDepth false 0 node
    some value

end DesignTokens.Yaml
