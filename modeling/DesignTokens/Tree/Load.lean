import DesignTokens.Tree.Basic
import DesignTokens.Yaml.Document

/-!
# Loading trees

A token tree is read from a document whose root is a mapping. Tags carry no meaning for tokens and
are dropped. Keys become texts; an entry whose key is a sequence or a mapping is left out.
-/

namespace DesignTokens

/-- Why a text is not a token tree. -/
inductive LoadError where
  | malformed
  | notAMapping (found : String)
  deriving DecidableEq, Repr

/-- The text a user reads. -/
def LoadError.message : LoadError → String
  | malformed => "malformed YAML: <yaml>"
  | notAMapping found => "token source root must be a mapping, found " ++ found

namespace Yaml.Value

/-- The text of a key, if it can be one. -/
def keyText? : Yaml.Value → Option String
  | .text s => some s
  | .number n => some (String.ofList n.text)
  | .bool b => some (boolText b)
  | .null => some "null"
  | .tagged _ value => value.keyText?
  | .sequence _ => none
  | .mapping _ => none

mutual

/-- A document value as a value of a token tree. -/
def toTokens : Yaml.Value → DesignTokens.Value
  | .mapping entries => .group (Table.ofPairs (entriesToTokens entries))
  | .sequence items => .list (itemsToTokens items)
  | .text s => .leaf (.text s)
  | .number n => .leaf (.number n)
  | .bool b => .leaf (.bool b)
  | .null => .leaf .null
  | .tagged _ value => value.toTokens

/-- The values of items. -/
def itemsToTokens : List Yaml.Value → List DesignTokens.Value
  | [] => []
  | item :: rest => item.toTokens :: itemsToTokens rest

/-- The values of the entries whose keys have texts. -/
def entriesToTokens : List (Yaml.Value × Yaml.Value) → List (String × DesignTokens.Value)
  | [] => []
  | (key, value) :: rest =>
    match key.keyText? with
    | some name => (name, value.toTokens) :: entriesToTokens rest
    | none => entriesToTokens rest

end

mutual

/-- The kinds of the keys that are left out, in the order in which they are met. -/
def skippedKeys : Yaml.Value → List String
  | .mapping entries => skippedEntryKeys entries
  | .sequence items => skippedItemKeys items
  | .tagged _ value => value.skippedKeys
  | _ => []

/-- The kinds of the keys left out of items. -/
def skippedItemKeys : List Yaml.Value → List String
  | [] => []
  | item :: rest => item.skippedKeys ++ skippedItemKeys rest

/-- The kinds of the keys left out of entries; what stands under such a key is not looked at. -/
def skippedEntryKeys : List (Yaml.Value × Yaml.Value) → List String
  | [] => []
  | (key, value) :: rest =>
    (if key.keyText?.isSome then value.skippedKeys else [key.kindName]) ++ skippedEntryKeys rest

end

end Yaml.Value

namespace Tree

/-- The tree of a document value; null is the tree without entries. -/
def ofDocument (document : Yaml.Value) : Except LoadError Tree :=
  match document.untag with
  | .mapping entries => .ok (.ofPairs (Yaml.Value.entriesToTokens entries))
  | .null => .ok .empty
  | other => .error (.notAMapping other.kindName)

/-- The tree that a text describes. -/
def load (text : String) : Except LoadError Tree :=
  match Yaml.Value.ofText? text with
  | some document => ofDocument document
  | none => .error .malformed

/-- The tree that a text describes, or the empty tree if it describes none. -/
def loadOrEmpty (text : String) : Tree :=
  match load text with
  | .ok tree => tree
  | .error _ => .empty

end Tree

end DesignTokens
