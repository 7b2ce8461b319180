/-!
# Tokens

The tokens of a document. Indentation is made explicit: a block collection begins with a token of
its own and ends with `blockEnd`.
-/

namespace DesignTokens.Yaml

/-- A tag as it is written: a handle, which the document may have declared, and what follows it. -/
structure TagName where
  handle : List Char
  suffix : List UInt8
  deriving DecidableEq, Repr

/-- A token of a document. -/
inductive Token where
  | versionDirective (major minor : Nat)
  | tagDirective (handle : List Char) (text : List UInt8)
  | documentStart
  | documentEnd
  | blockSequenceStart
  | blockMappingStart
  | blockEnd
  | flowSequenceStart
  | flowSequenceEnd
  | flowMappingStart
  | flowMappingEnd
  | blockEntry
  | flowEntry
  | key
  | value
  | aliasOf (name : List Char)
  | anchor (name : List Char)
  | tag (name : TagName)
  /-- A scalar; `plain` if it stands without quotation marks and on no block of its own. -/
  | scalar (text : List Char) (plain : Bool)
  deriving DecidableEq, Repr

end DesignTokens.Yaml
