import DesignTokens.Number

/-!
# Document values

The value that a document describes, when its aliases have been followed and its scalars have got
their types. The keys of a mapping may be any values.
-/

namespace DesignTokens.Yaml

/-- A value of a document. -/
inductive Value where
  | null
  | bool (b : Bool)
  | number (n : Number)
  | text (s : String)
  | sequence (items : List Value)
  | mapping (entries : List (Value × Value))
  | tagged (tag : String) (value : Value)
  deriving Repr

namespace Value

mutual

/-- Whether two values are the same: mappings up to the order of their entries. -/
def same : Value → Value → Bool
  | .null, .null => true
  | .bool a, .bool b => a == b
  | .number m, .number n => m.same n
  | .text s, .text t => s == t
  | .sequence xs, .sequence ys => sameItems xs ys
  | .mapping xs, .mapping ys => xs.length == ys.length && sameEntries xs ys
  | .tagged s x, .tagged t y => s == t && x.same y
  | _, _ => false

/-- Whether two lists are the same item by item. -/
def sameItems : List Value → List Value → Bool
  | [], [] => true
  | x :: xs, y :: ys => x.same y && sameItems xs ys
  | _, _ => false

/-- Whether a mapping has every entry of a list. -/
def sameEntries : List (Value × Value) → List (Value × Value) → Bool
  | [], _ => true
  | (key, value) :: xs, ys =>
    (ys.any fun (k, v) => key.same k && value.same v) && sameEntries xs ys

end

/-- The value under any number of tags. -/
def untag : Value → Value
  | tagged _ value => value.untag
  | value => value

/-- What kind of value this is, for the user. -/
def kindName : Value → String
  | null => "null"
  | bool _ => "a boolean"
  | number _ => "a number"
  | text _ => "a string"
  | sequence _ => "a sequence"
  | mapping _ => "a mapping"
  | tagged .. => "a tagged value"

end Value

end DesignTokens.Yaml
