/-!
# Tables

A table is a list of keys with their values in the order in which the keys were first inserted.
Inserting under a key that is there replaces its value and leaves it in its place.
-/

namespace DesignTokens

/-- A list of keyed values; the operations below keep the keys distinct. -/
abbrev Table (α : Type) := List (String × α)

namespace Table

variable {α : Type}

/-- The keys, in order. -/
def keys (table : Table α) : List String :=
  table.map Prod.fst

/-- The value under a key. -/
def get? (table : Table α) (key : String) : Option α :=
  table.lookup key

/-- Put a value under a key, in the place of the value that is there or else at the end. -/
def insert : Table α → String → α → Table α
  | [], key, value => [(key, value)]
  | (k, v) :: rest, key, value =>
    if k = key then (k, value) :: rest else (k, v) :: insert rest key value

/-- Put a value under a key, and give the value that was there before. -/
def getThenInsert? : Table α → String → α → Option α × Table α
  | [], key, value => (none, [(key, value)])
  | (k, v) :: rest, key, value =>
    if k = key then (some v, (k, value) :: rest)
    else
      let (old, rest) := getThenInsert? rest key value
      (old, (k, v) :: rest)

/-- Take a key and its value out. -/
def erase (table : Table α) (key : String) : Table α :=
  table.filter fun entry => entry.1 ≠ key

/-- Insert pairs from left to right: a key stands where it came first, with its last value. -/
def ofPairs (pairs : List (String × α)) : Table α :=
  pairs.foldl (fun table entry => insert table entry.1 entry.2) []

end Table

end DesignTokens
