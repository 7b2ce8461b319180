import DesignTokens.Decimal.Basic
import DesignTokens.Settings.Setting

/-!
# Paths of settings

A setting is named by a path such as `tokens.formats[1]`: a key, and then keys behind points and
indices in brackets. Setting a value (`Setting.put`) makes what the path needs: a value that should
be a table or a list and is none gives way to an empty one, and a list grows as far as its index.

A table is merged into the table that is there, key by key; all other values replace what is there.
-/

namespace DesignTokens

/-- A step from a setting to a part of it. -/
inductive KeyStep where
  | key (name : String)
  /-- The position in a list; a negative one counts from the end. -/
  | index (i : Int)
  deriving DecidableEq, Repr

/-- The steps from the root to a setting. -/
abbrev KeyPath := List KeyStep

namespace KeyPath

/-! ## Reading -/

/-- Whether a character may stand in a key. -/
def isKeyChar (c : Char) : Bool :=
  c.isAlphanum || c == ' ' || c == '_' || c == '-'

/-- Whether a character is a blank inside brackets. -/
def isGap (c : Char) : Bool :=
  c == ' ' || c == '\t'

/-- Read a key. -/
def key? (cs : List Char) : Option (KeyStep × List Char) :=
  match cs.takeWhile isKeyChar with
  | [] => none
  | name => some (.key (String.ofList name), cs.dropWhile isKeyChar)

/-- Read an index behind its opening bracket. It fits 64 bits. -/
def index? (cs : List Char) : Option (KeyStep × List Char) :=
  let (negative, cs) := match cs.dropWhile isGap with
    | '-' :: cs => (true, cs)
    | cs => (false, cs)
  let ds := cs.takeWhile Char.isDigit
  let n : Int := Decimal.ofDigits 10 ds
  let i := if negative then -n else n
  match (cs.dropWhile Char.isDigit).dropWhile isGap with
  | ']' :: rest =>
    if ds.isEmpty || i < -Int.pow 2 63 || Int.pow 2 63 ≤ i then none else some (.index i, rest)
  | _ => none

/-- Read the steps behind the first one. The first list bounds their number. -/
def steps? : List Char → List Char → Option KeyPath
  | _, [] => some []
  | _ :: fuel, '.' :: cs => do
    let (step, cs) ← key? cs
    return step :: (← steps? fuel cs)
  | _ :: fuel, '[' :: cs => do
    let (step, cs) ← index? cs
    return step :: (← steps? fuel cs)
  | _, _ => none

/-- Read a path. -/
def ofText? (text : String) : Option KeyPath := do
  let (step, cs) ← key? text.toList
  return step :: (← steps? cs cs)

end KeyPath

namespace Setting

/-! ## Setting values -/

/-- The entries of a table; other settings have none. -/
def entries : Setting → Table Setting
  | table entries => entries
  | _ => []

/-- The items of a list; other settings have none. -/
def items : Setting → List Setting
  | list items => items
  | _ => []

/-- The position that an index means in a list of `n` items. -/
def position (i : Int) (n : Nat) : Nat :=
  if 0 ≤ i then i.toNat else n - (-i).toNat

/-- Items with empty settings behind them up to a position. -/
def extended (items : List Setting) (position : Nat) : List Setting :=
  items ++ List.replicate (position + 1 - items.length) nil

mutual

/-- Put a value under a key of a table; a table is merged into what is there. -/
def putKey (target : Setting) (key : String) : Setting → Setting
  | table incoming =>
    let inner := (Table.get? target.entries key).getD (table [])
    table (Table.insert target.entries key (putEntries inner incoming))
  | value => table (Table.insert target.entries key value)

/-- Put the entries of a table one by one. -/
def putEntries (target : Setting) : List (String × Setting) → Setting
  | [] => target
  | (key, value) :: rest => putEntries (putKey target key value) rest

end

/-- Put a value at the end of a path. -/
def put (target : Setting) (value : Setting) : KeyPath → Setting
  | [] => value
  | [.key name] => putKey target name value
  | .key name :: rest =>
    let inner := (Table.get? target.entries name).getD nil
    table (Table.insert target.entries name (put inner value rest))
  | .index i :: rest =>
    let n := position i target.items.length
    let items := extended target.items n
    list (items.set n (put (items.getD n nil) value rest))

end Setting

end DesignTokens
