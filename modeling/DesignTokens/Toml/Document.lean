import DesignTokens.Toml.Value

/-!
# Documents

A document is a sequence of sections, each with a header and a body; the first section has no
header. A header names a table by its path from the root, or adds a table to an array of tables.

The sections are put into a tree of open tables (`Item`). An open table may get more tables from
later sections, but its own body only once; the value of a body is closed.
-/

namespace DesignTokens.Toml

/-! ## Sections -/

/-- A section of a document. -/
structure Section where
  path : List String
  /-- The section is a new table of an array. -/
  repeated : Bool
  body : Body

/-- Read the path of a header and the brackets that close it. -/
def header? (brackets : List Char) (cs : List Char) : Option (List String × List Char) := do
  let (path, cs) ← path? cs cs
  if brackets.isPrefixOf cs then
    let cs ← lineEnd? (cs.drop brackets.length)
    some (path, cs)
  else none

/-- Read a path with its value and the end of the line. -/
def pair? (cs : List Char) : Option ((List String × Setting) × List Char) := do
  let (path, cs) ← path? cs cs
  match cs with
  | '=' :: cs => do
    let (value, cs) ← value? cs (dropGap cs)
    let cs ← lineEnd? cs
    some ((path, value), cs)
  | _ => none

/-- Read the body of the section at hand and the sections after it. The first list bounds the
number of lines. -/
def sections? : List Char → List Char → Option (Body × List Section)
  | [], _ => some ([], [])
  | _ :: fuel, cs => do
    match ← skipLines? cs cs with
    | [] => some ([], [])
    | '[' :: '[' :: cs => do
      let (path, cs) ← header? [']', ']'] cs
      let (body, later) ← sections? fuel cs
      some ([], ⟨path, true, body⟩ :: later)
    | '[' :: cs => do
      let (path, cs) ← header? [']'] cs
      let (body, later) ← sections? fuel cs
      some ([], ⟨path, false, body⟩ :: later)
    | cs => do
      let (pair, cs) ← pair? cs
      let (body, later) ← sections? fuel cs
      some (pair :: body, later)

/-! ## Assembly -/

/-- What stands under a key while the sections are put together. -/
inductive Item where
  | value (setting : Setting)
  /-- A table; `given` says whether a section gave its body. -/
  | table (given : Bool) (entries : List (String × Item))
  /-- The tables of an array. -/
  | tables (items : List (List (String × Item)))

namespace Item

/-- The items of a body. -/
def ofEntries (entries : Table Setting) : Table Item :=
  entries.map fun e => (e.1, .value e.2)

/-- Put the body of a section under its last key. -/
def addBody (repeated : Bool) (body : Table Setting) : Option Item → Option Item
  | none => some (if repeated then .tables [ofEntries body] else .table true (ofEntries body))
  | some (.table false entries) =>
    if repeated || body.any fun e => (Table.get? entries e.1).isSome then none
    else some (.table true (entries ++ ofEntries body))
  | some (.tables items) => if repeated then some (.tables (items ++ [ofEntries body])) else none
  | some _ => none

/-- Put the body of a section at the end of a path. Tables are made where they are missing, and of
an array the last table is meant. -/
def add? (repeated : Bool) (body : Table Setting) (entries : Table Item) :
    List String → Option (Table Item)
  | [] => none
  | [key] => (addBody repeated body (Table.get? entries key)).map (Table.insert entries key)
  | key :: keys =>
    match Table.get? entries key with
    | none => do
      let inner ← add? repeated body [] keys
      some (Table.insert entries key (.table false inner))
    | some (.table given inner) => do
      let inner ← add? repeated body inner keys
      some (Table.insert entries key (.table given inner))
    | some (.tables items) => do
      let inner ← add? repeated body (items.getLast?.getD []) keys
      some (Table.insert entries key (.tables (items.dropLast ++ [inner])))
    | some (.value _) => none

mutual

/-- The setting that an item is. -/
def toSetting : Item → Setting
  | .value setting => setting
  | .table _ entries => .table (toEntries entries)
  | .tables items => .list (toTables items)

/-- The settings of the entries of a table. -/
def toEntries : List (String × Item) → List (String × Setting)
  | [] => []
  | (key, item) :: rest => (key, item.toSetting) :: toEntries rest

/-- The settings of the tables of an array. -/
def toTables : List (List (String × Item)) → List Setting
  | [] => []
  | entries :: rest => .table (toEntries entries) :: toTables rest

end

end Item

/-- Put a section into the tables of the sections before it. -/
def Section.addTo? (entries : Table Item) (s : Section) : Option (Table Item) := do
  let body ← Body.table? s.body
  Item.add? s.repeated body entries s.path

/-- Every pair of a carriage return and a line feed becomes a line feed. -/
def foldBreaks : List Char → List Char
  | '\r' :: '\n' :: cs => '\n' :: foldBreaks cs
  | c :: cs => c :: foldBreaks cs
  | [] => []

/-- Drop the byte order mark at the beginning. -/
def dropByteOrderMark : List Char → List Char
  | '\ufeff' :: cs => cs
  | cs => cs

/-- The table that a document describes. -/
def table? (text : String) : Option (Table Setting) := do
  let cs := foldBreaks (dropByteOrderMark text.toList)
  let (body, sections) ← sections? ('\n' :: cs) cs
  let root ← Body.table? body
  let entries ← sections.foldlM Section.addTo? (Item.ofEntries root)
  some (Item.toEntries entries)

end DesignTokens.Toml
