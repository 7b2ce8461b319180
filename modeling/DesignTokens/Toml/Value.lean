import DesignTokens.Settings.Setting
import DesignTokens.Toml.DateTime
import DesignTokens.Toml.Number

/-!
# Keys and values

A key is a name of letters, digits, dashes and underscores, or a quoted text on one line. A path of
keys has points between them. A value is a text, a truth value, a number, a date or time (which
becomes a text), an array, or a table in braces.

In a body of paths with values (`Body`) no path may begin with another one: a value is given once,
and nothing is added to a value.
-/

namespace DesignTokens.Toml

/-! ## Gaps and comments -/

/-- Drop the gaps at the beginning. -/
def dropGap (cs : List Char) : List Char :=
  cs.dropWhile isGap

/-- Drop gaps and a comment. -/
def dropComment (cs : List Char) : List Char :=
  match dropGap cs with
  | '#' :: rest => rest.dropWhile isCommentChar
  | rest => rest

/-- Skip the rest of a line that has nothing but gaps and a comment, with its break. -/
def lineEnd? (cs : List Char) : Option (List Char) :=
  match dropComment cs with
  | [] => some []
  | '\n' :: rest => some rest
  | _ => none

/-- Skip gaps, comments and line breaks. The first list bounds the number of lines. -/
def skipLines? : List Char → List Char → Option (List Char)
  | [], cs => some cs
  | _ :: fuel, cs =>
    match dropGap cs with
    | '\n' :: rest => skipLines? fuel rest
    | '#' :: rest => do skipLines? fuel (← lineEnd? ('#' :: rest))
    | rest => some rest

/-! ## Keys -/

/-- Whether a character may stand in a key without quotation marks. -/
def isKeyChar (c : Char) : Bool :=
  c.isAlphanum || c == '-' || c == '_'

/-- Read a key. -/
def key? : List Char → Option (String × List Char)
  | [] => none
  | c :: cs =>
    if c == '"' || c == '\'' then
      if [c, c].isPrefixOf cs then none
      else (Quoted.line? c cs [] cs).map fun r => (String.ofList r.1, r.2)
    else
      match (c :: cs).takeWhile isKeyChar with
      | [] => none
      | name => some (String.ofList name, (c :: cs).dropWhile isKeyChar)

/-- Read keys with points between them and gaps around the points. The first list bounds the
number of keys. -/
def path? : List Char → List Char → Option (List String × List Char)
  | [], _ => none
  | _ :: fuel, cs => do
    let (key, cs) ← key? (dropGap cs)
    match dropGap cs with
    | '.' :: cs => do
      let (keys, cs) ← path? fuel cs
      some (key :: keys, cs)
    | cs => some ([key], cs)

/-! ## Bodies -/

/-- Paths with their values, in the order in which they are given. -/
abbrev Body := List (List String × Setting)

/-- Whether neither of two paths begins with the other one. -/
def apart (p q : List String) : Bool :=
  !p.isPrefixOf q && !q.isPrefixOf p

/-- Whether all paths are apart from each other. -/
def allApart : List (List String) → Bool
  | [] => true
  | p :: ps => ps.all (apart p) && allApart ps

/-- Put a value at the end of a path of tables, which are made where they are missing. -/
def graft (entries : Table Setting) : List String → Setting → Table Setting
  | [], _ => entries
  | [key], value => Table.insert entries key value
  | key :: keys, value =>
    let inner := match Table.get? entries key with
      | some (.table inner) => inner
      | _ => []
    Table.insert entries key (.table (graft inner keys value))

/-- The table that a body describes. -/
def Body.table? (body : Body) : Option (Table Setting) :=
  if allApart (body.map Prod.fst) then
    some (body.foldl (fun entries pair => graft entries pair.1 pair.2) [])
  else none

/-! ## Values -/

/-- Read a value that has no other values in it. -/
def scalar? : List Char → Option (Setting × List Char)
  | '"' :: cs => (Quoted.read? '"' cs).map fun r => (.text (String.ofList r.1), r.2)
  | '\'' :: cs => (Quoted.read? '\'' cs).map fun r => (.text (String.ofList r.1), r.2)
  | 't' :: 'r' :: 'u' :: 'e' :: cs => some (.bool true, cs)
  | 'f' :: 'a' :: 'l' :: 's' :: 'e' :: cs => some (.bool false, cs)
  | cs =>
    if DateTime.beginsDate cs || DateTime.beginsTime cs then
      (DateTime.read? cs).map fun r => (.text (String.ofList r.1.text), r.2)
    else Number.read? cs

mutual

/-- Read a value. The first list bounds the number of values and their parts; every one of them has
a character of its own. -/
def value? : List Char → List Char → Option (Setting × List Char)
  | [], _ => none
  | _ :: fuel, '[' :: cs => do
    let (items, cs) ← items? fuel cs
    some (.list items, cs)
  | _ :: fuel, '{' :: cs =>
    match dropGap cs with
    | '}' :: cs => some (.table [], cs)
    | cs => do
      let (body, cs) ← pairs? fuel cs
      let entries ← Body.table? body
      some (.table entries, cs)
  | _ :: _, cs => scalar? cs

/-- Read the items of an array and the bracket that closes it. Lines may end between them, and a
comma may stand behind the last one. -/
def items? : List Char → List Char → Option (List Setting × List Char)
  | [], _ => none
  | _ :: fuel, cs => do
    match ← skipLines? cs cs with
    | ']' :: cs => some ([], cs)
    | cs => do
      let (item, cs) ← value? fuel cs
      match ← skipLines? cs cs with
      | ',' :: cs => do
        let (items, cs) ← items? fuel cs
        some (item :: items, cs)
      | ']' :: cs => some ([item], cs)
      | _ => none

/-- Read the paths with values of a table in braces and the brace that closes it. -/
def pairs? : List Char → List Char → Option (Body × List Char)
  | [], _ => none
  | _ :: fuel, cs => do
    let (path, cs) ← path? cs cs
    match cs with
    | '=' :: cs => do
      let (value, cs) ← value? fuel (dropGap cs)
      match dropGap cs with
      | '}' :: cs => some ([(path, value)], cs)
      | ',' :: cs => do
        let (body, cs) ← pairs? fuel cs
        some ((path, value) :: body, cs)
      | _ => none
    | _ => none

end

end DesignTokens.Toml
