/-!
# Paths

A path is a text whose names are separated by slashes. It is kept as it is written; its components
are what remains when repeated slashes, a slash at the end and every `.` but a leading one are left
out.
-/

namespace DesignTokens

/-- A path, as it is written. -/
structure Path where
  text : String
  deriving DecidableEq, Repr

namespace Path

/-- A component of a path. -/
inductive Component where
  /-- The slash that begins an absolute path. -/
  | root
  /-- The directory itself, at the beginning of a relative path. -/
  | here
  /-- The parent directory. -/
  | up
  | name (s : String)
  deriving DecidableEq, Repr

namespace Component

/-- The text of a component. -/
def text : Component → String
  | root => "/"
  | here => "."
  | up => ".."
  | name s => s

/-- Where a component stands among components of other kinds. -/
def rank : Component → Nat
  | root => 0
  | here => 1
  | up => 2
  | name _ => 3

/-- The order of components: by kind, and names by code points. -/
def le (a b : Component) : Bool :=
  if a.rank = b.rank then a.text ≤ b.text else a.rank < b.rank

end Component

/-- The pieces between the slashes. -/
def pieces (p : Path) : List String :=
  (p.text.toList.splitOnP (· == '/')).map String.ofList

/-- Whether the path begins with a slash. -/
def isAbsolute (p : Path) : Bool :=
  p.text.toList.head? == some '/'

/-- The components of a path. -/
def components (p : Path) : List Component :=
  let kept := (p.pieces.filter fun s => s ≠ "" ∧ s ≠ ".").map fun s =>
    if s = ".." then Component.up else .name s
  if p.isAbsolute then .root :: kept
  else if p.pieces.head? = some "." then .here :: kept
  else kept

/-- The path behind another one; an absolute path stands for itself. -/
def join (p q : Path) : Path :=
  if q.isAbsolute || p.text.isEmpty then q
  else if p.text.toList.getLast? == some '/' then ⟨p.text ++ q.text⟩
  else ⟨p.text ++ "/" ++ q.text⟩

/-- The path with the given components. -/
def ofComponents (cs : List Component) : Path :=
  cs.foldl (fun p c => p.join ⟨c.text⟩) ⟨""⟩

/-- The path without its last component, if it has one that is not the root. -/
def parent? (p : Path) : Option Path :=
  match p.components.getLast? with
  | none => none
  | some .root => none
  | some _ => some (ofComponents p.components.dropLast)

/-- The path without the slashes at its end, unless it has nothing else. -/
def withoutSlashes (p : Path) : Path :=
  match p.text.toList.reverse.dropWhile (· == '/') with
  | [] => p
  | kept => ⟨String.ofList kept.reverse⟩

/-- The name that ends a path, if it ends in a name. -/
def fileName? (p : Path) : Option String :=
  match p.components.getLast? with
  | some (.name s) => some s
  | _ => none

/-- A name up to its last point, which must not begin it. -/
def stemOf (name : String) : String :=
  let chars := name.toList.reverse
  match (chars.dropWhile (· != '.')).drop 1 with
  | [] => name
  | before => String.ofList before.reverse

/-- The name that ends a path, without its extension; empty if the path does not end in a name. -/
def baseName (p : Path) : String :=
  (p.fileName?.map stemOf).getD ""

/-- The order of lists of components: the first difference decides. -/
def componentsLe : List Component → List Component → Bool
  | [], _ => true
  | _ :: _, [] => false
  | a :: as, b :: bs => if a = b then componentsLe as bs else a.le b

/-- The order of paths by their components. -/
def le (p q : Path) : Bool :=
  componentsLe p.components q.components

end Path

end DesignTokens
