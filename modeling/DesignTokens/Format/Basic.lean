import DesignTokens.Format.Json
import DesignTokens.Format.Stylesheet
import DesignTokens.Text.Blank

/-!
# Output formats

The formats a token tree can be written in. Each format attaches the name of the design system to
the tree in its own way before the tree is written (`render`).
-/

namespace DesignTokens

/-- A format of output files. -/
inductive OutputFormat where
  | json
  | scss
  deriving DecidableEq, Repr

namespace OutputFormat

/-- Every format, in the order in which they are listed and written. -/
def all : List OutputFormat := [.json, .scss]

/-- The name of a format, which is also the extension of its files. -/
def name : OutputFormat → String
  | json => "json"
  | scss => "scss"

/-- The extension of the files of a format, without the point. -/
def extension (format : OutputFormat) : String :=
  format.name

/-- What a format is, for the user. -/
def description : OutputFormat → String
  | json => "Token tree as a namespaced JSON object"
  | scss => "!default variables, a nested token map and a lookup function"

/-- The format a text names: blanks around it, points before it and the case of ASCII letters do
not matter. -/
def ofText? (text : String) : Option OutputFormat :=
  let name := ((Text.trim text.toList).dropWhile (· == '.')).map Char.toLower
  all.find? fun format => format.name.toList = name

/-- What is said of a text that names no format. -/
def unknownMessage (text : String) : String :=
  "unknown output format '" ++ text ++ "' (expected one of: json, scss)"

/-- The entry that names the design system; stylesheets have it as a quoted string. -/
def namespaceText (format : OutputFormat) (space : String) : String :=
  match format with
  | json => space
  | scss => "\"" ++ space ++ "\""

/-- A tree as a document of a format. -/
def document (format : OutputFormat) (tree : Tree) (space base : String) : String :=
  match format with
  | json => Json.document tree space base
  | scss => Stylesheet.document tree space base

/-- The key under which the name of the design system is attached to a tree. -/
def namespaceKey : String := "namespace"

/-- A tree as a document of a format, with the name of the design system attached. -/
def render (format : OutputFormat) (tree : Tree) (space base : String) : String :=
  format.document (tree.insert namespaceKey (.text (format.namespaceText space))) space base

end OutputFormat

end DesignTokens
