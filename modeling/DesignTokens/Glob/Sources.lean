import DesignTokens.FileSystem
import DesignTokens.Glob.Pattern
import DesignTokens.Log
import DesignTokens.Text.Blank

/-!
# Finding sources

The path of a token source may be a glob pattern. Its leading components without glob characters
name a directory, the base; the other components form a pattern that is matched against the paths
of the regular files below the base. Links below the base are not followed.
-/

namespace DesignTokens.Sources

/-- Whether a text has a character that makes it a pattern. -/
def isGlob (text : String) : Bool :=
  text.toList.any fun c => c == '*' || c == '?' || c == '[' || c == '{'

/-- The base of a pattern: its leading components without glob characters, or the current
directory if there are none. -/
def base (pattern : Path) : Path :=
  match pattern.components.takeWhile fun c => !isGlob c.text with
  | [] => ⟨"."⟩
  | literal => .ofComponents literal

/-- The text of the components from the first one with a glob character on. -/
def globText (pattern : Path) : String :=
  "/".intercalate ((pattern.components.dropWhile fun c => !isGlob c.text).map (·.text))

/-- A pattern for the files below a base. -/
structure FileGlob where
  pattern : Glob.Pattern
  /-- The pattern ends in a slash and so matches no files. -/
  directoriesOnly : Bool

/-- Drop the blanks at the end of a pattern, unless the last one is an escaped space. -/
def dropBlanks (text : List Char) : List Char :=
  match text.reverse with
  | ' ' :: '\\' :: _ => text
  | _ => Text.trimEnd text

/-- Read the pattern for the files below a base. A slash at its end asks for directories. Two
stars at its end, behind a slash, do not match the directory before the slash. -/
def FileGlob.ofText? (text : String) : Option FileGlob := do
  let trimmed := dropBlanks text.toList
  let (directoriesOnly, body) := match trimmed.reverse with
    | '/' :: '\\' :: rest => (true, rest.reverse)
    | '/' :: rest => (true, rest.reverse)
    | _ => (false, trimmed)
  let body := if "/**".toList.isSuffixOf body then body ++ "/*".toList else body
  some ⟨← Glob.Pattern.ofText? body, directoriesOnly⟩

/-- Drop a text from the beginning of another one that begins with it. -/
def dropStart (start text : List UInt8) : List UInt8 :=
  if start.isPrefixOf text then text.drop start.length else text

/-- The part of a path that is matched: without the base, unless the path is a single name. -/
def matchedPart (base path : Path) : List UInt8 :=
  let here : List UInt8 := "./".toUTF8.toList
  let root := dropStart here base.text.toUTF8.toList
  let text := dropStart here path.text.toUTF8.toList
  if root = ".".toUTF8.toList || !text.contains Glob.slash || !root.isPrefixOf text then text
  else dropStart [Glob.slash] (text.drop root.length)

/-- Whether a file below a base matches. -/
def FileGlob.holds (g : FileGlob) (base path : Path) : Bool :=
  !g.directoriesOnly && g.pattern.holds (matchedPart base path)

/-- The regular files at and below a path, if the path leads anywhere. A single dash stands for
the standard input, which has no files. -/
def filesAt? (fs : FileSystem) (p : Path) : Option (List Path) :=
  if p.text = "-" then some []
  else (fs.node? p).map fun node => node.files.map fun f => f.1.foldl (fun q s => q.join ⟨s⟩) p

/-- The sources that a path stands for, and what there is to tell about them. -/
structure Expansion where
  sources : List Path
  events : List Log.Event := []

/-- The sources that a path stands for: the path itself if it is no pattern, and otherwise the
files that match, in the order of their paths. Fails if the pattern is malformed. -/
def expand? (fs : FileSystem) (pattern : Path) : Option Expansion :=
  if !isGlob pattern.text then some { sources := [pattern] }
  else
    (FileGlob.ofText? (globText pattern)).map fun g =>
      let base := base pattern
      let found := filesAt? fs base
      let sources := ((found.getD []).filter (g.holds base)).mergeSort Path.le
      { sources := sources
        events := (if found.isNone then [.baseUnreadable base] else [])
          ++ (if sources.isEmpty then [.noMatches pattern] else []) }

/-- What is said of a malformed pattern. -/
def malformedMessage (pattern : Path) : String :=
  "tokens.source_file '" ++ pattern.text ++ "': <glob>"

end DesignTokens.Sources
