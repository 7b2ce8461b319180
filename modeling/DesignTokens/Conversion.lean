import DesignTokens.Alias.Resolution
import DesignTokens.FileSystem
import DesignTokens.Log
import DesignTokens.Settings.Configuration
import DesignTokens.Tree.Load

/-!
# Conversion

A token source is read and then written in each of the formats asked for. A conversion never fails
as a whole: a missing source is skipped, a source that cannot be read or is malformed counts as the
empty tree, and a file that cannot be written does not keep the next one from being written. The
`Report` of a conversion tells what happened.
-/

namespace DesignTokens

/-! ## Reading a source -/

/-- What reading a source that is there gives. -/
inductive Reading where
  | unreadable
  | malformed (resolution : Alias.Resolution) (error : LoadError)
  /-- A tree, with the kinds of the keys that were left out of it. -/
  | loaded (resolution : Alias.Resolution) (tree : Tree) (skippedKeys : List String)

namespace Reading

/-- Read the text of a source: resolve its aliases and load the tree. -/
def ofText (text : String) : Reading :=
  let resolution := Alias.resolve text
  match Yaml.Value.ofText? resolution.text with
  | none => .malformed resolution .malformed
  | some document =>
    match Tree.ofDocument document with
    | .ok tree => .loaded resolution tree document.skippedKeys
    | .error error => .malformed resolution error

/-- The tree that is written. -/
def tree : Reading → Tree
  | loaded _ tree _ => tree
  | _ => .empty

/-- The problems met while aliases were resolved. -/
def diagnostics : Reading → List Alias.Diagnostic
  | unreadable => []
  | malformed resolution _ => resolution.diagnostics
  | loaded resolution _ _ => resolution.diagnostics

/-- Why the tree is empty, if the source does not say so. -/
def problem? : Reading → Option String
  | unreadable => some "<io>"
  | malformed _ error => some error.message
  | loaded .. => none

end Reading

/-! ## Reports -/

/-- What a conversion is to do. -/
structure ConversionOptions where
  /-- The name of the design system. -/
  space : String
  formats : List OutputFormat
  outputDirectory : Path

/-- The options that a configuration gives. -/
def Configuration.conversionOptions (config : Configuration) : ConversionOptions where
  space := config.tokens.space
  formats := config.tokens.formats
  outputDirectory := config.outputDirectory

/-- A file or directory could not be written. -/
structure WriteError where
  path : Path
  deriving DecidableEq, Repr

/-- The text a user reads. -/
def WriteError.message (e : WriteError) : String :=
  "could not write " ++ e.path.text ++ ": <io>"

/-- What happened to a source. -/
structure Report where
  source : Path
  /-- What was read; nothing if the source is missing. -/
  reading : Option Reading
  /-- What became of each format, in the order in which they were asked for. -/
  outcomes : List (OutputFormat × Except WriteError Path) := []

namespace Report

/-- Whether the source was missing. -/
def isSkipped (r : Report) : Bool :=
  r.reading.isNone

/-- The problems met while aliases were resolved. -/
def diagnostics (r : Report) : List Alias.Diagnostic :=
  (r.reading.map Reading.diagnostics).getD []

/-- Why the source was converted as an empty tree, if it was. -/
def problem? (r : Report) : Option String :=
  r.reading.bind Reading.problem?

/-- The files that were written. -/
def written (r : Report) : List Path :=
  r.outcomes.filterMap fun o => o.2.toOption

/-- The formats that were not written. -/
def failures (r : Report) : List (OutputFormat × WriteError) :=
  r.outcomes.filterMap fun o =>
    match o.2 with
    | .ok _ => none
    | .error e => some (o.1, e)

/-- Whether the source was there and everything about it went well. -/
def isClean (r : Report) : Bool :=
  !r.isSkipped && r.problem?.isNone && r.diagnostics.isEmpty && r.failures.isEmpty

end Report

/-! ## Events -/

namespace Alias

/-- What there is to tell about a problem of a definition. -/
def Diagnostic.definitionEvent : Diagnostic → Log.Event
  | unresolvedAlias name => .undefinedPointer name
  | cyclicAnchorChain chain => .cyclicChain chain

/-- What there is to tell about a problem of a marker. -/
def Diagnostic.markerEvent : Diagnostic → Log.Event
  | unresolvedAlias name => .undefinedMarker name
  | cyclicAnchorChain chain => .cyclicChain chain

/-- What there is to tell about resolving the aliases of a text. -/
def Resolution.events (r : Resolution) : List Log.Event :=
  r.definitionProblems.map Diagnostic.definitionEvent
    ++ r.markerProblems.map Diagnostic.markerEvent
    ++ [.resolved r.nameCount r.diagnostics.length]

end Alias

/-- What there is to tell about reading a source. -/
def Reading.events (source : Path) : Reading → List Log.Event
  | unreadable => [.sourceUnreadable source]
  | malformed resolution _ => resolution.events ++ [.sourceMalformed source]
  | loaded resolution tree skippedKeys =>
    resolution.events ++ skippedKeys.map Log.Event.skippedKey
      ++ [.loaded source tree.leaves.length]

/-- What there is to tell about a conversion. -/
def Report.events (r : Report) : List Log.Event :=
  match r.reading with
  | none => [.sourceMissing r.source]
  | some reading =>
    reading.events r.source ++ r.outcomes.map fun o =>
      match o.2 with
      | .ok path => .written o.1 path
      | .error _ => .notWritten o.1 r.source

/-! ## Converting -/

namespace FileSystem

/-- Write a tree in a format. The file is named for the source, and its directory is made if it is
missing. -/
def writeFormat (fs : FileSystem) (options : ConversionOptions) (base : String) (tree : Tree)
    (format : OutputFormat) : FileSystem × Except WriteError Path :=
  let (fs, made) := fs.makeDirectories options.outputDirectory
  if made then
    let path := options.outputDirectory.join ⟨base ++ "." ++ format.extension⟩
    match fs.write? path (format.render tree options.space base).toUTF8 with
    | some fs => (fs, .ok path)
    | none => (fs, .error ⟨path⟩)
  else (fs, .error ⟨options.outputDirectory⟩)

/-- Write a tree in several formats, one after the other. -/
def writeFormats (fs : FileSystem) (options : ConversionOptions) (base : String) (tree : Tree) :
    List OutputFormat → FileSystem × List (OutputFormat × Except WriteError Path)
  | [] => (fs, [])
  | format :: rest =>
    let (fs, outcome) := fs.writeFormat options base tree format
    let (fs, outcomes) := writeFormats fs options base tree rest
    (fs, (format, outcome) :: outcomes)

/-- What reading a source gives; nothing if it is missing. -/
def readSource (fs : FileSystem) (source : Path) : Option Reading :=
  if fs.contains source then some (((fs.readText? source).map Reading.ofText).getD .unreadable)
  else none

/-- Convert a source. -/
def convert (fs : FileSystem) (options : ConversionOptions) (source : Path) :
    FileSystem × Report :=
  match fs.readSource source with
  | none => (fs, { source := source, reading := none })
  | some reading =>
    let (fs, outcomes) :=
      fs.writeFormats options source.baseName reading.tree options.formats
    (fs, { source := source, reading := some reading, outcomes := outcomes })

/-- Convert sources one after the other, each with the files that those before it left. -/
def convertAll (fs : FileSystem) (options : ConversionOptions) :
    List Path → FileSystem × List Report
  | [] => (fs, [])
  | source :: rest =>
    let (fs, report) := fs.convert options source
    let (fs, reports) := convertAll fs options rest
    (fs, report :: reports)

end FileSystem

end DesignTokens
