import DesignTokens.FileSystem
import DesignTokens.Format.Basic
import DesignTokens.Settings.KeyPath
import DesignTokens.Toml.Document

/-!
# Layers of settings

The settings of a project come in layers: the defaults first, then files in the order in which they
are named, then overrides of single settings. Later layers win, and overrides win over all files.

The path of every override is read before any file is opened, so a malformed path is reported even
if a file is missing.
-/

namespace DesignTokens

/-- What settings are taken from. -/
inductive Layer where
  /-- A file; if it is not required, it counts as empty when it cannot be read. -/
  | file (path : Path) (required : Bool)
  | override (key : String) (value : Setting)

/-- Why settings cannot be used. -/
inductive SettingsError where
  | malformedKey
  | missingFile
  | malformedFile
  | wrongType
  | unknownFormat (text : String)
  | emptyNamespace
  | badNamespace (name : String) (c : Char)
  deriving DecidableEq, Repr

/-- What is said of a name or a format that is not allowed; nothing is said of the other errors. -/
def SettingsError.message : SettingsError → String
  | malformedKey => ""
  | missingFile => ""
  | malformedFile => ""
  | wrongType => ""
  | unknownFormat text => OutputFormat.unknownMessage text
  | emptyNamespace => "tokens.namespace must not be empty"
  | badNamespace name c =>
    "tokens.namespace '" ++ name ++ "' contains '" ++ c.toString
      ++ "'; only letters, digits, '-' and '_' are allowed"

namespace Layer

/-- The settings that hold if nothing else is said. -/
def defaults : Table Setting :=
  [("root_path", .text "."),
   ("tokens_path", .text "tokens"),
   ("tokens", .table
     [("source_file", .text "tokens/tokens.yaml"),
      ("namespace", .text "esds"),
      ("formats", .list [.text ".json", .text ".scss"])])]

/-! ## Files -/

/-- The path of a settings file as it may be abbreviated: without its extension. -/
def withExtension? (p : Path) : Option Path :=
  p.fileName?.map fun name => (p.parent?.getD ⟨""⟩).join ⟨name ++ ".toml"⟩

/-- The settings file that a path names. -/
def locateFile? (fs : FileSystem) (p : Path) : Option Path :=
  if fs.isFile p then some p else (withExtension? p).filter fs.isFile

/-- The settings in a file. -/
def readFile (fs : FileSystem) (p : Path) (required : Bool) :
    Except SettingsError (Table Setting) :=
  match (locateFile? fs p).bind fs.readText? with
  | none => if required then .error .missingFile else .ok []
  | some text =>
    match Toml.table? text with
    | some entries => .ok entries
    | none => .error .malformedFile

/-- Put the settings of a file over others. A key that reads as a path means the setting at that
path. -/
def putFile (settings : Setting) (entries : Table Setting) : Setting :=
  entries.foldl (fun settings entry =>
    settings.put entry.2 ((KeyPath.ofText? entry.1).getD [.key entry.1])) settings

/-! ## Overrides -/

/-- The overrides among layers, with their paths. -/
def overrides : List Layer → Except SettingsError (List (KeyPath × Setting))
  | [] => .ok []
  | .file .. :: rest => overrides rest
  | .override key value :: rest =>
    match KeyPath.ofText? key with
    | none => .error .malformedKey
    | some path => do return (path, value) :: (← overrides rest)

/-- Of several overrides of one path the last one. -/
def lastOnly : List (KeyPath × Setting) → List (KeyPath × Setting)
  | [] => []
  | (path, value) :: rest =>
    if rest.any fun o => o.1 == path then lastOnly rest else (path, value) :: lastOnly rest

/-- Put the files among layers over settings. -/
def putFiles (fs : FileSystem) (settings : Setting) : List Layer → Except SettingsError Setting
  | [] => .ok settings
  | .override .. :: rest => putFiles fs settings rest
  | .file path required :: rest => do
    putFiles fs (putFile settings (← readFile fs path required)) rest

/-- The settings that layers make together with the defaults. -/
def settings (fs : FileSystem) (layers : List Layer) : Except SettingsError Setting := do
  let overrides ← overrides layers
  let files ← putFiles fs (.table defaults) layers
  return (lastOnly overrides).foldl (fun settings o => settings.put o.2 o.1) files

end Layer

end DesignTokens
