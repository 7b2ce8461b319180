import DesignTokens.Format.Basic
import DesignTokens.Settings.Layer

/-!
# Configuration

What the settings of a project say about its token sources and its output files. A configuration
is read from settings by `ofSettings`, which refuses values of the wrong type, and `load` also
refuses names of design systems that could not stand in the variables of a stylesheet.
-/

namespace DesignTokens

/-- Where tokens come from and how they are written. -/
structure TokenSettings where
  /-- The path of the token source, or a pattern for several. -/
  sourceFile : Path
  /-- The output directory, if it is given apart. -/
  outputPath : Option Path
  /-- The name of the design system. -/
  space : String
  formats : List OutputFormat

/-- The configuration of a project. -/
structure Configuration where
  rootPath : Path
  tokensPath : Path
  tokens : TokenSettings

namespace Setting

/-- The text of a setting that must have one. -/
def expectText (s : Setting) : Except SettingsError String :=
  match s.text? with
  | some words => .ok words
  | none => .error .wrongType

/-- The text of a setting that must be there. -/
def requiredText (s : Option Setting) : Except SettingsError String :=
  (s.getD nil).expectText

/-- The path of a setting that may be missing or empty. -/
def path? : Option Setting → Except SettingsError (Option Path)
  | none => .ok none
  | some nil => .ok none
  | some s => do return some ⟨← s.expectText⟩

/-- The format that a setting names. -/
def format (s : Setting) : Except SettingsError OutputFormat := do
  let text ← s.expectText
  match OutputFormat.ofText? text with
  | some format => return format
  | none => .error (.unknownFormat text)

/-- The formats that a list of settings names. -/
def formats : Option Setting → Except SettingsError (List OutputFormat)
  | some (list items) => items.mapM format
  | _ => .error .wrongType

end Setting

namespace TokenSettings

/-- Read the settings of a table or, in the order of the fields, of a list. -/
def ofSetting : Setting → Except SettingsError TokenSettings
  | .table entries => do
    let sourceFile ← Setting.requiredText (Table.get? entries "source_file")
    let outputPath ← Setting.path? (Table.get? entries "output_path")
    let space ← Setting.requiredText (Table.get? entries "namespace")
    let formats ← Setting.formats (Table.get? entries "formats")
    return ⟨⟨sourceFile⟩, outputPath, space, formats⟩
  | .list (sourceFile :: outputPath :: space :: formats :: _) => do
    let sourceFile ← sourceFile.expectText
    let outputPath ← Setting.path? (some outputPath)
    let space ← space.expectText
    let formats ← Setting.formats (some formats)
    return ⟨⟨sourceFile⟩, outputPath, space, formats⟩
  | _ => .error .wrongType

end TokenSettings

namespace Configuration

/-- Read the configuration that settings describe. -/
def ofSettings (settings : Setting) : Except SettingsError Configuration := do
  let rootPath ← Setting.requiredText (Table.get? settings.entries "root_path")
  let tokensPath ← Setting.requiredText (Table.get? settings.entries "tokens_path")
  let tokens ← TokenSettings.ofSetting ((Table.get? settings.entries "tokens").getD .nil)
  return ⟨⟨rootPath⟩, ⟨tokensPath⟩, tokens⟩

/-- Whether a character may stand in the name of a design system. -/
def isNameChar (c : Char) : Bool :=
  c.isAlphanum || c == '-' || c == '_'

/-- Refuse a name that is empty or has other characters. -/
def checkName (name : String) : Except SettingsError Unit :=
  if name.isEmpty then .error .emptyNamespace
  else
    match name.toList.find? fun c => !isNameChar c with
    | some c => .error (.badNamespace name c)
    | none => .ok ()

/-- The configuration that layers make together with the defaults. -/
def load (fs : FileSystem) (layers : List Layer) : Except SettingsError Configuration := do
  let config ← ofSettings (← Layer.settings fs layers)
  checkName config.tokens.space
  return config

/-- The directory that output files are written to. -/
def outputDirectory (config : Configuration) : Path :=
  config.tokens.outputPath.getD (config.rootPath.join config.tokensPath)

end Configuration

end DesignTokens
