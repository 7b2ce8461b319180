import DesignTokens.Command.Request
import DesignTokens.Conversion
import DesignTokens.Glob.Sources

/-!
# Outcomes

What a run of the program does: its exit code, what it prints, the lines of its log and the files
that it leaves. A build succeeds even if sources are skipped or files cannot be written; the log
tells of them.
-/

namespace DesignTokens

/-- What a run of the program does. -/
structure Outcome where
  exitCode : Nat
  /-- What goes to the standard output. -/
  output : String := ""
  /-- What goes to the standard error apart from the log, without the reason. -/
  complaint : Option String := none
  events : List Log.Event := []
  files : FileSystem

namespace Outcome

/-- A run that fails with a complaint. -/
def failure (fs : FileSystem) (complaint : String) (events : List Log.Event := []) : Outcome :=
  { exitCode := 1, complaint := some complaint, events := events, files := fs }

end Outcome

namespace BuildRequest

/-- The settings file that is used if none is given and it is there. -/
def defaultFile : Path := ⟨"tokens.toml"⟩

/-- The layers of settings that a request makes. -/
def layers (r : BuildRequest) : List Layer :=
  [match r.config with
    | some path => .file path true
    | none => .file defaultFile false]
    ++ (r.space.map fun s => Layer.override "tokens.namespace" (.text s)).toList
    ++ (if r.formats.isEmpty then []
      else [.override "tokens.formats" (.list (r.formats.map .text))])
    ++ (r.outputDirectory.map fun s => Layer.override "tokens.output_path" (.text s)).toList

/-- The sources to convert: those of the request, or else those of the configuration. -/
def expansion? (r : BuildRequest) (fs : FileSystem) (config : Configuration) :
    Option Sources.Expansion :=
  if r.sources.isEmpty then Sources.expand? fs config.tokens.sourceFile
  else some { sources := r.sources }

/-- Convert the sources; the paths of the files written are printed. -/
def run (r : BuildRequest) (fs : FileSystem) : Outcome :=
  match Configuration.load fs r.layers with
  | .error _ => .failure fs "Configuration error"
  | .ok config =>
    match r.expansion? fs config with
    | none => .failure fs "Configuration error"
    | some found =>
      let (fs, reports) := fs.convertAll config.conversionOptions found.sources
      { exitCode := 0
        output := String.join ((reports.flatMap Report.written).map fun p => p.text ++ "\n")
        events := found.events ++ reports.flatMap Report.events
        files := fs }

end BuildRequest

namespace Command

/-- The list of the output formats. -/
def formatList : String :=
  "Available output formats:\n\n" ++ String.join (OutputFormat.all.map fun f =>
    "  " ++ f.name ++ " (." ++ f.extension ++ ")\n    " ++ f.description ++ "\n\n")

/-- Run a command. -/
def run (fs : FileSystem) : Command → Outcome
  | build request => request.run fs
  | resolve source =>
    match fs.readText? source with
    | none => .failure fs ("Error reading " ++ source.text)
    | some text =>
      let resolution := Alias.resolve text
      { exitCode := 0, output := resolution.text, events := resolution.events, files := fs }
  | formats => { exitCode := 0, output := formatList, files := fs }

end Command

namespace Outcome

/-- What a run with the given arguments does. -/
def ofRequest (fs : FileSystem) : Except Command.Stop Command.Request → Outcome
  | .error stop => { exitCode := stop.exitCode, output := stop.output, files := fs }
  | .ok request => request.command.run fs

/-- The filter for the log of a run: the user's rules if there are any and they are well-formed,
and otherwise warnings, or more if the user wants to hear more. -/
def filter (rules : Option String) (request : Except Command.Stop Command.Request) : Log.Filter :=
  let verbose := match request with
    | .ok request => request.verbose
    | .error _ => false
  (rules.bind Log.Filter.ofText?).getD (.upTo (if verbose then .info else .warn))

end Outcome

/-- What a run of the program prints and leaves. -/
structure Run where
  exitCode : Nat
  output : String
  complaint : Option String
  log : List String
  files : FileSystem

/-- Run the program with arguments and, if there are any, rules for its log. -/
def Run.ofArguments (fs : FileSystem) (args : List String) (rules : Option String) : Run :=
  let request := Command.ofArguments args
  let outcome := Outcome.ofRequest fs request
  { exitCode := outcome.exitCode
    output := outcome.output
    complaint := outcome.complaint
    log := (Outcome.filter rules request).lines outcome.events
    files := outcome.files }

end DesignTokens
