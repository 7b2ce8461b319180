import DesignTokens.Command.Word
import DesignTokens.Path

/-!
# Requests

What the arguments of the program ask for: one of its commands, or something that ends the program
before any command runs (`Stop`). Words count from left to right, so a request for help is granted
if what comes before it is well-formed, whatever comes after it.
-/

namespace DesignTokens

/-- The arguments of a build. -/
structure BuildRequest where
  sources : List Path := []
  /-- The settings file. -/
  config : Option Path := none
  space : Option String := none
  formats : List String := []
  outputDirectory : Option String := none
  deriving DecidableEq, Repr

/-- A command of the program. -/
inductive Command where
  /-- Convert sources. -/
  | build (request : BuildRequest)
  /-- Print a source with its aliases resolved. -/
  | resolve (source : Path)
  /-- List the output formats. -/
  | formats
  deriving DecidableEq, Repr

namespace Command

/-- Why no command runs. -/
inductive Stop where
  | help
  | version
  /-- There are flags but no command. -/
  | idle
  | misuse
  deriving DecidableEq, Repr

/-- The exit code of the program if no command runs. -/
def Stop.exitCode : Stop → Nat
  | help => 0
  | version => 0
  | idle => 1
  | misuse => 2

/-- What is printed if no command runs. -/
def Stop.output : Stop → String
  | version => "tokens 0.1.0\n"
  | _ => ""

/-- How the program is used. -/
def usage : String :=
  "Usage: tokens [-v] build [SOURCE...] [-c FILE] [-n NAMESPACE] [-f FORMAT]... [-o DIRECTORY]\n"
    ++ "       tokens [-v] resolve SOURCE\n"
    ++ "       tokens [-v] formats\n"

/-! ## Words given to a command -/

/-- What the words so far say. -/
structure Given where
  verbose : Bool := false
  build : BuildRequest := {}

namespace Given

/-- Give a parameter its value. Only formats may be given more than once. -/
def setParameter (g : Given) (p : Parameter) (value : String) : Except Stop Given :=
  match p with
  | .config =>
    if g.build.config.isSome then .error .misuse
    else .ok { g with build := { g.build with config := some ⟨value⟩ } }
  | .space =>
    if g.build.space.isSome then .error .misuse
    else .ok { g with build := { g.build with space := some value } }
  | .format => .ok { g with build := { g.build with formats := g.build.formats ++ [value] } }
  | .outputDirectory =>
    if g.build.outputDirectory.isSome then .error .misuse
    else .ok { g with build := { g.build with outputDirectory := some value } }

/-- Add a word. At most `limit` sources are allowed, if there is a limit. -/
def add (limit : Option Nat) (g : Given) : Word → Except Stop Given
  | .misuse => .error .misuse
  | .flag .help => .error .help
  | .flag .version => .error .version
  | .flag .verbose => if g.verbose then .error .misuse else .ok { g with verbose := true }
  | .parameter p value => g.setParameter p value
  | .source text =>
    if limit.any fun n => decide (n ≤ g.build.sources.length) then .error .misuse
    else .ok { g with build := { g.build with sources := g.build.sources ++ [⟨text⟩] } }

end Given

/-! ## Requests -/

/-- A command and whether the user wants to hear more of it. -/
structure Request where
  verbose : Bool
  command : Command

/-- The words known before the name of a command. -/
def leading : Vocabulary where
  flags := [.verbose, .help, .version]

/-- The words known behind the name of a command; only a build has parameters. -/
def behind (parameters : List Parameter) : Vocabulary where
  flags := [.verbose, .help]
  parameters := parameters

/-- The names of the commands that help can be asked for. -/
def names : List String := ["build", "resolve", "formats", "help"]

/-- Read the arguments behind the name of a command. -/
def ofName (verbose : Bool) (name : String) (args : List String) : Except Stop Request := do
  match name with
  | "build" =>
    let g ← ((behind [.config, .space, .format, .outputDirectory]).words args).foldlM
      (Given.add none) {}
    return ⟨verbose || g.verbose, .build g.build⟩
  | "resolve" =>
    let g ← ((behind []).words args).foldlM (Given.add (some 1)) {}
    match g.build.sources with
    | [source] => return ⟨verbose || g.verbose, .resolve source⟩
    | _ => .error .misuse
  | "formats" =>
    let g ← ((behind []).words args).foldlM (Given.add (some 0)) {}
    return ⟨verbose || g.verbose, .formats⟩
  | "help" =>
    match args with
    | [] => .error .help
    | [name] => .error (if names.contains name then .help else .misuse)
    | _ => .error .misuse
  | _ => .error .misuse

/-- Read the arguments of the program, given what the flags so far say. -/
def readArguments (g : Given) : List String → Except Stop Request
  | [] => .error (if g.verbose then .idle else .misuse)
  | arg :: rest =>
    if arg = "--" then
      .error (if rest.isEmpty && g.verbose then .idle else .misuse)
    else if Vocabulary.isMarked arg then do
      readArguments (← (leading.argument arg none).1.foldlM (Given.add (some 0)) g) rest
    else ofName g.verbose arg rest

/-- What the arguments of the program ask for. -/
def ofArguments (args : List String) : Except Stop Request :=
  readArguments {} args

end Command

end DesignTokens
