import DesignTokens.Alias.Diagnostic
import DesignTokens.Format.Basic
import DesignTokens.Path
import DesignTokens.Text.Visible

/-!
# Log

What the program tells its user while it works. An event has a level and comes from a part of the
program; a `Filter` says for each part from which level on its events are shown.
-/

namespace DesignTokens.Log

/-- How grave an event is, from the gravest on. -/
inductive Level where
  | error
  | warn
  | info
  | debug
  | trace
  deriving DecidableEq, Repr

namespace Level

/-- The gravest level is the first. -/
def rank : Level → Nat
  | error => 1
  | warn => 2
  | info => 3
  | debug => 4
  | trace => 5

/-- The name of a level at the beginning of a line. -/
def name : Level → String
  | error => "ERROR"
  | warn => "WARN"
  | info => "INFO"
  | debug => "DEBUG"
  | trace => "TRACE"

/-- Read the name or the rank of a level; `off` is rank zero. -/
def rank? (text : String) : Option Nat :=
  let word := String.ofList (text.toList.map Char.toLower)
  [("off", 0), ("error", 1), ("warn", 2), ("info", 3), ("debug", 4), ("trace", 5), ("0", 0),
    ("1", 1), ("2", 2), ("3", 3), ("4", 4), ("5", 5)].lookup word

end Level

/-- Something worth telling. -/
inductive Event where
  | cyclicChain (chain : List String)
  | undefinedPointer (name : String)
  | undefinedMarker (name : String)
  | resolved (anchors diagnostics : Nat)
  | skippedKey (kind : String)
  | sourceMissing (source : Path)
  | sourceUnreadable (source : Path)
  | sourceMalformed (source : Path)
  | loaded (source : Path) (leaves : Nat)
  | written (format : OutputFormat) (path : Path)
  | notWritten (format : OutputFormat) (source : Path)
  | baseUnreadable (base : Path)
  | noMatches (pattern : Path)
  deriving DecidableEq, Repr

namespace Event

/-- How grave an event is. -/
def level : Event → Level
  | written .. => .info
  | resolved .. => .debug
  | loaded .. => .debug
  | _ => .warn

/-- The part of the program an event comes from. -/
def component : Event → String
  | cyclicChain _ => "tokens_parser::resolving"
  | undefinedPointer _ => "tokens_parser::resolving"
  | undefinedMarker _ => "tokens_parser::resolving"
  | resolved .. => "tokens_parser::resolving"
  | skippedKey _ => "tokens_parser::loading"
  | sourceMissing _ => "tokens_babel::convert"
  | sourceUnreadable _ => "tokens_babel::convert"
  | sourceMalformed _ => "tokens_babel::convert"
  | loaded .. => "tokens_babel::convert"
  | written .. => "tokens_babel::convert"
  | notWritten .. => "tokens_babel::convert"
  | baseUnreadable _ => "tokens_config"
  | noMatches _ => "tokens_config"

/-- The text that stands for a character between quotation marks. -/
def escape (c : Char) : List Char :=
  match c with
  | '"' => ['\\', '"']
  | '\\' => ['\\', '\\']
  | '\n' => ['\\', 'n']
  | '\r' => ['\\', 'r']
  | '\t' => ['\\', 't']
  | '\x00' => ['\\', '0']
  | c => if Text.isVisible c then [c] else '\\' :: 'u' :: '{' :: Nat.toDigits 16 c.toNat ++ ['}']

/-- A text in quotation marks. -/
def quoted (s : String) : String :=
  String.ofList ('"' :: s.toList.flatMap escape ++ ['"'])

/-- What an event says. -/
def message : Event → String
  | cyclicChain chain => "cyclic anchor chain chain=" ++ Alias.arrowed chain
  | undefinedPointer name => "anchor points to an undefined anchor anchor=" ++ quoted name
  | undefinedMarker name => "alias refers to an undefined anchor anchor=" ++ quoted name
  | resolved anchors diagnostics =>
    "resolved alias markers anchors=" ++ toString anchors ++ " diagnostics="
      ++ toString diagnostics
  | skippedKey kind => "skipping token with a non-scalar key kind=" ++ quoted kind
  | sourceMissing source => source.text ++ " cannot be found, token files not built"
  | sourceUnreadable source => "could not read tokens file " ++ source.text
  | sourceMalformed source => "could not parse tokens file " ++ source.text ++ " into JSON"
  | loaded source leaves => "loaded " ++ source.text ++ " tokens=" ++ toString leaves
  | written format path => "wrote token file format=" ++ format.name ++ " path=" ++ path.text
  | notWritten format source =>
    "could not write token file format=" ++ format.name ++ " source=" ++ source.text
  | baseUnreadable base => "skipping unreadable path under " ++ base.text
  | noMatches pattern => "no token sources match " ++ pattern.text

/-- The line of an event. -/
def line (e : Event) : String :=
  e.level.name ++ " " ++ e.message

end Event

/-! ## Filters -/

/-- A rule for the events from the parts whose names begin with `component`: those are shown whose
level has at most the given rank. -/
structure Rule where
  component : String
  rank : Nat
  deriving DecidableEq, Repr

/-- The rules of a filter. Of the rules for a part the one with the longest name counts, and of
those the last. -/
abbrev Filter := List Rule

namespace Filter

/-- The filter that shows the same levels of all parts. -/
def upTo (level : Level) : Filter :=
  [⟨"", level.rank⟩]

/-- Whether a rule is about an event. -/
def applies (e : Event) (r : Rule) : Bool :=
  r.component.toList.isPrefixOf e.component.toList

/-- The rule that counts for an event. -/
def rule? (f : Filter) (e : Event) : Option Rule :=
  (f.filter (applies e)).foldl (fun best r =>
    match best with
    | none => some r
    | some b => if b.component.length ≤ r.component.length then some r else some b) none

/-- Whether an event is shown. Without a rule for it, it is not. -/
def shows (f : Filter) (e : Event) : Bool :=
  (f.rule? e).any fun r => decide (e.level.rank ≤ r.rank)

/-- Whether a character may stand in the name of a part. -/
def isNameChar (c : Char) : Bool :=
  c.isAlphanum || c == '_' || c == '-' || c == ':'

/-- Read one rule: a level for all parts, the name of a part, or both with an equals sign between
them. -/
def rule (text : String) : Option Rule :=
  match Level.rank? text with
  | some rank => some ⟨"", rank⟩
  | none =>
    let chars := text.toList
    let name := chars.takeWhile isNameChar
    if name.isEmpty then none
    else
      match chars.dropWhile isNameChar with
      | [] => some ⟨text, Level.trace.rank⟩
      | '=' :: level =>
        if level.isEmpty then some ⟨String.ofList name, Level.trace.rank⟩
        else (Level.rank? (String.ofList level)).map fun rank => ⟨String.ofList name, rank⟩
      | _ => none

/-- Read rules with commas between them; without any rule only errors are shown. -/
def ofText? (text : String) : Option Filter :=
  let parts := (text.toList.splitOnP (· == ',')).filter (!·.isEmpty)
  (parts.mapM fun part => rule (String.ofList (Text.trim part))).map fun rules =>
    if rules.isEmpty then upTo .error else rules

/-- The lines of the events that are shown. -/
def lines (f : Filter) (events : List Event) : List String :=
  (events.filter f.shows).map Event.line

end Filter

end DesignTokens.Log
