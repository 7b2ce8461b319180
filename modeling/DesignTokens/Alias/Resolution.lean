import DesignTokens.Alias.Marker
import DesignTokens.Alias.Trace

/-!
# Alias resolution

Token sources refer to values by name, in a notation that is resolved in the raw text before the
text is read as a document. Resolution has two steps, and both work on each line by itself:

- a definition whose value is a pointer gets its traced value (`settleDefinition`);
- every marker is replaced by the traced value of the last definition of its name, without the
  quotation marks around it (`markerValue`).

A name that nothing defines and a chain that loops leave a placeholder in the text and a
diagnostic in the report.
-/

namespace DesignTokens.Alias

open Text

/-- Drop one quotation mark at each end that has one. -/
def unquote (value : List Char) : List Char :=
  let opened := match value with
    | '"' :: rest => rest
    | _ => value
  match opened.reverse with
  | '"' :: rest => rest.reverse
  | _ => opened

/-- A text whose aliases have been resolved, and what went wrong on the way. -/
structure Resolution where
  text : String
  /-- How many different names the text defines. -/
  nameCount : Nat
  /-- The problems of definitions, in the order of the definitions. -/
  definitionProblems : List Diagnostic
  /-- The problems of markers, in the order of the markers. -/
  markerProblems : List Diagnostic
  deriving DecidableEq, Repr

namespace Anchors

/-- Give the definition of a line its traced value, if its own value is a pointer. -/
def settleDefinition (anchors : Anchors) (line : List Char) : List Char :=
  match Definition.find? line with
  | none => line
  | some d =>
    if (pointerTarget? d.value).isSome then
      { d with rest := (anchors.trace ⟨d.name, d.value⟩).value }.line
    else line

/-- The value a marker stands for, if its name is defined. -/
def markerValue? (anchors : Anchors) (name : List Char) : Option (List Char) :=
  (anchors.last? name).map fun a => unquote (anchors.trace a).value

/-- What is written in the place of a marker. -/
def markerValue (anchors : Anchors) (name : List Char) : List Char :=
  (anchors.markerValue? name).getD (Trace.missingValue name)

/-- Resolve one line. -/
def resolveLine (anchors : Anchors) (line : List Char) : List Char :=
  substitute anchors.markerValue (anchors.settleDefinition line)

/-- The names that the markers of a text use and nothing defines. -/
def undefinedMarkers (anchors : Anchors) (text : List Char) : List (List Char) :=
  (markerNames text).filter fun name => (anchors.last? name).isNone

end Anchors

/-- Resolve the aliases of a text. -/
def resolve (raw : String) : Resolution :=
  let anchors := Anchors.ofText raw.toList
  let settled := mapLines anchors.settleDefinition raw.toList
  { text := String.ofList (mapLines anchors.resolveLine raw.toList)
    nameCount := anchors.nameCount
    definitionProblems := anchors.traces.filterMap Trace.diagnostic?
    markerProblems := (anchors.undefinedMarkers settled).map fun name =>
      .unresolvedAlias (String.ofList name) }

namespace Resolution

/-- All problems: those of definitions come before those of markers. -/
def diagnostics (r : Resolution) : List Diagnostic :=
  r.definitionProblems ++ r.markerProblems

/-- Whether nothing went wrong. -/
def isClean (r : Resolution) : Bool :=
  r.diagnostics.isEmpty

end Resolution

end DesignTokens.Alias
