import DesignTokens.Text.Blank

/-!
# Alias markers

A marker is the text of an exclamation mark, an opening brace, a star, a name and a closing brace,
where the name holds neither blanks nor braces. `segments` cuts a text into its markers, found from
the left, and the single characters between them.
-/

namespace DesignTokens.Alias

open Text

/-- Whether a character may stand in the name of a marker. -/
def isMarkerNameChar (c : Char) : Bool :=
  !isBlank c && c != '{' && c != '}'

/-- Read a marker at the beginning of a text: its name and what follows it. -/
def marker? : List Char → Option (List Char × List Char)
  | '!' :: '{' :: '*' :: cs =>
    match cs.dropWhile isMarkerNameChar with
    | '}' :: rest => some (cs.takeWhile isMarkerNameChar, rest)
    | _ => none
  | _ => none

theorem length_lt_of_marker? {text name rest : List Char} (h : marker? text = some (name, rest)) :
    rest.length < text.length := by
  unfold marker? at h
  split at h
  · rename_i cs
    split at h
    · rename_i r hr
      obtain ⟨-, rfl⟩ : cs.takeWhile isMarkerNameChar = name ∧ r = rest := by simpa using h
      have := (List.dropWhile_sublist (p := isMarkerNameChar) (l := cs)).length_le
      simp only [hr, List.length_cons] at this ⊢
      omega
    · simp at h
  · simp at h

/-- A piece of a text. -/
inductive Segment where
  | plain (c : Char)
  | marker (name : List Char)
  deriving DecidableEq, Repr

/-- The markers of a text, leftmost first and not overlapping, and the characters between them. -/
def segments (text : List Char) : List Segment :=
  match _h : marker? text with
  | some (name, rest) => .marker name :: segments rest
  | none =>
    match text with
    | [] => []
    | c :: cs => .plain c :: segments cs
termination_by text.length
decreasing_by
  · exact length_lt_of_marker? _h
  · simp

/-- The names in the markers of a text, in order. -/
def markerNames (text : List Char) : List (List Char) :=
  (segments text).filterMap fun
    | .plain _ => none
    | .marker name => some name

/-- Put a value in the place of every marker. The values are not searched for markers again. -/
def substitute (value : List Char → List Char) (text : List Char) : List Char :=
  (segments text).flatMap fun
    | .plain c => [c]
    | .marker name => value name

end DesignTokens.Alias
