/-!
# Occurrences of a pattern

A text holds a pattern `n` times if `n` occurrences can be found one behind the other, so that no
two of them overlap. Two texts side by side hold what they hold by themselves; an occurrence that
reaches from the one into the other is not counted.
-/

namespace DesignTokens.Text

/-- A text in which a pattern occurs at least so many times, each occurrence behind the end of the
one before it. -/
inductive Occurs (pattern : List Char) : Nat → List Char → Prop where
  | none (text : List Char) : Occurs pattern 0 text
  | next (gap : List Char) {n : Nat} {text : List Char} :
      Occurs pattern n text → Occurs pattern (n + 1) (gap ++ (pattern ++ text))

namespace Occurs

variable {pattern : List Char}

theorem append_left (before : List Char) {n : Nat} {text : List Char}
    (h : Occurs pattern n text) : Occurs pattern n (before ++ text) := by
  cases h with
  | none text => exact .none _
  | next gap h =>
    rw [← List.append_assoc]
    exact .next (before ++ gap) h

/-- What two texts hold, they hold together. -/
theorem append {m n : Nat} {text more : List Char} (h : Occurs pattern m text)
    (hmore : Occurs pattern n more) : Occurs pattern (m + n) (text ++ more) := by
  induction h with
  | none text =>
    rw [Nat.zero_add]
    exact hmore.append_left text
  | @next gap m text _ ih =>
    rw [Nat.add_right_comm, List.append_assoc, List.append_assoc]
    exact .next gap ih

/-- A text that begins with the pattern. -/
theorem self_append (text : List Char) : Occurs pattern 1 (pattern ++ text) :=
  .next [] (.none text)

end Occurs

end DesignTokens.Text
