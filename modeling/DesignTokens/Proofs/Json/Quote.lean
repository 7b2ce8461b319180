import DesignTokens.Format.Json
import DesignTokens.Proofs.Json.Decode

/-!
# Strings are read back

Every character is one code unit, however it is written (`units?_escape`), and no character is half
of a surrogate pair (`chars?_toNat`). A quoted string is therefore read back whatever characters it
has: `string?_quote`.
-/

namespace DesignTokens.Json

/-- The escape of a control character has the digits of its number. -/
theorem hex?_control : ∀ n, n < 32 →
    hex? ['0', '0', Nat.digitChar (n / 16), Nat.digitChar (n % 16)] = some n := by
  decide

/-- A character that is escaped by one letter. -/
theorem units?_letter {e d : Char} (he : escaped? e = some d) (cs : List Char) :
    units? ('\\' :: e :: cs) = (units? cs).map fun r => (d.toNat :: r.1, r.2) := by
  rw [units?.eq_def]
  dsimp only
  rw [if_neg (by decide), if_pos rfl]
  split
  · rename_i heq
    rw [(List.cons.inj heq).1] at he
    exact absurd he.symm (Option.some_ne_none d)
  · rename_i heq
    obtain ⟨rfl, rfl⟩ := List.cons.inj heq
    rw [he]
    rfl
  · rename_i heq
    exact absurd heq (List.cons_ne_nil e cs)

/-- A control character that is escaped by its number. -/
theorem units?_hex {h₁ h₂ h₃ h₄ : Char} {u : Nat} (hu : hex? [h₁, h₂, h₃, h₄] = some u)
    (cs : List Char) :
    units? ('\\' :: 'u' :: h₁ :: h₂ :: h₃ :: h₄ :: cs)
      = (units? cs).map fun r => (u :: r.1, r.2) := by
  rw [units?.eq_def]
  dsimp only
  rw [if_neg (by decide), if_pos rfl]
  show (hex? [h₁, h₂, h₃, h₄]).bind _ = _
  rw [hu]
  rfl

/-- A character that stands for itself. -/
theorem units?_self {c : Char} (hquote : c ≠ '"') (hslash : c ≠ '\\') (hcontrol : ¬ c.toNat < 0x20)
    (cs : List Char) : units? (c :: cs) = (units? cs).map fun r => (c.toNat :: r.1, r.2) := by
  rw [units?.eq_def]
  dsimp only
  rw [if_neg hquote, if_neg hslash, if_neg hcontrol]

/-- A character is read back as one unit. -/
theorem units?_escape (c : Char) (cs : List Char) :
    units? (escape c ++ cs) = (units? cs).map fun r => (c.toNat :: r.1, r.2) := by
  unfold escape
  split
  · exact units?_letter rfl cs
  · exact units?_letter rfl cs
  · exact units?_letter rfl cs
  · exact units?_letter rfl cs
  · exact units?_letter rfl cs
  · exact units?_letter rfl cs
  · exact units?_letter rfl cs
  · -- none of the characters that have a letter
    rename_i hquote hslash _ _ _ _ _
    by_cases hcontrol : c.toNat < 0x20
    · rw [if_pos hcontrol]
      exact units?_hex (hex?_control c.toNat hcontrol) cs
    · rw [if_neg hcontrol]
      exact units?_self hquote hslash hcontrol cs

theorem units?_flatMap_escape (cs rest : List Char) :
    units? (cs.flatMap escape ++ '"' :: rest) = some (cs.map Char.toNat, rest) := by
  induction cs with
  | nil =>
    show units? ('"' :: rest) = _
    rw [units?.eq_def]
    rfl
  | cons c cs ih =>
    rw [List.flatMap_cons, List.append_assoc, units?_escape, ih, List.map_cons]
    rfl

/-- The numbers of characters leave out the halves of pairs. -/
theorem not_surrogate (c : Char) :
    isHighSurrogate c.toNat = false ∧ isLowSurrogate c.toNat = false := by
  have hvalid : c.toNat < 0xD800 ∨ 0xDFFF < c.toNat ∧ c.toNat < 0x110000 := c.valid
  unfold isHighSurrogate isLowSurrogate
  simp only [Bool.and_eq_false_iff, decide_eq_false_iff_not]
  omega

theorem chars?_toNat (cs : List Char) : chars? (cs.map Char.toNat) = some cs := by
  induction cs with
  | nil => rfl
  | cons c cs ih =>
    obtain ⟨hhigh, hlow⟩ := not_surrogate c
    rw [List.map_cons, chars?.eq_def]
    dsimp only
    rw [hhigh, hlow, if_neg Bool.false_ne_true, if_neg Bool.false_ne_true, ih, Option.map_some,
      Char.ofNat_toNat]

/-- **A quoted string is read back, whatever characters it has.** -/
theorem string?_quote (s : String) (rest : List Char) :
    ∃ cs, quote s ++ rest = '"' :: cs ∧ string? cs = some (s, rest) := by
  refine ⟨s.toList.flatMap escape ++ '"' :: rest, ?_, ?_⟩
  · unfold quote
    simp only [List.cons_append, List.append_assoc, List.nil_append]
  · unfold string?
    rw [units?_flatMap_escape, Option.bind_some, chars?_toNat, Option.map_some,
      String.ofList_toList]

end DesignTokens.Json
