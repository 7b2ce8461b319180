import DesignTokens.Decimal.Shortest

/-!
# Shortest decimals are not zero

The interval around a number that is not zero leaves zero out, so that no grid gives it, and neither
does taking off trailing zeros: `shortest_ne_zero`.
-/

namespace DesignTokens

namespace Decimal

/-- Zero is less than what is not zero, on every scale. -/
theorem comparePowers_zero (i : Int) {b : Nat} (hb : b ≠ 0) (j : Int) :
    comparePowers 0 i b j = .lt := by
  have htwo : 0 < Nat.pow 2 j.toNat := Nat.pow_pos (by omega)
  have hten : 0 < Nat.pow 10 (-i).toNat := Nat.pow_pos (by omega)
  have hpos : 0 < b * Nat.pow 2 j.toNat * Nat.pow 10 (-i).toNat :=
    Nat.mul_pos (Nat.mul_pos (Nat.pos_of_ne_zero hb) htwo) hten
  unfold comparePowers
  rw [Nat.zero_mul, Nat.zero_mul, Nat.compare_eq_lt]
  exact hpos

theorem roundQuotient_eq (num den : Nat) :
    Binary64.roundQuotient num den = num / den
      ∨ Binary64.roundQuotient num den = num / den + 1 := by
  unfold Binary64.roundQuotient
  dsimp only
  split
  · exact .inr rfl
  · exact .inl rfl

namespace RoundingInterval

variable {r : RoundingInterval}

theorem holds_zero (hlow : r.low ≠ 0) (hhigh : r.high ≠ 0) (i : Int) : r.holds 0 i = false := by
  unfold holds
  rw [comparePowers_zero i hlow, comparePowers_zero i hhigh]

/-- A grid does not give zero: the neighbour of the value below it is zero only if it is not in the
interval. -/
theorem onGrid?_ne_zero (hlow : r.low ≠ 0) (hhigh : r.high ≠ 0) {i : Int} {n : Nat}
    (h : r.onGrid? i = some n) : n ≠ 0 := by
  unfold onGrid? at h
  dsimp only at h
  generalize r.value * Nat.pow 2 r.exponent.toNat * Nat.pow 10 (-i).toNat = num at h
  generalize Nat.pow 2 (-r.exponent).toNat * Nat.pow 10 i.toNat = den at h
  have hbelow : r.holds (num / den) i = true → num / den ≠ 0 := by
    intro hholds hzero
    rw [hzero, holds_zero hlow hhigh] at hholds
    exact Bool.false_ne_true hholds
  split at h
  · rename_i hholds _
    have hne := hbelow hholds
    rcases roundQuotient_eq num den with hr | hr
    · rw [← Option.some.inj h, hr]; exact hne
    · rw [← Option.some.inj h, hr]; exact Nat.succ_ne_zero _
  · rename_i hholds _
    rw [← Option.some.inj h]
    exact hbelow hholds
  · rw [← Option.some.inj h]; exact Nat.succ_ne_zero _
  · exact absurd h (Option.some_ne_none n).symm

theorem search_ne_zero (hlow : r.low ≠ 0) (hhigh : r.high ≠ 0) (hvalue : r.value ≠ 0) (point : Int)
    (fuel : Nat) : (r.search point fuel).1 ≠ 0 := by
  induction fuel with
  | zero => exact hvalue
  | succ fuel ih =>
    unfold search
    dsimp only
    cases h : r.onGrid? (point - (17 - fuel : Nat)) with
    | some n => exact onGrid?_ne_zero hlow hhigh h
    | none => exact ih

end RoundingInterval

theorem dropZeros_ne_zero (fuel : Nat) {n : Nat} (hn : n ≠ 0) (i : Int) :
    (dropZeros fuel n i).1 ≠ 0 := by
  induction fuel generalizing n i with
  | zero => exact hn
  | succ fuel ih =>
    unfold dropZeros
    split
    · rename_i h
      exact ih (by omega) (i + 1)
    · exact hn

/-- The shortest decimal of a number that is not zero is not zero. -/
theorem shortest_ne_zero {significand : Nat} (h : significand ≠ 0) (exponent : Int) :
    (shortest significand exponent).1 ≠ 0 := by
  unfold shortest
  dsimp only
  refine dropZeros_ne_zero 17 (RoundingInterval.search_ne_zero ?_ ?_ ?_ _ 17) _
  · show 4 * significand - (if _ then 1 else 2) ≠ 0
    split <;> omega
  · show 4 * significand + 2 ≠ 0
    omega
  · show 4 * significand ≠ 0
    omega

end Decimal

namespace Binary64

/-- The decimal whose digits are written for a number; not-a-number and the infinities have none. -/
def decimal? : Binary64 → Option Decimal
  | .finite negative significand exponent =>
    if significand = 0 then some ⟨negative, 0, 0⟩
    else
      some ⟨negative, (Decimal.shortest significand exponent).1,
        (Decimal.shortest significand exponent).2⟩
  | _ => none

theorem isSome_decimal? (x : Binary64) : x.decimal?.isSome = x.isFinite := by
  cases x with
  | finite negative significand exponent =>
    unfold decimal?
    dsimp only
    by_cases h : significand = 0
    · rw [if_pos h]; rfl
    · rw [if_neg h]; rfl
  | nan => rfl
  | infinity negative => rfl

end Binary64

end DesignTokens
