import DesignTokens.Decimal.Basic
import Mathlib.Algebra.Group.Nat.Defs

/-!
# Digits and the numbers they write

* `ofDigits_digits`: the digits of a number write that number;
* `head?_digits_ne_zero`: they do not begin with a zero, unless the number is zero;
* `ofDigits_append`: digits behind others move those up by as many places.
-/

namespace DesignTokens.Decimal

theorem isDigit_of_mem_digits {n : Nat} {c : Char} (h : c ∈ digits n) : c.isDigit = true :=
  Nat.isDigit_of_mem_toDigits (by omega) (by omega) h

theorem digits_ne_nil (n : Nat) : digits n ≠ [] :=
  Nat.toDigits_ne_nil

theorem digits_zero : digits 0 = ['0'] :=
  Nat.toDigits_zero 10

theorem digitValue_of_isDigit {c : Char} (h : c.isDigit = true) :
    digitValue c = c.toNat - '0'.toNat := by
  unfold digitValue
  rw [if_pos h]

/-- Digits in base ten are read as the standard library reads them. -/
theorem foldl_digitValue {cs : List Char} (h : ∀ c ∈ cs, c.isDigit = true) (n : Nat) :
    cs.foldl (fun m c => m * 10 + digitValue c) n = Nat.ofDigitChars 10 cs n := by
  induction cs generalizing n with
  | nil => rfl
  | cons c cs ih =>
    rw [List.foldl_cons, ih (fun d hd => h d (List.mem_cons_of_mem c hd)), Nat.ofDigitChars_cons,
      digitValue_of_isDigit (h c List.mem_cons_self), Nat.mul_comm]

/-- The digits of a number write the number. -/
theorem ofDigits_digits (n : Nat) : ofDigits 10 (digits n) = n := by
  unfold ofDigits
  rw [foldl_digitValue fun c hc => isDigit_of_mem_digits hc]
  exact Nat.ofDigitChars_ten_toDigits

theorem foldl_eq_add (base : Nat) (cs : List Char) (n : Nat) :
    cs.foldl (fun m c => m * base + digitValue c) n = n * base ^ cs.length + ofDigits base cs := by
  induction cs generalizing n with
  | nil => rw [List.foldl_nil, List.length_nil, Nat.pow_zero, Nat.mul_one]; rfl
  | cons c cs ih =>
    unfold ofDigits
    rw [List.foldl_cons, List.foldl_cons, ih, ih (0 * base + digitValue c), List.length_cons,
      Nat.pow_succ, Nat.zero_mul, Nat.zero_add, Nat.add_mul, Nat.add_assoc, Nat.mul_assoc,
      Nat.mul_comm base]

/-- Digits behind others move those up. -/
theorem ofDigits_append (base : Nat) (cs ds : List Char) :
    ofDigits base (cs ++ ds) = ofDigits base cs * base ^ ds.length + ofDigits base ds := by
  rw [ofDigits, List.foldl_append]
  exact foldl_eq_add base ds (ofDigits base cs)

/-- Leading zeros do not count. -/
theorem ofDigits_replicate_zero (base n : Nat) : ofDigits base (List.replicate n '0') = 0 := by
  induction n with
  | zero => rfl
  | succ n ih =>
    have hzero : ofDigits base ['0'] = 0 := by
      show 0 * base + digitValue '0' = 0
      rw [Nat.zero_mul]
      rfl
    rw [List.replicate_succ', ofDigits_append, ih, hzero, Nat.zero_mul]

/-- The digits of a number that is not zero do not begin with a zero. -/
theorem head?_digits_ne_zero {n : Nat} (h : n ≠ 0) : (digits n).head? ≠ some '0' := by
  induction n using Nat.strongRecOn with
  | ind n ih =>
    unfold digits
    rcases Nat.lt_or_ge n 10 with hlt | hge
    · have hsmall : ∀ d, d < 10 → d ≠ 0 → d.digitChar ≠ '0' := by decide
      rw [Nat.toDigits_of_lt_base hlt]
      exact fun he => hsmall n hlt h (Option.some.inj he)
    · -- the last digit is not the first one
      have hne : n / 10 ≠ 0 := by omega
      obtain ⟨d, ds, hds⟩ := List.exists_cons_of_ne_nil (digits_ne_nil (n / 10))
      have hhead := ih (n / 10) (by omega) hne
      rw [hds] at hhead
      unfold digits at hds
      rw [Nat.toDigits_of_base_le (by omega) hge, hds]
      exact hhead

end DesignTokens.Decimal
