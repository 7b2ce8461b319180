import DesignTokens.Format.Json
import DesignTokens.Proofs.Decimal.Digits
import DesignTokens.Proofs.Decimal.Shortest
import DesignTokens.Proofs.Json.Decode
import DesignTokens.Proofs.Text.Blank
import Mathlib.Tactic.NormNum.Basic

/-!
# Numbers are read back

A number is written as digits, digits behind a point, and an exponent, of which the last two may be
missing. Whatever a number is, it is read back from its text as the value of its digits, if a comma
or a line break follows.

* `magnitude?_append`: the parts of a number are read one after another;
* `number?_intText`: integers are exact;
* `number?_text`: a floating-point number has the value of its shortest decimal.
-/

namespace DesignTokens.Json

/-- What follows a value within a document. -/
def Ended (rest : List Char) : Prop :=
  ∃ c cs, rest = c :: cs ∧ (c = ',' ∨ c = '\n')

/-! ## Digits and what follows them -/

/-- Text that does not continue a number by a digit. -/
def NoDigit (rest : List Char) : Prop :=
  ∀ c ∈ rest.head?, c.isDigit = false

theorem noDigit_cons {c : Char} (h : c.isDigit = false) (cs : List Char) : NoDigit (c :: cs) := by
  intro d hd
  rw [List.head?_cons, Option.mem_some_iff] at hd
  rw [← hd]
  exact h

theorem Ended.noDigit {rest : List Char} (h : Ended rest) : NoDigit rest := by
  obtain ⟨c, cs, rfl, rfl | rfl⟩ := h
  · exact noDigit_cons (by decide) cs
  · exact noDigit_cons (by decide) cs

theorem digits?_append {ds rest : List Char} (hne : ds ≠ []) (hds : ∀ c ∈ ds, c.isDigit = true)
    (hrest : NoDigit rest) : digits? (ds ++ rest) = some (ds, rest) := by
  unfold digits?
  rw [Text.takeWhile_append_stop hds hrest, Text.dropWhile_append_stop hds hrest, if_neg]
  rw [List.isEmpty_iff]
  exact hne

/-! ## The parts of a number -/

/-- Digits that may stand before the point. -/
structure IsWhole (ds : List Char) : Prop where
  ne_nil : ds ≠ []
  isDigit : ∀ c ∈ ds, c.isDigit = true
  head : ds = ['0'] ∨ ds.head? ≠ some '0'

theorem isDigit_of_mem_zero : ∀ c ∈ ['0'], c.isDigit = true := by
  intro c hc
  rw [List.mem_singleton.mp hc]
  rfl

theorem isWhole_zero : IsWhole ['0'] :=
  ⟨List.cons_ne_nil _ _, isDigit_of_mem_zero, .inl rfl⟩

theorem isWhole_digits (n : Nat) : IsWhole (Decimal.digits n) := by
  refine ⟨Decimal.digits_ne_nil n, fun c hc => Decimal.isDigit_of_mem_digits hc, ?_⟩
  by_cases hn : n = 0
  · rw [hn]
    exact .inl Decimal.digits_zero
  · exact .inr (Decimal.head?_digits_ne_zero hn)

/-- Digits that begin with the first digit of a number that is not zero. -/
theorem isWhole_of_head? {n : Nat} (hn : n ≠ 0) {ds : List Char}
    (hhead : ds.head? = (Decimal.digits n).head?) (hds : ∀ c ∈ ds, c.isDigit = true) :
    IsWhole ds := by
  have hfirst := Decimal.head?_digits_ne_zero hn
  refine ⟨?_, hds, .inr (hhead ▸ hfirst)⟩
  rintro rfl
  exact Decimal.digits_ne_nil n (List.head?_eq_none_iff.mp hhead.symm)

theorem whole?_append {ds rest : List Char} (hds : IsWhole ds) (hrest : NoDigit rest) :
    whole? (ds ++ rest) = some (ds, rest) := by
  obtain ⟨c, cs, rfl⟩ := List.exists_cons_of_ne_nil hds.ne_nil
  rcases hds.head with hzero | hne
  · rw [hzero]
    rfl
  · have hc : c ≠ '0' := fun h => hne (by rw [h]; rfl)
    rw [List.cons_append, whole?, if_neg hc, if_pos (hds.isDigit c List.mem_cons_self),
      ← List.cons_append, Text.takeWhile_append_stop hds.isDigit hrest,
      Text.dropWhile_append_stop hds.isDigit hrest]

/-- Digits behind a point, and without digits no point. -/
def pointed : List Char → List Char
  | [] => []
  | d :: ds => '.' :: d :: ds

/-- What may follow the digits of a number: no digit, and no point. -/
def NoFraction (rest : List Char) : Prop :=
  NoDigit rest ∧ rest.head? ≠ some '.'

theorem Ended.noFraction {rest : List Char} (h : Ended rest) : NoFraction rest := by
  refine ⟨h.noDigit, ?_⟩
  obtain ⟨c, cs, rfl, rfl | rfl⟩ := h
  · exact fun h => absurd (Option.some.inj h) (by decide)
  · exact fun h => absurd (Option.some.inj h) (by decide)

theorem noDigit_pointed_append {ds rest : List Char} (h : NoFraction rest) :
    NoDigit (pointed ds ++ rest) := by
  cases ds with
  | nil => exact h.1
  | cons d ds => exact noDigit_cons (by decide) _

theorem fraction?_append {ds rest : List Char} (hds : ∀ c ∈ ds, c.isDigit = true)
    (hrest : NoFraction rest) : fraction? (pointed ds ++ rest) = some (ds, rest) := by
  cases ds with
  | nil =>
    rw [pointed, List.nil_append]
    unfold fraction?
    split
    · exact absurd rfl hrest.2
    · rfl
  | cons d ds => exact digits?_append (List.cons_ne_nil d ds) hds hrest.1

/-- The parts of a number are read one after another. -/
theorem magnitude?_append (negative : Bool) {whole fraction tail rest : List Char} {e : Int}
    (hwhole : IsWhole whole) (hfraction : ∀ c ∈ fraction, c.isDigit = true)
    (htail : NoFraction tail) (hexponent : exponent? tail = some (e, rest)) :
    magnitude? negative (whole ++ (pointed fraction ++ tail))
      = some (⟨negative, Decimal.ofDigits 10 (whole ++ fraction), e - fraction.length⟩, rest) := by
  unfold magnitude?
  rw [whole?_append hwhole (noDigit_pointed_append htail), Option.bind_some,
    fraction?_append hfraction htail, Option.bind_some, hexponent]
  rfl

theorem number?_signed (negative : Bool) {whole : List Char} (hwhole : IsWhole whole)
    (rest : List Char) :
    number? ((if negative then ['-'] else []) ++ (whole ++ rest))
      = magnitude? negative (whole ++ rest) := by
  cases negative with
  | true => rfl
  | false =>
    obtain ⟨c, cs, rfl⟩ := List.exists_cons_of_ne_nil hwhole.ne_nil
    have hc : c ≠ '-' := by
      rintro rfl
      exact absurd (hwhole.isDigit '-' List.mem_cons_self) (by decide)
    show number? (c :: (cs ++ rest)) = magnitude? false (c :: (cs ++ rest))
    unfold number?
    split
    · rename_i heq
      exact absurd (List.cons.inj heq).1 hc
    · rfl

/-! ## Exponents -/

theorem exponent?_of_ended {rest : List Char} (h : Ended rest) :
    exponent? rest = some (0, rest) := by
  obtain ⟨c, cs, rfl, rfl | rfl⟩ := h
  · rfl
  · rfl

theorem splitSign_of_isDigit {c : Char} (h : c.isDigit = true) (cs : List Char) :
    Decimal.splitSign (c :: cs) = (false, c :: cs) := by
  unfold Decimal.splitSign
  split
  · rename_i heq
    rw [(List.cons.inj heq).1] at h
    exact absurd h (by decide)
  · rename_i heq
    rw [(List.cons.inj heq).1] at h
    exact absurd h (by decide)
  · rfl

/-- The digits of an exponent, with the sign that stands in front of them. -/
theorem exponent?_signed {sign : List Char} {negative : Bool} (n : Nat) {rest : List Char}
    (hsign : Decimal.splitSign (sign ++ (Decimal.digits n ++ rest))
      = (negative, Decimal.digits n ++ rest)) (hrest : Ended rest) :
    exponent? ('e' :: (sign ++ (Decimal.digits n ++ rest)))
      = some (if negative then -(n : Int) else n, rest) := by
  rw [exponent?, if_pos (by decide), hsign]
  dsimp only
  rw [digits?_append (Decimal.digits_ne_nil n) (fun c hc => Decimal.isDigit_of_mem_digits hc)
    hrest.noDigit, Option.map_some, Decimal.ofDigits_digits]

/-- An exponent is read back; a plus sign may stand before it if it is not negative. -/
theorem exponent?_intText {plus : Bool} {k : Int} (hplus : plus = true → 0 ≤ k) {rest : List Char}
    (hrest : Ended rest) :
    exponent? ('e' :: ((if plus then ['+'] else []) ++ (Decimal.intText k ++ rest)))
      = some (k, rest) := by
  cases k with
  | ofNat n =>
    have hsign : Decimal.splitSign ((if plus then ['+'] else []) ++ (Decimal.digits n ++ rest))
        = (false, Decimal.digits n ++ rest) := by
      cases plus with
      | true => rfl
      | false =>
        obtain ⟨d, ds, hds⟩ := List.exists_cons_of_ne_nil (Decimal.digits_ne_nil n)
        have hmem : d ∈ Decimal.digits n := by
          rw [hds]
          exact List.mem_cons_self
        have hd : d.isDigit = true := Decimal.isDigit_of_mem_digits hmem
        rw [hds]
        exact splitSign_of_isDigit hd (ds ++ rest)
    exact exponent?_signed n hsign hrest
  | negSucc n =>
    cases plus with
    | true => exact absurd (hplus rfl) (by omega)
    | false => exact @exponent?_signed ['-'] true (n + 1) rest rfl hrest

/-! ## Whole texts -/

/-- A number without an exponent. -/
theorem number?_point (negative : Bool) {whole fraction rest : List Char} (hwhole : IsWhole whole)
    (hfraction : ∀ c ∈ fraction, c.isDigit = true) (hrest : Ended rest) :
    number? ((if negative then ['-'] else []) ++ (whole ++ pointed fraction) ++ rest)
      = some (⟨negative, Decimal.ofDigits 10 (whole ++ fraction), -fraction.length⟩, rest) := by
  rw [List.append_assoc, List.append_assoc, number?_signed negative hwhole,
    magnitude?_append negative hwhole hfraction hrest.noFraction (exponent?_of_ended hrest),
    Int.zero_sub]

/-- A number with an exponent. -/
theorem number?_exponent (negative : Bool) {whole fraction rest : List Char} {plus : Bool} {k : Int}
    (hwhole : IsWhole whole) (hfraction : ∀ c ∈ fraction, c.isDigit = true)
    (hplus : plus = true → 0 ≤ k) (hrest : Ended rest) :
    number? ((if negative then ['-'] else [])
        ++ (whole ++ (pointed fraction
          ++ 'e' :: ((if plus then ['+'] else []) ++ Decimal.intText k))) ++ rest)
      = some (⟨negative, Decimal.ofDigits 10 (whole ++ fraction), k - fraction.length⟩, rest) := by
  have htail : NoFraction ('e' :: ((if plus then ['+'] else []) ++ (Decimal.intText k ++ rest))) :=
    ⟨noDigit_cons (by decide) _, fun h => absurd (Option.some.inj h) (by decide)⟩
  have hparts := magnitude?_append negative hwhole hfraction htail (exponent?_intText hplus hrest)
  rw [← number?_signed negative hwhole] at hparts
  simp only [List.append_assoc, List.cons_append] at hparts ⊢
  exact hparts

/-- Integers are exact. -/
theorem number?_intText (n : Int) {rest : List Char} (hrest : Ended rest) :
    ∃ d, number? (Decimal.intText n ++ rest) = some (d, rest) ∧ d.value = n := by
  have hnone : ∀ c ∈ ([] : List Char), c.isDigit = true := fun c hc => absurd hc List.not_mem_nil
  cases n with
  | ofNat m =>
    have hread := number?_point false (isWhole_digits m) hnone hrest
    rw [pointed, List.append_nil, Decimal.ofDigits_digits] at hread
    refine ⟨_, hread, ?_⟩
    simp [Decimal.value]
  | negSucc m =>
    have hread := number?_point true (isWhole_digits (m + 1)) hnone hrest
    rw [pointed, List.append_nil, Decimal.ofDigits_digits] at hread
    refine ⟨_, hread, ?_⟩
    simp [Decimal.value, Int.negSucc_eq]

/-! ## Floating-point numbers -/

/-- Zeros behind the digits are powers of ten. -/
theorem value_shift (negative : Bool) (n k : Nat) :
    Decimal.value ⟨negative, n * 10 ^ (k + 1), -1⟩ = Decimal.value ⟨negative, n, k⟩ := by
  unfold Decimal.value
  dsimp only
  push_cast
  rw [zpow_neg_one, zpow_natCast, pow_succ (10 : ℚ) k, ← mul_assoc, ← mul_assoc,
    mul_inv_cancel_right₀ (by norm_num)]

theorem value_zero (negative : Bool) (i j : Int) :
    Decimal.value ⟨negative, 0, i⟩ = Decimal.value ⟨negative, 0, j⟩ := by
  unfold Decimal.value
  rw [Nat.cast_zero, mul_zero, zero_mul, zero_mul]

/-- A text without an exponent whose digits are those of `n * 10 ^ i` up to zeros. -/
def IsPositional (text : List Char) (n : Nat) (i : Int) : Prop :=
  ∃ whole fraction, text = whole ++ pointed fraction
    ∧ IsWhole whole ∧ (∀ c ∈ fraction, c.isDigit = true)
    ∧ ∀ negative,
        Decimal.value ⟨negative, Decimal.ofDigits 10 (whole ++ fraction), -fraction.length⟩
          = Decimal.value ⟨negative, n, i⟩

theorem isDigit_of_mem_zeros {k : Nat} {c : Char} (hc : c ∈ List.replicate k '0') :
    c.isDigit = true := by
  rw [(List.mem_replicate.mp hc).2]
  decide

/-- The point stands before the digits. -/
theorem isPositional_before (n k : Nat) {i : Int} (hi : i = -(k + (Decimal.digits n).length : Nat)) :
    IsPositional ('0' :: '.' :: List.replicate k '0' ++ Decimal.digits n) n i := by
  refine ⟨['0'], List.replicate k '0' ++ Decimal.digits n, ?_, isWhole_zero, ?_, fun negative => ?_⟩
  · cases h : List.replicate k '0' ++ Decimal.digits n with
    | nil => exact absurd (List.append_eq_nil_iff.mp h).2 (Decimal.digits_ne_nil n)
    | cons d ds =>
      rw [List.cons_append, List.cons_append, h]
      rfl
  · intro c hc
    rcases List.mem_append.mp hc with hc | hc
    · exact isDigit_of_mem_zeros hc
    · exact Decimal.isDigit_of_mem_digits hc
  · have hzeros : Decimal.ofDigits 10 (['0'] ++ List.replicate k '0') = 0 :=
      Decimal.ofDigits_replicate_zero 10 (k + 1)
    rw [← List.append_assoc, Decimal.ofDigits_append, hzeros, Nat.zero_mul, Nat.zero_add,
      Decimal.ofDigits_digits, List.length_append, List.length_replicate, hi]

/-- The point stands between two digits. -/
theorem isPositional_within {n p : Nat} (hn : n ≠ 0) (hp : p ≠ 0)
    (hlt : p < (Decimal.digits n).length) {i : Int} (hi : i = p - (Decimal.digits n).length) :
    IsPositional ((Decimal.digits n).take p ++ '.' :: (Decimal.digits n).drop p) n i := by
  have hds : ∀ c ∈ Decimal.digits n, c.isDigit = true :=
    fun c hc => Decimal.isDigit_of_mem_digits hc
  refine ⟨(Decimal.digits n).take p, (Decimal.digits n).drop p, ?_, ?_, ?_, fun negative => ?_⟩
  · cases h : (Decimal.digits n).drop p with
    | nil =>
      have hle := List.drop_eq_nil_iff.mp h
      omega
    | cons d ds => rfl
  · refine isWhole_of_head? hn ?_ fun c hc => hds c (List.mem_of_mem_take hc)
    rw [List.head?_take, if_neg hp]
  · exact fun c hc => hds c (List.mem_of_mem_drop hc)
  · have hexponent : -(((Decimal.digits n).drop p).length : Int) = i := by
      rw [List.length_drop]
      omega
    rw [List.take_append_drop, Decimal.ofDigits_digits, hexponent]

/-- The point stands behind the digits, and zeros fill the places up to it. -/
theorem isPositional_behind {n : Nat} (hn : n ≠ 0) (k : Nat) :
    IsPositional (Decimal.digits n ++ List.replicate k '0' ++ ['.', '0']) n k := by
  refine ⟨Decimal.digits n ++ List.replicate k '0', ['0'], rfl, ?_, isDigit_of_mem_zero,
    fun negative => ?_⟩
  · refine isWhole_of_head? hn ?_ fun c hc => ?_
    · obtain ⟨d, ds, h⟩ := List.exists_cons_of_ne_nil (Decimal.digits_ne_nil n)
      rw [h]
      rfl
    · rcases List.mem_append.mp hc with hc | hc
      · exact Decimal.isDigit_of_mem_digits hc
      · exact isDigit_of_mem_zeros hc
  · have hzeros : List.replicate k '0' ++ ['0'] = List.replicate (k + 1) '0' :=
      List.replicate_succ'.symm
    rw [List.append_assoc, hzeros, Decimal.ofDigits_append, Decimal.ofDigits_replicate_zero,
      Decimal.ofDigits_digits, List.length_replicate]
    exact value_shift negative n k

theorem isPositional_positionalText {n : Nat} (hn : n ≠ 0) (i : Int) :
    IsPositional (floatStyle.positionalText (Decimal.digits n) ((Decimal.digits n).length + i))
      n i := by
  unfold FloatStyle.positionalText
  by_cases hsmall : ((Decimal.digits n).length : Int) + i ≤ 0
  · rw [if_pos hsmall]
    exact isPositional_before n _ (by omega)
  · rw [if_neg hsmall]
    dsimp only
    by_cases hinside : (((Decimal.digits n).length : Int) + i).toNat < (Decimal.digits n).length
    · rw [if_pos hinside]
      exact isPositional_within hn (by omega) hinside (by omega)
    · obtain ⟨k, hk⟩ : ∃ k : Nat, i = k := ⟨i.toNat, by omega⟩
      have hfill : (((Decimal.digits n).length : Int) + i).toNat - (Decimal.digits n).length = k := by
        omega
      rw [if_neg hinside, hfill, hk]
      exact isPositional_behind hn k

/-- A text with an exponent is one digit, the other digits behind a point, and the exponent. -/
theorem scientificText_eq {n : Nat} (hn : n ≠ 0) (i : Int) :
    ∃ whole fraction, ∃ plus : Bool, ∃ k : Int,
      floatStyle.scientificText (Decimal.digits n) ((Decimal.digits n).length + i)
          = whole ++ (pointed fraction
            ++ 'e' :: ((if plus then ['+'] else []) ++ Decimal.intText k))
        ∧ IsWhole whole ∧ (∀ c ∈ fraction, c.isDigit = true) ∧ (plus = true → 0 ≤ k)
        ∧ Decimal.ofDigits 10 (whole ++ fraction) = n ∧ k - fraction.length = i := by
  have hds : ∀ c ∈ Decimal.digits n, c.isDigit = true :=
    fun c hc => Decimal.isDigit_of_mem_digits hc
  have hvalue := Decimal.ofDigits_digits n
  obtain ⟨d, ds, h⟩ := List.exists_cons_of_ne_nil (Decimal.digits_ne_nil n)
  have hwhole : IsWhole [d] := by
    refine isWhole_of_head? hn ?_ fun c hc => ?_
    · rw [h]
      rfl
    · rw [List.mem_singleton.mp hc]
      exact hds d (h ▸ List.mem_cons_self)
  rw [h] at hvalue hds ⊢
  generalize hpoint : ((d :: ds).length : Int) + i = point
  rw [List.length_cons] at hpoint
  refine ⟨[d], ds, decide (1 ≤ point), point - 1, ?_, hwhole,
    fun c hc => hds c (List.mem_cons_of_mem d hc), fun hplus => ?_, hvalue, by omega⟩
  · have hplus : (if floatStyle.exponentPlus ∧ 1 ≤ point then ['+'] else [])
        = if decide (1 ≤ point) then ['+'] else [] := by
      by_cases hle : 1 ≤ point
      · rw [if_pos ⟨rfl, hle⟩, if_pos (decide_eq_true hle)]
      · rw [if_neg (fun h => hle h.2), if_neg (by simpa using hle)]
    unfold FloatStyle.scientificText
    dsimp only
    rw [hplus]
    cases ds with
    | nil => rfl
    | cons e es =>
      show (d :: '.' :: e :: es) ++ 'e' :: _ ++ _ = _
      simp only [pointed, List.append_assoc, List.cons_append, List.nil_append]
  · have hle := of_decide_eq_true hplus
    omega

/-- A floating-point number is read back as the value of its shortest decimal. -/
theorem number?_text {x : Binary64} {d : Decimal} (h : x.decimal? = some d) {rest : List Char}
    (hrest : Ended rest) :
    ∃ e, number? (floatStyle.text x ++ rest) = some (e, rest) ∧ e.value = d.value := by
  cases x with
  | nan => exact absurd h (Option.some_ne_none d).symm
  | infinity negative => exact absurd h (Option.some_ne_none d).symm
  | finite negative significand exponent =>
    unfold Binary64.decimal? at h
    unfold FloatStyle.text FloatStyle.magnitudeText
    dsimp only at h ⊢
    by_cases hzero : significand = 0
    · rw [if_pos hzero] at h ⊢
      have hread := number?_point negative isWhole_zero isDigit_of_mem_zero hrest
      refine ⟨_, hread, ?_⟩
      rw [← Option.some.inj h]
      exact value_zero negative _ _
    · rw [if_neg hzero] at h ⊢
      have hn := Decimal.shortest_ne_zero hzero exponent
      generalize Decimal.shortest significand exponent = p at h hn ⊢
      obtain ⟨n, i⟩ := p
      rw [← Option.some.inj h]
      show ∃ e, number? ((if negative then ['-'] else [])
          ++ (if -5 < (Decimal.digits n).length + i ∧ (Decimal.digits n).length + i ≤ 16 then
              floatStyle.positionalText (Decimal.digits n) ((Decimal.digits n).length + i)
            else floatStyle.scientificText (Decimal.digits n) ((Decimal.digits n).length + i))
          ++ rest) = _ ∧ _
      -- the style writes numbers of moderate size without an exponent
      by_cases hplace : -5 < (Decimal.digits n).length + i ∧ (Decimal.digits n).length + i ≤ 16
      · obtain ⟨whole, fraction, htext, hwhole, hfraction, hvalue⟩ :=
          isPositional_positionalText hn i
        rw [if_pos hplace, htext]
        exact ⟨_, number?_point negative hwhole hfraction hrest, hvalue negative⟩
      · obtain ⟨whole, fraction, plus, k, htext, hwhole, hfraction, hplus, hvalue, hk⟩ :=
          scientificText_eq hn i
        have hread := number?_exponent negative hwhole hfraction hplus hrest
        rw [hvalue, hk] at hread
        rw [if_neg hplace, htext]
        exact ⟨_, hread, rfl⟩

end DesignTokens.Json
