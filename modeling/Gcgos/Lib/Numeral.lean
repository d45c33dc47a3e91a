import Mathlib.Data.Nat.Digits.Lemmas

/-!
# Numerals

The numeral of a number in a base has its most significant digit first and no
leading zero; that of zero is the single digit zero. It is the only list of
digits that has the number as its value and starts with a zero only as a list
of one. A loop that divides until nothing is left finds its digits from the
last to the first.
-/

set_option autoImplicit false

namespace Numeral

variable {base n : Nat} {digits : List Nat}

/-- The digits of `n`, the most significant one first. -/
def numeral (base n : Nat) : List Nat := if n = 0 then [0] else (Nat.digits base n).reverse

/-- A list of digits, the most significant one first, that spells `n` without
a leading zero. -/
structure Spells (base n : Nat) (digits : List Nat) : Prop where
  digit : ∀ d ∈ digits, d < base
  value : Nat.ofDigits base digits.reverse = n
  nonempty : digits ≠ []
  canonical : digits.head? = some 0 → digits = [0]

theorem numeral_spells (two : 2 ≤ base) (n : Nat) : Spells base n (numeral base n) := by
  by_cases zero : n = 0
  · subst zero
    exact ⟨fun d isZero => by simp [numeral] at isZero; omega, by simp [numeral], by simp [numeral],
      fun _ => rfl⟩
  · have spelled : numeral base n = (Nat.digits base n).reverse := if_neg zero
    have some : Nat.digits base n ≠ [] := Nat.digits_ne_nil_iff_ne_zero.mpr zero
    refine ⟨fun d member => ?_, ?_, ?_, fun leading => ?_⟩
    · rw [spelled, List.mem_reverse] at member
      exact Nat.digits_lt_base two member
    · rw [spelled, List.reverse_reverse, Nat.ofDigits_digits]
    · rw [spelled]
      exact fun none => some (List.reverse_eq_nil_iff.mp none)
    · rw [spelled, List.head?_reverse, List.getLast?_eq_getLast_of_ne_nil some] at leading
      exact absurd (Option.some.inj leading) (Nat.getLast_digit_ne_zero base zero)

/-- A number has one spelling. -/
theorem Spells.unique (spells : Spells base n digits) (two : 2 ≤ base) :
    digits = numeral base n := by
  obtain ⟨digit, value, nonempty, canonical⟩ := spells
  by_cases leading : digits.head? = some 0
  · have single := canonical leading
    subst single
    have zero : n = 0 := by simpa using value.symm
    simp [numeral, zero]
  · have back : Nat.digits base n = digits.reverse := by
      rw [← value]
      refine Nat.digits_ofDigits base two _ (fun d member => digit d (List.mem_reverse.mp member)) ?_
      intro some last
      apply leading
      rw [List.getLast_reverse] at last
      rw [List.head?_eq_some_head nonempty, last]
    have positive : n ≠ 0 := by
      intro zero
      rw [zero, Nat.digits_zero] at back
      exact nonempty (List.reverse_eq_nil_iff.mp back.symm)
    rw [numeral, if_neg positive, back, List.reverse_reverse]

theorem numeral_of_lt (small : n < base) : numeral base n = [n] := by
  by_cases zero : n = 0
  · subst zero
    rfl
  · rw [numeral, if_neg zero, Nat.digits_of_lt base n zero small, List.reverse_singleton]

/-- The last digit is the remainder, and those in front of it spell the
quotient. -/
theorem numeral_of_le (two : 2 ≤ base) (large : base ≤ n) :
    numeral base n = numeral base (n / base) ++ [n % base] := by
  have positive : n ≠ 0 := by omega
  have rest : n / base ≠ 0 := (Nat.div_pos large (by omega)).ne'
  rw [numeral, numeral, if_neg positive, if_neg rest,
    Nat.digits_eq_cons_digits_div two positive, List.reverse_cons]

/-- A number below a positive power of the base has at most as many digits as
the exponent says. -/
theorem numeral_length_le_iff (two : 2 ≤ base) {k : Nat} (some : 0 < k) :
    (numeral base n).length ≤ k ↔ n < base ^ k := by
  by_cases zero : n = 0
  · subst zero
    simp only [numeral, if_true, List.length_singleton]
    exact iff_of_true some (Nat.pow_pos (by omega))
  · rw [numeral, if_neg zero, List.length_reverse, Nat.digits_length_le_iff two]

theorem numeral_length_pos (two : 2 ≤ base) (n : Nat) : 0 < (numeral base n).length :=
  List.length_pos_iff.mpr (numeral_spells two n).nonempty

end Numeral
