/-
  GeometricAlgebra.Proofs.Digits

  Digits of whole numbers, and runs of characters at the start of a text.

    * `takeWhile_append_of_head`, `dropWhile_append_of_head`: a run ends where its kind does.
    * `Decimal.digitsValue_digits`: the digits of a number denote it.
    * `Decimal.exists_digits_eq_cons`: they do not start with a zero.
-/

import Mathlib.Data.List.TakeWhile
import GeometricAlgebra.Decimal

namespace GeometricAlgebra

section Runs

variable {p : Char → Bool} {cs rest : List Char} (h : ∀ c ∈ cs, p c = true)
  (hrest : ∀ c ∈ rest.head?, p c = false)
include h hrest

/-- A run of characters ends where the text does or at a character of another kind. -/
theorem takeWhile_append_of_head : (cs ++ rest).takeWhile p = cs := by
  rw [List.takeWhile_append_of_pos h]
  cases rest with
  | nil => simp
  | cons c rest => rw [List.takeWhile_cons_of_neg (by simp [hrest c rfl]), List.append_nil]

theorem dropWhile_append_of_head : (cs ++ rest).dropWhile p = rest := by
  rw [List.dropWhile_append_of_pos h]
  cases rest with
  | nil => rfl
  | cons c rest => rw [List.dropWhile_cons_of_neg (by simp [hrest c rfl])]

end Runs

namespace Decimal

theorem isDigit_of_mem_digits {n : Nat} {c : Char} (h : c ∈ digits n) : c.isDigit = true :=
  Nat.isDigit_of_mem_toDigits (by decide) (by decide) h

/-- The digits of a number denote it. -/
theorem digitsValue_digits (n : Nat) : digitsValue (digits n) = n := by
  have hfold : (fun v c => v * 10 + digitValue c) = fun v c => 10 * v + (c.toNat - '0'.toNat) := by
    funext v c
    rw [digitValue, Nat.mul_comm]
  rw [digitsValue, hfold, ← Nat.ofDigitChars_eq_foldl, digits, Nat.ofDigitChars_ten_toDigits]

/-- The first digit of a number that is not zero is no zero. -/
theorem exists_digits_eq_cons {n : Nat} (hn : n ≠ 0) : ∃ c cs, digits n = c :: cs ∧ c ≠ '0' := by
  induction n using Nat.strong_induction_on with
  | _ n ih =>
    rw [digits, Nat.toDigits_eq_if (by decide)]
    by_cases hlt : n < 10
    · have hdigit : ∀ m < 10, m ≠ 0 → Nat.digitChar m ≠ '0' := by decide
      exact ⟨_, [], if_pos hlt, hdigit n hlt hn⟩
    · obtain ⟨c, cs, hdigits, hc⟩ := ih (n / 10) (by omega) (by omega)
      refine ⟨c, cs ++ [(n % 10).digitChar], ?_, hc⟩
      rw [if_neg hlt, ← List.cons_append, ← hdigits]
      rfl

end Decimal

end GeometricAlgebra
