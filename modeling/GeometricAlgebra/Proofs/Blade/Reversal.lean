/-
  GeometricAlgebra.Proofs.Blade.Reversal

  Reversing the vectors of a blade.  The reverse of a product of two canonical blades is the
  product of the reverses in the opposite order.

    * `swaps_add_swaps`: of two vectors of two blades, one passes the other unless they are equal.
    * `reverseSign_xor`: the identity for signs.
    * `coefficient_reverse`: the identity for coefficients.
-/

import GeometricAlgebra.Proofs.Blade.Cocycle

namespace GeometricAlgebra.Blade

/-! ## Swaps of both orders -/

@[simp] theorem swaps_zero_right (a : Blade) : swaps a 0 = 0 := by
  induction a using Nat.strong_induction_on with
  | _ a ih =>
    rcases Nat.eq_zero_or_pos a with rfl | ha
    · rw [swaps_zero_left]
    · rw [swaps_eq, ih (a / 2) (Nat.div_lt_self ha (by decide)), Nat.and_zero, grade_zero]

/-- One halving of both blades: the lowest vector of `b` is passed by every other vector of `a`. -/
theorem swaps_halves (a b : Nat) : swaps a b = b % 2 * grade (a / 2) + swaps (a / 2) (b / 2) := by
  induction a using Nat.strong_induction_on with
  | _ a ih =>
    rcases Nat.eq_zero_or_pos a with rfl | ha
    · simp
    · have hhalf := ih (a / 2) (Nat.div_lt_self ha (by decide))
      have hand := Nat.and_mod_two_eq_one (a := a / 2) (b := b)
      rw [swaps_eq a b, hhalf, swaps_eq (a / 2) (b / 2), grade_eq (a / 2 &&& b), grade_eq (a / 2),
        Nat.and_div_two]
      -- the lowest vector of `b` is there or not
      rcases Nat.mod_two_eq_zero_or_one b with hb | hb
      · rw [hb] at hand ⊢
        omega
      · rw [hb] at hand ⊢
        omega

/-- Of two vectors of two blades, one passes the other unless they are equal. -/
theorem swaps_add_swaps (a b : Nat) :
    swaps a b + swaps b a + grade (a &&& b) = grade a * grade b := by
  induction a using Nat.strong_induction_on generalizing b with
  | _ a ih =>
    rcases Nat.eq_zero_or_pos a with rfl | ha
    · simp
    · have hhalf := ih (a / 2) (Nat.div_lt_self ha (by decide)) (b / 2)
      have hand : (a &&& b) % 2 = a % 2 * (b % 2) := by
        have hone := Nat.and_mod_two_eq_one (a := a) (b := b)
        rcases Nat.mod_two_eq_zero_or_one a with ha | ha
        · rw [ha] at hone ⊢
          omega
        · rw [ha] at hone ⊢
          omega
      rw [swaps_halves a b, swaps_halves b a, grade_eq (a &&& b), grade_eq a, grade_eq b,
        Nat.and_div_two, hand, Nat.add_mul, Nat.mul_add, Nat.mul_add, ← hhalf,
        Nat.mul_comm (a % 2) (grade (b / 2)), Nat.mul_comm (grade (a / 2)) (b % 2)]
      omega

/-! ## Reversing -/

/-- Reversing a blade swaps its first vector with its last, and so on to the middle. -/
theorem reverseSign_eq (g : Nat) : reverseSign g = .ofSwaps (g / 2) := by
  unfold reverseSign Sign.ofSwaps
  by_cases h : 2 ≤ g % 4
  · rw [if_pos h, if_neg (by omega)]
  · rw [if_neg h, if_pos (by omega)]

/-- Two grades on, reversing changes the orientation once more. -/
theorem reverseSign_add_two (g : Nat) : reverseSign (g + 2) = (reverseSign g).opposite := by
  rw [reverseSign_eq, reverseSign_eq, show (g + 2) / 2 = 1 + g / 2 by omega, Sign.ofSwaps_add]
  rfl

/-- The reverse of a product is the product of the reverses in the opposite order. -/
theorem reverseSign_xor (a b : Nat) :
    reverseSign (grade (a ^^^ b)) * reorderingSign a b =
      reverseSign (grade a) * reverseSign (grade b) * reorderingSign b a := by
  have hgrade := grade_xor a b
  have hswaps := swaps_add_swaps a b
  simp only [reverseSign_eq, reorderingSign, ← Sign.ofSwaps_add]
  -- both sides count swaps, and the counts agree up to parity
  have hparity : (grade (a ^^^ b) / 2 + swaps a b) % 2 =
      (grade a / 2 + grade b / 2 + swaps b a) % 2 := by
    have hmul : (grade a * grade b) % 2 = (grade a % 2) * (grade b % 2) := by
      rcases Nat.mod_two_eq_zero_or_one (grade a) with ha | ha
      · rw [Nat.mul_mod, ha, Nat.zero_mul]
      · rw [Nat.mul_mod, ha, Nat.one_mul, Nat.mod_mod]
    rcases Nat.mod_two_eq_zero_or_one (grade a) with ha | ha
    · rw [ha, Nat.zero_mul] at hmul
      omega
    · rw [ha, Nat.one_mul] at hmul
      omega
  exact Sign.ofSwaps_congr hparity

/-! ## Coefficients -/

section Coefficients

variable {K : Type} [Field K] (metric : Array K)

theorem metricFactor_comm (a b : Blade) : metricFactor metric a b = metricFactor metric b a := by
  rw [metricFactor, metricFactor, Nat.and_comm]

@[simp] theorem metricFactor_zero_left (b : Blade) : metricFactor metric 0 b = 1 := by
  rw [metricFactor, Nat.zero_and]
  rfl

variable [LinearOrder K]

/-- The scalar blade is the unit. -/
@[simp] theorem coefficient_zero_left (b : Blade) : coefficient metric 0 b = 1 := by
  rw [coefficient_eq, reorderingSign, swaps_zero_left, metricFactor_zero_left, mul_one]
  rfl

@[simp] theorem coefficient_zero_right (a : Blade) : coefficient metric a 0 = 1 := by
  rw [coefficient_eq, reorderingSign, swaps_zero_right, metricFactor_comm, metricFactor_zero_left,
    mul_one]
  rfl

/-- The reverse of a product is the product of the reverses in the opposite order. -/
theorem coefficient_reverse (a b : Nat) :
    (reverseSign (grade (a ^^^ b))).toScalar * coefficient metric a b =
      (reverseSign (grade a)).toScalar * (reverseSign (grade b)).toScalar *
        coefficient metric b a := by
  rw [coefficient_eq, coefficient_eq, ← mul_assoc, ← mul_assoc, ← Sign.toScalar_mul,
    ← Sign.toScalar_mul, ← Sign.toScalar_mul, reverseSign_xor, metricFactor_comm metric b a]

end Coefficients

end GeometricAlgebra.Blade
