/-
  GeometricAlgebra.Proofs.Blade.Involution

  Negating the vectors of a blade, and multiplying two blades in the opposite order.  Both change
  a product by a sign that is read off the grades of the blades and of what they share.

    * `involutionSign_xor`: negating vectors respects products.
    * `conjugateSign_eq`: conjugation is reversal after negation.
    * `coefficient_comm`: the product of two blades in the opposite order.
    * `reorderingSign_self`: the sign of a blade times itself is the sign of its reversal.
-/

import Mathlib.Tactic.IntervalCases
import Mathlib.Tactic.Ring
import GeometricAlgebra.Proofs.Blade.Reversal

namespace GeometricAlgebra.Blade

/-! ## Negating vectors -/

/-- Every vector of a blade contributes one sign. -/
theorem involutionSign_eq (g : Nat) : involutionSign g = .ofSwaps g := by
  unfold involutionSign Sign.ofSwaps
  by_cases h : g % 2 = 1
  · rw [if_pos h, if_neg (by omega)]
  · rw [if_neg h, if_pos (by omega)]

/-- Shared vectors leave a product in pairs, so negating the vectors respects it. -/
theorem involutionSign_xor (a b : Nat) :
    involutionSign (grade (a ^^^ b)) = involutionSign (grade a) * involutionSign (grade b) := by
  have hgrade := grade_xor a b
  have hparity : grade (a ^^^ b) % 2 = (grade a + grade b) % 2 := by omega
  rw [involutionSign_eq, involutionSign_eq, involutionSign_eq, ← Sign.ofSwaps_add]
  exact Sign.ofSwaps_congr hparity

/-- Conjugation reverses the vectors of a blade and negates them. -/
theorem conjugateSign_eq (g : Nat) : conjugateSign g = reverseSign g * involutionSign g := by
  have hg : g % 4 < 4 := Nat.mod_lt g (by decide)
  have hparity : g % 2 = g % 4 % 2 := by omega
  unfold conjugateSign reverseSign involutionSign
  rw [hparity]
  generalize g % 4 = r at hg ⊢
  interval_cases r <;> rfl

/-! ## The opposite order -/

/-- Two blades in the opposite order: every vector of one passes every vector of the other, but
    not itself. -/
theorem reorderingSign_comm (a b : Nat) : reorderingSign a b =
    .ofSwaps (grade a * grade b + grade (a &&& b)) * reorderingSign b a := by
  have hswaps := swaps_add_swaps a b
  have hparity :
      swaps a b % 2 = (grade a * grade b + grade (a &&& b) + swaps b a) % 2 := by omega
  rw [reorderingSign, reorderingSign, ← Sign.ofSwaps_add]
  exact Sign.ofSwaps_congr hparity

/-- A blade of grade `g` times itself takes `g * (g - 1) / 2` swaps, as many as its reversal up to
    parity. -/
theorem reorderingSign_self (a : Nat) : reorderingSign a a = reverseSign (grade a) := by
  have hswaps := swaps_add_swaps a a
  rw [Nat.and_self] at hswaps
  rw [reorderingSign, reverseSign_eq]
  generalize swaps a a = s at hswaps ⊢
  generalize grade a = g at hswaps ⊢
  -- both parities depend on the grade modulo four
  have hparity : s % 2 = g / 2 % 2 := by
    obtain ⟨k, r, hr, rfl⟩ : ∃ k r, r < 4 ∧ g = 4 * k + r :=
      ⟨g / 4, g % 4, Nat.mod_lt g (by decide), by omega⟩
    have hsquare : (4 * k + r) * (4 * k + r) = 16 * (k * k) + 8 * (k * r) + r * r := by ring
    rw [hsquare] at hswaps
    generalize k * k = q at hswaps
    interval_cases r <;> omega
  exact Sign.ofSwaps_congr hparity

section Coefficients

variable {K : Type} [Field K] [LinearOrder K] (metric : Array K)

theorem coefficient_comm (a b : Nat) : coefficient metric a b =
    (Sign.ofSwaps (grade a * grade b + grade (a &&& b))).toScalar * coefficient metric b a := by
  rw [coefficient_eq, coefficient_eq, reorderingSign_comm, Sign.toScalar_mul,
    metricFactor_comm metric b a, mul_assoc]

end Coefficients

end GeometricAlgebra.Blade
