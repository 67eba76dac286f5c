/-
  GeometricAlgebra.Proofs.ExactZero

  Arithmetic in which zero is told from everything else.  Nothing is asked of sums and products, so
  floating point numbers of 64 bits are an instance, with their infinities, their two zeros and what
  is not a number; every ordered field is another.

    * `Scalar.ExactZero`: the laws of the test for zero.
    * `Coordinates.isZero_zero`: what is within zero of zero is zero throughout.
    * `Coordinates.isZero_zeros`: zeros are within every bound.
-/

import GeometricAlgebra.Proofs.Binary64.Signs
import GeometricAlgebra.Proofs.Exact

namespace GeometricAlgebra

/-- Arithmetic whose magnitudes single out zero.  `x == 0` says that `x` is a zero, of either sign
    where zeros have signs. -/
class Scalar.ExactZero (α : Type) [Scalar α] : Prop where
  protected abs_zero : Scalar.abs (0 : α) = 0
  zero_beq_zero : ((0 : α) == 0) = true
  abs_le_zero_iff (x : α) : Scalar.abs x ≤ 0 ↔ (x == 0) = true

instance : Scalar.ExactZero Float where
  abs_zero := by rfl
  zero_beq_zero := by rfl
  abs_le_zero_iff := Binary64.abs_le_zero_iff

instance (priority := low) {K : Type} [Field K] [LinearOrder K] [IsStrictOrderedRing K] :
    Scalar.ExactZero K where
  abs_zero := abs_zero
  zero_beq_zero := decide_eq_true rfl
  abs_le_zero_iff _ := abs_nonpos_iff.trans decide_eq_true_iff.symm

theorem Scalar.ExactZero.zero_le_zero {α : Type} [Scalar α] [Scalar.ExactZero α] :
    (0 : α) ≤ 0 := by
  have habs := (abs_le_zero_iff (0 : α)).mpr zero_beq_zero
  rwa [ExactZero.abs_zero] at habs

namespace Coordinates

variable {α : Type} [Scalar α] [Scalar.ExactZero α]

/-- What is within zero of zero is zero throughout. -/
theorem isZero_zero (xs : Coordinates α) : xs.isZero 0 = xs.all (· == 0) := by
  have hentry : isNegligible (0 : α) = (· == 0) := by
    funext x
    rw [isNegligible, Bool.eq_iff_iff, decide_eq_true_iff, Scalar.ExactZero.abs_le_zero_iff]
  rw [isZero, hentry]

/-- Zeros are within every bound. -/
theorem isZero_zeros (n : Nat) {eps : α} (heps : 0 ≤ eps) :
    (zeros n : Coordinates α).isZero eps = true := by
  rw [isZero, zeros, Array.all_replicate, isNegligible, Scalar.ExactZero.abs_zero,
    decide_eq_true heps]
  simp

end Coordinates

end GeometricAlgebra
