/-
  GeometricAlgebra.Proofs.Exact

  Exact arithmetic.  Every ordered field is a number system for coordinates; on it the operations
  of `Scalar` are those of the field and `==` is equality.

    * `Scalar.ofField`: the arithmetic of an ordered field.
    * `Elementary.ofField`: the same with elementary functions, whatever they are.
    * `Sign.toScalar_mul`: orientations multiply as scalars do.
-/

import Mathlib.Algebra.Order.Field.Basic
import Mathlib.Algebra.Order.Group.Abs
import GeometricAlgebra.Coordinates
import GeometricAlgebra.Sign

namespace GeometricAlgebra

variable {K : Type} [Field K] [LinearOrder K]

/-- The arithmetic of an ordered field. -/
instance (priority := low) Scalar.ofField : Scalar K where
  abs x := |x|
  beq a b := decide (a = b)
  decidableLT := inferInstance
  decidableLE := inferInstance

/-- Elementary functions on a field, without laws. -/
class Elementary.Functions (K : Type) where
  sqrt : K → K
  sin : K → K
  cos : K → K
  sinh : K → K
  cosh : K → K
  atan2 : K → K → K
  pi : K
  log2 : K → K
  trunc : K → K
  floor : K → K
  toNat : K → Nat

/-- The arithmetic of an ordered field with elementary functions. -/
instance (priority := low) Elementary.ofField [F : Elementary.Functions K] : Elementary K where
  toScalar := Scalar.ofField
  sqrt := F.sqrt
  sin := F.sin
  cos := F.cos
  sinh := F.sinh
  cosh := F.cosh
  atan2 := F.atan2
  pi := F.pi
  log2 := F.log2
  trunc := F.trunc
  floor := F.floor
  toNat := F.toNat

/-! ## Orientations as scalars -/

namespace Sign

@[simp] theorem toScalar_plus : (plus.toScalar : K) = 1 := rfl

@[simp] theorem toScalar_minus : (minus.toScalar : K) = -1 := rfl

/-- Orientations multiply as scalars do. -/
theorem toScalar_mul (s t : Sign) : ((s * t).toScalar : K) = s.toScalar * t.toScalar := by
  cases s <;> cases t <;> simp [opposite]

@[simp] theorem toScalar_mul_self (s : Sign) : (s.toScalar * s.toScalar : K) = 1 := by
  rw [← toScalar_mul, mul_self, toScalar_plus]

theorem toScalar_ne_zero (s : Sign) : (s.toScalar : K) ≠ 0 := by
  cases s <;> simp

end Sign

end GeometricAlgebra
