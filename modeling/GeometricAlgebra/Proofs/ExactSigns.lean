/-
  GeometricAlgebra.Proofs.ExactSigns

  Rounding arithmetic whose signs are exact.  Products and quotients may round, but a factor or
  divisor one or minus one only settles the sign, a zero adds nothing, and comparisons with zero see
  the sign.  That is all the reader and the printer of the notation rely on.

    * `Scalar.ExactSigns`: the laws of such arithmetic.
    * `Sign.toScalar_mul_toScalar` and others: orientations as factors and divisors.
    * `Numeral.Readable`: numbers of such arithmetic, written and read.
-/

import GeometricAlgebra.Coordinates
import GeometricAlgebra.Numeral
import GeometricAlgebra.Sign

namespace GeometricAlgebra

/-- Arithmetic in which factors and divisors one and minus one are exact.  `x == 0` says that `x`
    is a zero, of either sign where zeros have signs. -/
class Scalar.ExactSigns (α : Type) [Scalar α] : Prop where
  protected one_mul (x : α) : 1 * x = x
  protected neg_one_mul (x : α) : -1 * x = -x
  protected mul_one (x : α) : x * 1 = x
  protected mul_neg_one (x : α) : x * -1 = -x
  protected div_one (x : α) : x / 1 = x
  protected div_neg_one (x : α) : x / -1 = -x
  protected neg_neg (x : α) : - -x = x
  protected abs_neg (x : α) : Scalar.abs (-x) = Scalar.abs x
  zero_beq_zero : ((0 : α) == 0) = true
  one_beq_zero : ((1 : α) == 0) = false
  neg_beq_zero (x : α) : (-x == 0) = (x == 0)
  mul_beq_zero {x y : α} : (x == 0) = true → (y == 0) = true → (x * y == 0) = true
  abs_le_zero_iff (x : α) : Scalar.abs x ≤ 0 ↔ (x == 0) = true
  -- A sum may lose the sign of a zero, but nothing else.
  protected zero_add {x : α} : (x == 0) = false → 0 + x = x
  zero_add_zero {x : α} : (x == 0) = true → 0 + x = 0
  protected add_zero {x z : α} : (x == 0) = false → (z == 0) = true → x + z = x

open Scalar Scalar.ExactSigns

section Signs

variable {α : Type} [Scalar α] [Scalar.ExactSigns α]

namespace Sign

theorem plus_toScalar_mul (x : α) : plus.toScalar * x = x := ExactSigns.one_mul x

theorem minus_toScalar_mul (x : α) : minus.toScalar * x = -x := ExactSigns.neg_one_mul x

theorem toScalar_mul_toScalar (s t : Sign) :
    (s.toScalar * t.toScalar : α) = (s * t).toScalar := by
  cases s with
  | plus => exact ExactSigns.one_mul _
  | minus =>
    rw [toScalar, ExactSigns.neg_one_mul]
    cases t with
    | plus => rfl
    | minus => exact ExactSigns.neg_neg 1

theorem div_toScalar (x : α) (s : Sign) : x / s.toScalar = s.toScalar * x := by
  cases s with
  | plus => exact (ExactSigns.div_one x).trans (ExactSigns.one_mul x).symm
  | minus => exact (ExactSigns.div_neg_one x).trans (ExactSigns.neg_one_mul x).symm

theorem toScalar_mul_mul (s t : Sign) (x : α) :
    s.toScalar * (t.toScalar * x) = (s * t).toScalar * x := by
  cases s <;> cases t <;>
    simp only [toScalar, ExactSigns.one_mul, ExactSigns.neg_one_mul, ExactSigns.neg_neg, plus_mul,
      minus_mul, opposite]

theorem toScalar_mul_beq_zero (s : Sign) (x : α) : (s.toScalar * x == 0) = (x == 0) := by
  cases s with
  | plus => rw [toScalar, ExactSigns.one_mul]
  | minus => rw [toScalar, ExactSigns.neg_one_mul, neg_beq_zero]

theorem mul_toScalar_beq_zero (x : α) (s : Sign) : (x * s.toScalar == 0) = (x == 0) := by
  cases s with
  | plus => rw [toScalar, ExactSigns.mul_one]
  | minus => rw [toScalar, ExactSigns.mul_neg_one, neg_beq_zero]

theorem toScalar_beq_zero (s : Sign) : ((s.toScalar : α) == 0) = false := by
  rw [← ExactSigns.mul_one (s.toScalar : α), toScalar_mul_beq_zero, one_beq_zero]

theorem abs_toScalar_mul (s : Sign) (x : α) : Scalar.abs (s.toScalar * x) = Scalar.abs x := by
  cases s with
  | plus => rw [toScalar, ExactSigns.one_mul]
  | minus => rw [toScalar, ExactSigns.neg_one_mul, ExactSigns.abs_neg]

end Sign

/-- What is negligible beside zero is a zero. -/
theorem Coordinates.isNegligible_zero (x : α) : Coordinates.isNegligible 0 x = (x == 0) := by
  rw [isNegligible, Bool.eq_iff_iff, decide_eq_true_eq, abs_le_zero_iff]

end Signs

/-! ## Numbers as texts -/

/-- The number behind the magnitude of a scalar. -/
def Expansion.magnitude : Expansion → Expansion
  | .nan => .nan
  | .infinite _ => .infinite false
  | .finite _ num den => .finite false num den

/-- Numbers whose signs are exact, written as a sign and a magnitude. -/
class Numeral.Readable (α : Type) [Numeral α] : Prop extends Scalar.ExactSigns α where
  expand_abs (x : α) : expand (Scalar.abs x) = (expand x).magnitude
  expand_zero {x : α} : (x == 0) = true → ∃ negative den, expand x = .finite negative 0 den
  -- A number that is not a zero is positive or negative, and its opposite the other.
  nonneg_iff {x : α} : isFinite x = true → (x == 0) = false → (0 ≤ x ↔ ¬ x < 0)
  neg_nonneg_iff {x : α} : (x == 0) = false → (0 ≤ -x ↔ x < 0)
  not_neg_nonneg {x : α} : 0 ≤ x → (x == 0) = false → ¬ 0 ≤ -x
  abs_of_nonneg {x : α} : 0 ≤ x → (x == 0) = false → Scalar.abs x = x
  nearest_nonneg {d : Decimal} : d.negative = false → 0 ≤ (nearest d : α)
  nearest_zero {d : Decimal} : d.negative = false → d.significand = 0 → (nearest d : α) = 0

end GeometricAlgebra
