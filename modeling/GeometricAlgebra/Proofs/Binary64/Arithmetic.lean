/-
  GeometricAlgebra.Proofs.Binary64.Arithmetic

  Arithmetic of floating point numbers of 64 bits, on their parts.  A result that the format has
  bits for is not rounded; so a factor or a divisor one or minus one changes the sign only.

    * `unpacked`: the parts of a number; `ext`: they determine it.
    * `unpacked_add`, `unpacked_mul`, `unpacked_div`: canonical results need no rounding.
    * `Normalized`, `roundWithAccuracy_exact`: nor do canonical parts with zeros behind the mantissa.
    * `mul_one_left`, `mul_one_right`, `div_one_right`: factors and divisors one and minus one.
-/

import GeometricAlgebra.Proofs.Binary64.Packing
import GeometricAlgebra.Proofs.ExactSigns

namespace GeometricAlgebra.Binary64

open Float.Model (Format UnpackedFloat)
open Float.Model.UnpackedFloat

/-! ## Numbers and their parts -/

/-- The parts of a number. -/
def unpacked (x : Float) : UnpackedFloat := x.toModel.unpack

theorem canonical_unpacked (x : Float) : Canonical (unpacked x) := canonical_unpack _

/-- Numbers with the same parts are equal. -/
theorem ext {x y : Float} (h : unpacked x = unpacked y) : x = y := by
  have hbits := (unpack_inj_of_valid x.toModel.valid y.toModel.valid).mp h
  exact Float.toBits_inj.mp (UInt64.toBitVec_inj.mp hbits)

/-- The number behind a scalar is that of its parts. -/
theorem expand_eq (x : Float) : Numeral.expand x = expansion (unpacked x) := by
  rw [← expandBits_pack (canonical_unpacked x), unpacked, Float.Model.unpack,
    pack_unpack_of_valid x.toModel.valid]
  rfl

theorem unpacked_pack {u : UnpackedFloat} (h : Canonical u) : unpacked ⟨Float.Model.pack u⟩ = u :=
  unpack_pack h

theorem unpacked_zero : unpacked 0 = .zero .positive := by rfl

theorem unpacked_neg (x : Float) : unpacked (-x) = (unpacked x).neg := by
  have h := canonical_unpacked x
  refine unpacked_pack (u := (unpacked x).neg) ?_
  cases hx : unpacked x <;> rw [hx] at h <;> exact h

theorem unpacked_abs (x : Float) : unpacked (Scalar.abs x) = (unpacked x).abs := by
  have h := canonical_unpacked x
  refine unpacked_pack (u := (unpacked x).abs) ?_
  cases hx : unpacked x <;> rw [hx] at h <;> exact h

section Operations

variable {x y : Float} {u : UnpackedFloat} (hu : Canonical u)
include hu

theorem unpacked_add (h : UnpackedFloat.add .binary64 (unpacked x) (unpacked y) = u) :
    unpacked (x + y) = u := by
  rw [← unpacked_pack hu, ← h]
  rfl

theorem unpacked_mul (h : UnpackedFloat.mul .binary64 (unpacked x) (unpacked y) = u) :
    unpacked (x * y) = u := by
  rw [← unpacked_pack hu, ← h]
  rfl

theorem unpacked_div (h : UnpackedFloat.div .binary64 (unpacked x) (unpacked y) = u) :
    unpacked (x / y) = u := by
  rw [← unpacked_pack hu, ← h]
  rfl

end Operations

/-! ## Exact rounding -/

variable {m : Nat} {e : Int}

/-- Mantissas and exponents with as many bits in the mantissa as the least exponent leaves; the
    exponent can be too large for the format. -/
def Normalized (m : Nat) (e : Int) : Prop :=
  m < 2 ^ 53 ∧ -1074 ≤ e ∧ (2 ^ 52 ≤ m ∨ e = -1074)

theorem Fits.normalized (h : Fits m e) : Normalized m e := ⟨h.1, h.2.1, h.2.2.2⟩

/-- Normalized parts stand at the exponent that the format wants for them. -/
theorem targetExponent_eq (hm : 0 < m) (h : Normalized m e) :
    Format.binary64.targetExponent (Float.Model.totalExponent m e) = e := by
  obtain ⟨hhigh, hlow, hnormal⟩ := h
  have hne : m ≠ 0 := Nat.ne_of_gt hm
  have hlog : m.log2 < 53 := (Nat.log2_lt hne).mpr hhigh
  change max ((m.log2 : Int) + 1 + e - 53) (-1074) = e
  rcases hnormal with hmin | rfl
  · have hlog' : 52 ≤ m.log2 := (Nat.le_log2 hne).mpr hmin
    omega
  · omega

/-- Zeros at the end of a mantissa are shifted out without a trace. -/
theorem shiftRight_exact (m k : Nat) :
    (ExtendedMantissa.ofMantissaAndAccuracy (2 ^ k * m) .exact) >>> k =
      ExtendedMantissa.ofMantissaAndAccuracy m .exact := by
  change k.repeat ExtendedMantissa.shiftRightOne ⟨2 ^ k * m, false, false⟩ = ⟨m, false, false⟩
  induction k generalizing m with
  | zero => rw [Nat.pow_zero, Nat.one_mul, Nat.repeat]
  | succ k ih =>
    rw [Nat.pow_succ, Nat.mul_assoc, Nat.repeat, ih]
    simp [ExtendedMantissa.shiftRightOne]

theorem totalExponent_exact (hm : 0 < m) (e : Int) (k : Nat) :
    Float.Model.totalExponent (2 ^ k * m) (e - k) = Float.Model.totalExponent m e := by
  have hlog : (2 ^ k * m).log2 = m.log2 + k := by
    induction k with
    | zero => rw [Nat.pow_zero, Nat.one_mul, Nat.add_zero]
    | succ k ih =>
      have hne : 2 ^ k * m ≠ 0 := Nat.ne_of_gt (Nat.mul_pos (Nat.two_pow_pos k) hm)
      rw [Nat.pow_succ, Nat.mul_comm (2 ^ k), Nat.mul_assoc, Nat.log2_two_mul hne, ih,
        Nat.add_assoc]
  rw [Float.Model.totalExponent, hlog, Float.Model.totalExponent]
  omega

theorem shiftToTargetExponent_exact (hm : 0 < m) (h : Normalized m e) (k : Nat) :
    shiftToTargetExponent .binary64 (2 ^ k * m) (e - k) .exact =
      (.ofMantissaAndAccuracy m .exact, e) := by
  have hamount : (e - (e - (k : Int))).toNat = k := by omega
  rw [shiftToTargetExponent, totalExponent_exact hm, targetExponent_eq hm h, shiftToExponent,
    hamount, shiftRight_exact]
  congr 1
  omega

/-- Rounding a mantissa can leave zeros behind it, which are shifted out. -/
theorem roundWithAccuracy_of_rounded (s : UnpackedFloat.Sign) (hm : 0 < m) (h : Normalized m e)
    (j : Nat) {k : Nat} {d t : Int} {rounded : ExtendedMantissa}
    (hshift : shiftToTargetExponent .binary64 k d .exact = (rounded, t)) (ht : t = e - j)
    (hrounded : rounded.roundedMantissa = 2 ^ j * m) :
    roundWithAccuracy .binary64 s k d .exact = .finite s m e hm := by
  have hne : m ≠ 0 := Nat.ne_of_gt hm
  simp only [roundWithAccuracy, hshift, hrounded, ht, shiftToTargetExponent_exact hm h]
  exact dif_neg hne

/-- A number of the format is its own rounding, with whatever zeros behind its mantissa. -/
theorem roundWithAccuracy_exact (s : UnpackedFloat.Sign) (hm : 0 < m) (h : Normalized m e)
    (k : Nat) : roundWithAccuracy .binary64 s (2 ^ k * m) (e - k) .exact = .finite s m e hm :=
  roundWithAccuracy_of_rounded s hm h 0 (shiftToTargetExponent_exact hm h k) (Int.sub_zero e).symm
    (Nat.one_mul m).symm

/-! ## Multiplication and division by a sign -/

/-- The parts of one, under a sign. -/
def one (s : UnpackedFloat.Sign) : UnpackedFloat := .finite s (2 ^ 52) (-52) (by decide)

/-- Parts under a further sign. -/
def signed (s : UnpackedFloat.Sign) (u : UnpackedFloat) : UnpackedFloat :=
  match s with
  | .positive => u
  | .negative => u.neg

theorem signed_finite (s t : UnpackedFloat.Sign) (hm : 0 < m) (e : Int) :
    signed s (.finite t m e hm) = .finite (s * t) m e hm := by
  cases s <;> cases t <;> rfl

theorem mul_one_left (s : UnpackedFloat.Sign) {u : UnpackedFloat} (h : Canonical u) :
    UnpackedFloat.mul .binary64 (one s) u = signed s u := by
  cases u with
  | notANumber => cases s <;> rfl
  | infinity t => cases s <;> cases t <;> rfl
  | zero t => cases s <;> cases t <;> rfl
  | finite t m e hm =>
    rw [signed_finite, ← roundWithAccuracy_exact (s * t) hm h.normalized 52, Int.sub_eq_add_neg,
      Int.add_comm]
    rfl

theorem mul_one_right (s : UnpackedFloat.Sign) {u : UnpackedFloat} (h : Canonical u) :
    UnpackedFloat.mul .binary64 u (one s) = signed s u := by
  cases u with
  | notANumber => cases s <;> rfl
  | infinity t => cases s <;> cases t <;> rfl
  | zero t => cases s <;> cases t <;> rfl
  | finite t m e hm =>
    have hsign : t * s = s * t := by cases s <;> cases t <;> rfl
    rw [signed_finite, ← roundWithAccuracy_exact (s * t) hm h.normalized 52, Nat.mul_comm, ← hsign]
    rfl

/-- Division by one is exact. -/
theorem divCore_one (hm : 0 < m) (h : Fits m e) :
    ∃ j : Nat, divCore .binary64 m e (2 ^ 52) (-52) = (2 ^ j * m, e - j, .exact) := by
  have htotal : Float.Model.totalExponent (2 ^ 52) (-52) = 1 := by decide
  have htarget := targetExponent_eq hm h.normalized
  have hlow : Format.binary64.targetExponent (Float.Model.totalExponent m e - 1) ≤ e := by
    change max (Float.Model.totalExponent m e - 1 - 53) (-1074) ≤ e
    change max (Float.Model.totalExponent m e - 53) (-1074) = e at htarget
    omega
  obtain ⟨j, hj⟩ := Int.le.dest hlow
  have hmin : min (e - -52) (Format.binary64.targetExponent (Float.Model.totalExponent m e - 1)) =
      e - j := by omega
  have hamount : (e - -52 - (e - (j : Int))).toNat = 52 + j := by omega
  refine ⟨j, ?_⟩
  have hshift : m <<< (52 + j) = 2 ^ 52 * (2 ^ j * m) := by
    rw [Nat.shiftLeft_eq, Nat.pow_add, Nat.mul_comm, Nat.mul_assoc]
  rw [divCore, htotal, hmin]
  simp only [hamount, hshift, Nat.mul_div_cancel_left _ (Nat.two_pow_pos 52), Nat.mul_mod_right,
    accuracyOfFraction, if_true]

theorem div_one_right (s : UnpackedFloat.Sign) {u : UnpackedFloat} (h : Canonical u) :
    UnpackedFloat.div .binary64 u (one s) = signed s u := by
  cases u with
  | notANumber => cases s <;> rfl
  | infinity t => cases s <;> cases t <;> rfl
  | zero t => cases s <;> cases t <;> rfl
  | finite t m e hm =>
    obtain ⟨j, hj⟩ := divCore_one hm h
    have hsign : t / s = s * t := by cases s <;> cases t <;> rfl
    rw [signed_finite, ← roundWithAccuracy_exact (s * t) hm h.normalized j, ← hsign, one,
      UnpackedFloat.div, hj]

/-! ## Sums with a zero -/

theorem add_zero_left {u : UnpackedFloat} (h : ∀ s, u ≠ .zero s) (s : UnpackedFloat.Sign) :
    UnpackedFloat.add .binary64 (.zero s) u = u := by
  cases u with
  | zero t => exact absurd rfl (h t)
  | _ => rfl

theorem add_zero_right {u : UnpackedFloat} (h : ∀ s, u ≠ .zero s) (s : UnpackedFloat.Sign) :
    UnpackedFloat.add .binary64 u (.zero s) = u := by
  cases u with
  | zero t => exact absurd rfl (h t)
  | _ => rfl

end GeometricAlgebra.Binary64
