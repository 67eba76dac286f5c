/-
  GeometricAlgebra.Proofs.Blade.Cocycle

  Blades multiply associatively.  The product of two canonical blades is a coefficient times
  their symmetric difference, so associativity is an identity between coefficients.

    * `reorderingSign_xor_left`, `reorderingSign_xor_right`: up to parity, swaps add up over
      the symmetric difference, on either side.
    * `metricFactor_cocycle`: a vector of three blades meets its metric entry equally often in
      both orders of multiplication.
    * `coefficient_cocycle`: the identity for coefficients.
-/

import Mathlib.Algebra.BigOperators.Group.Finset.Basic
import Mathlib.Data.Nat.Bitwise
import GeometricAlgebra.Proofs.Exact
import GeometricAlgebra.Proofs.Blade.Vectors

namespace GeometricAlgebra

/-! ## Symmetric differences -/

theorem xor_eq_iff {a b d : Nat} : a ^^^ b = d ↔ b = a ^^^ d :=
  ⟨fun h => by rw [← h, Nat.xor_xor_cancel_left], fun h => by rw [h, Nat.xor_xor_cancel_left]⟩

namespace Blade

/-- Three lengths of which none is greater than the sum of the others. -/
def Triangle (r s t : Nat) : Prop := t ≤ r + s ∧ r ≤ s + t ∧ s ≤ r + t

/-- The grades of two blades and of their product are the sides of a triangle. -/
theorem grade_triangle (a b : Nat) : Triangle (grade a) (grade b) (grade (a ^^^ b)) := by
  have hab := grade_xor a b
  have hleft := grade_and_le a b
  have hright := grade_and_le b a
  rw [Nat.and_comm] at hright
  unfold Triangle
  omega

/-! ## Reordering signs -/

@[simp] theorem swaps_zero_left (b : Blade) : swaps 0 b = 0 := by rw [swaps]

/-- The lowest vector passes those of `b` that it meets after halving. -/
theorem swaps_eq (a b : Blade) : swaps a b = grade (a / 2 &&& b) + swaps (a / 2) b := by
  cases a with
  | zero => simp
  | succ a => rw [swaps]

theorem swaps_xor_right (a b c : Nat) : swaps a (b ^^^ c) % 2 = (swaps a b + swaps a c) % 2 := by
  induction a using Nat.strong_induction_on with
  | _ a ih =>
    rcases Nat.eq_zero_or_pos a with rfl | ha
    · simp
    · -- one halving of `a` adds a grade to each count, and these grades agree up to parity
      have hhalf := ih (a / 2) (Nat.div_lt_self ha (by decide))
      have hgrade := grade_xor (a / 2 &&& b) (a / 2 &&& c)
      rw [← Nat.and_xor_distrib_left] at hgrade
      rw [swaps_eq a (b ^^^ c), swaps_eq a b, swaps_eq a c]
      omega

theorem swaps_xor_left (a b c : Nat) : swaps (a ^^^ b) c % 2 = (swaps a c + swaps b c) % 2 := by
  -- both left operands are halved at once, so the induction is on their sum
  induction h : a + b using Nat.strong_induction_on generalizing a b with
  | _ k ih =>
    rcases Nat.eq_zero_or_pos k with rfl | hk
    · obtain ⟨rfl, rfl⟩ : a = 0 ∧ b = 0 := by omega
      simp
    · have hhalf := ih (a / 2 + b / 2) (by omega) (a / 2) (b / 2) rfl
      have hgrade := grade_xor (a / 2 &&& c) (b / 2 &&& c)
      rw [← Nat.and_xor_distrib_right] at hgrade
      rw [swaps_eq (a ^^^ b), swaps_eq a, swaps_eq b, Nat.xor_div_two]
      omega

theorem reorderingSign_xor_left (a b c : Nat) :
    reorderingSign (a ^^^ b) c = reorderingSign a c * reorderingSign b c := by
  rw [reorderingSign, Sign.ofSwaps_congr (swaps_xor_left a b c), Sign.ofSwaps_add]
  rfl

theorem reorderingSign_xor_right (a b c : Nat) :
    reorderingSign a (b ^^^ c) = reorderingSign a b * reorderingSign a c := by
  rw [reorderingSign, Sign.ofSwaps_congr (swaps_xor_right a b c), Sign.ofSwaps_add]
  rfl

theorem reorderingSign_cocycle (a b c : Nat) :
    reorderingSign a b * reorderingSign (a ^^^ b) c =
      reorderingSign b c * reorderingSign a (b ^^^ c) := by
  rw [reorderingSign_xor_left, reorderingSign_xor_right, ← Sign.mul_assoc, ← Sign.mul_assoc,
    Sign.mul_comm _ (reorderingSign b c), ← Sign.mul_assoc]

/-! ## Metric factors -/

variable {K : Type} [Field K] (metric : Array K)

/-- The square of a basis vector; a vector beyond the metric counts as a unit vector. -/
def square (i : Nat) : K := metric.getD i 1

/-- The squares of the vectors that two blades share. -/
def metricFactor (a b : Blade) : K := ((vectors (a &&& b)).map (square metric)).prod

/-- In dimension `n`, vector by vector. -/
theorem metricFactor_eq_prod {n a : Nat} (ha : a < 2 ^ n) (b : Nat) :
    metricFactor metric a b =
      ∏ i ∈ Finset.range n, if (a.testBit i && b.testBit i) = true then square metric i else 1 := by
  have hand : a &&& b < 2 ^ n := lt_of_le_of_lt Nat.and_le_left ha
  rw [metricFactor, vectors_eq_filter hand, ← Finset.prod_filter]
  have hnodup : ((List.range n).filter (a &&& b).testBit).Nodup := List.nodup_range.filter _
  rw [← List.prod_toFinset _ hnodup]
  congr 1
  ext i
  simp

theorem metricFactor_cocycle (a b c : Nat) :
    metricFactor metric a b * metricFactor metric (a ^^^ b) c =
      metricFactor metric b c * metricFactor metric a (b ^^^ c) := by
  -- every shared vector is one of `a` or `b`, so a dimension that holds these two is enough
  obtain ⟨n, ha, hb⟩ : ∃ n, a < 2 ^ n ∧ b < 2 ^ n :=
    ⟨a + b, Nat.lt_of_lt_of_le Nat.lt_two_pow_self (Nat.pow_le_pow_right (by decide) (by omega)),
      Nat.lt_of_lt_of_le Nat.lt_two_pow_self (Nat.pow_le_pow_right (by decide) (by omega))⟩
  rw [metricFactor_eq_prod metric ha, metricFactor_eq_prod metric (Nat.xor_lt_two_pow ha hb),
    metricFactor_eq_prod metric hb, metricFactor_eq_prod metric ha, ← Finset.prod_mul_distrib,
    ← Finset.prod_mul_distrib]
  refine Finset.prod_congr rfl fun i _ => ?_
  -- at each vector, by which of the three blades contain it
  rw [Nat.testBit_xor, Nat.testBit_xor]
  cases a.testBit i <;> cases b.testBit i <;> cases c.testBit i <;> simp

/-! ## Coefficients -/

variable [LinearOrder K]

/-- The coefficient of the product of two canonical blades. -/
def coefficient (a b : Blade) : K := (geometricProduct metric a b).1

theorem coefficient_eq (a b : Blade) : coefficient metric a b =
    (reorderingSign a b).toScalar * metricFactor metric a b := by
  -- the squares are multiplied into the sign one after the other
  have hfold : ∀ (vs : List Nat) (s : K), vs.foldl (fun c i => c * metric.getD i 1) s =
      s * (vs.map (square metric)).prod := by
    intro vs
    induction vs with
    | nil => simp
    | cons v vs ih =>
      intro s
      rw [List.foldl_cons, ih, List.map_cons, List.prod_cons, mul_assoc, square]
  exact hfold _ _

/-- Three blades have the same product in both orders of multiplication. -/
theorem coefficient_cocycle (a b c : Nat) :
    coefficient metric a b * coefficient metric (a ^^^ b) c =
      coefficient metric b c * coefficient metric a (b ^^^ c) := by
  simp only [coefficient_eq]
  rw [mul_mul_mul_comm (reorderingSign a b).toScalar,
    mul_mul_mul_comm (reorderingSign b c).toScalar, ← Sign.toScalar_mul, ← Sign.toScalar_mul,
    reorderingSign_cocycle, metricFactor_cocycle]

end Blade

end GeometricAlgebra
