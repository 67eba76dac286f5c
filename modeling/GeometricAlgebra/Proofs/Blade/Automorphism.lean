/-
  GeometricAlgebra.Proofs.Blade.Automorphism

  Maps that respect a product and keep the grade of every blade.  Such a map respects every part
  of the product that is selected by grades; if one of these parts is an exterior product, the map
  is determined by its images of the basis vectors.

    * `BladeRule.select`: the factors of the products that have certain grades.
    * `BladeSum.recast`: the same sum, to be multiplied by another rule.
    * `BladeSum.KeepsGrades.map_convolve`: a map that keeps grades respects selected products.
    * `BladeSum.KeepsGrades.recast_eq_extend`: it extends its images of the basis vectors.
    * `BladeSum.conjugation`: multiplying by a sum and its inverse on both sides.
-/

import Mathlib.Algebra.Algebra.Bilinear
import GeometricAlgebra.Proofs.Blade.Exterior

namespace GeometricAlgebra

open Blade (grade ofVector vectors)

variable {K : Type} [Field K] [LinearOrder K] {R R' : BladeRule K}

/-- The factors of the products that have accepted grades: those of the operands, then that of the
    result. -/
def BladeRule.select (R : BladeRule K) (accepts : Nat → Nat → Nat → Bool) (a b : Blade) : K :=
  if accepts (grade a) (grade b) (grade (a ^^^ b)) = true then R.factor a b else 0

namespace BladeSum

variable {accepts : Nat → Nat → Nat → Bool} {x y : BladeSum R}

/-! ## Selected products -/

/-- Operands of one grade each: a selected product is the part of the product in the grades that
    are accepted. -/
theorem convolve_select_apply {j k : Nat} (hx : HasGrades (· = j) x) (hy : HasGrades (· = k) y)
    (d : Blade) : convolve (R.select accepts) x y d =
      if accepts j k (grade d) = true then (x * y) d else 0 := by
  have hs : ∀ b, x b ≠ 0 → b ∈ Finsupp.support x := fun b hb => Finsupp.mem_support_iff.mpr hb
  have hterm : ∀ a ∈ Finsupp.support x,
      R.select accepts a (a ^^^ d) * x a * y (a ^^^ d) =
        if accepts j k (grade d) = true then R.factor a (a ^^^ d) * x a * y (a ^^^ d) else 0 := by
    intro a ha
    by_cases hb : y (a ^^^ d) = 0
    · simp [hb]
    · have hj : grade a = j := hx a (Finsupp.mem_support_iff.mp ha)
      have hk : grade (a ^^^ d) = k := hy _ hb
      rw [BladeRule.select, Nat.xor_xor_cancel_left, hj, hk, ite_mul, ite_mul, zero_mul, zero_mul]
  rw [convolve_apply hs, mul_apply hs, Finset.sum_congr rfl hterm]
  by_cases haccepts : accepts j k (grade d) = true
  · simp only [if_pos haccepts]
  · simp only [if_neg haccepts, Finset.sum_const_zero]

/-! ## The same sum under another rule -/

/-- The same sum, to be multiplied by another rule. -/
noncomputable def recast : BladeSum R →ₗ[K] BladeSum R' := extend fun b => single b 1

theorem recast_single (b : Blade) (s : K) :
    recast (single b s : BladeSum R) = (single b s : BladeSum R') := by
  rw [recast, extend_single, smul_single, mul_one]

@[simp] theorem recast_apply (x : BladeSum R) (b : Blade) : (recast x : BladeSum R') b = x b := by
  induction x using induction with
  | zero => simp
  | add x x' hx hx' => simp [hx, hx']
  | single a s => rw [recast_single, single_apply, single_apply]

theorem recast_convolve (f : Blade → Blade → K) (x y : BladeSum R) :
    (recast (convolve f x y) : BladeSum R') = convolve f (recast x) (recast y) := by
  induction x using induction with
  | zero => simp
  | add x x' hx hx' => simp [hx, hx']
  | single a s =>
    induction y using induction with
    | zero => simp
    | add y y' hy hy' => simp [hy, hy']
    | single b t => simp only [convolve_single, recast_single]

@[simp] theorem recast_one : (recast (1 : BladeSum R) : BladeSum R') = 1 := recast_single 0 1

/-! ## Maps that keep grades -/

/-- The image of every blade has the grade of the blade only. -/
def KeepsGrades (S : BladeSum R →ₐ[K] BladeSum R) : Prop :=
  ∀ b : Blade, HasGrades (· = grade b) (S (single b 1))

section KeepsGrades

variable {S : BladeSum R →ₐ[K] BladeSum R} (hS : KeepsGrades S)
include hS

theorem KeepsGrades.hasGrades_single (b : Blade) (s : K) :
    HasGrades (· = grade b) (S (single b s)) := by
  intro d hd
  rw [single_eq_smul, map_smul] at hd
  exact hS b d (right_ne_zero_of_mul hd)

/-- A map that keeps grades respects every selected product. -/
theorem KeepsGrades.map_convolve (x y : BladeSum R) : S (convolve (R.select accepts) x y) =
    convolve (R.select accepts) (S x) (S y) := by
  -- both sides are linear in each operand, so two blades decide
  induction x using induction with
  | zero => simp
  | add x x' hx hx' => simp [hx, hx']
  | single a s =>
    induction y using induction with
    | zero => simp
    | add y y' hy hy' => simp [hy, hy']
    | single b t =>
      ext d
      have hgrade := hS.hasGrades_single (a ^^^ b) (s * t * R.factor a b) d
      have hleft : S (convolve (R.select accepts) (single a s) (single b t)) d =
          if accepts (grade a) (grade b) (grade (a ^^^ b)) = true then
            S (single (a ^^^ b) (s * t * R.factor a b)) d else 0 := by
        rw [convolve_single, BladeRule.select]
        by_cases haccepts : accepts (grade a) (grade b) (grade (a ^^^ b)) = true
        · rw [if_pos haccepts, if_pos haccepts]
        · rw [if_neg haccepts, if_neg haccepts, mul_zero, single_zero, map_zero, zero_apply]
      rw [hleft, convolve_select_apply (hS.hasGrades_single a s) (hS.hasGrades_single b t),
        ← map_mul, single_mul_single]
      by_cases hzero : S (single (a ^^^ b) (s * t * R.factor a b)) d = 0
      · rw [hzero, ite_self, ite_self]
      · -- the image has the grade that was accepted or not before
        rw [hgrade hzero]

/-- If a selected product is exterior, a map that keeps grades extends its images of the basis
    vectors. -/
theorem KeepsGrades.recast_eq_extend (hexterior : R'.IsExterior)
    (hselect : R'.factor = R.select accepts) (x : BladeSum R) : (recast (S x) : BladeSum R') =
      extend (ascending fun i => recast (S (single (ofVector i) 1))) (recast x : BladeSum R') := by
  have hmul : ∀ x' y' : BladeSum R', (recast (S (recast (x' * y'))) : BladeSum R') =
      recast (S (recast x')) * recast (S (recast y')) := by
    intro x' y'
    rw [mul_def, mul_def, hselect, recast_convolve, hS.map_convolve, recast_convolve]
  have hprod : ∀ vs : List Nat,
      (recast (S (recast (vs.map fun v => (single (ofVector v) 1 : BladeSum R')).prod)) :
        BladeSum R') = (vs.map fun v => recast (S (single (ofVector v) 1))).prod := by
    intro vs
    induction vs with
    | nil => simp
    | cons v vs ih =>
      rw [List.map_cons, List.prod_cons, hmul, ih, recast_single, List.map_cons, List.prod_cons]
  induction x using induction with
  | zero => simp
  | add x x' hx hx' => rw [map_add, map_add, hx, hx', map_add, map_add]
  | single b s =>
    have hblade : (recast (S (single b 1)) : BladeSum R') =
        ascending (fun i => recast (S (single (ofVector i) 1))) b := by
      rw [ascending, ← hprod, ← single_eq_prod hexterior, recast_single]
    rw [single_eq_smul, map_smul, map_smul, hblade, map_smul, recast_single, map_smul,
      extend_single, one_smul]

end KeepsGrades

/-! ## Conjugation -/

section Conjugation

variable {u u' : BladeSum R} (hright : u * u' = 1) (hleft : u' * u = 1)

/-- Multiplying by a sum from the left and by its inverse from the right. -/
noncomputable def conjugation (hright : u * u' = 1) (hleft : u' * u = 1) :
    BladeSum R →ₐ[K] BladeSum R :=
  .ofLinearMap (LinearMap.mulRight K u' ∘ₗ LinearMap.mulLeft K u) (by simp [hright])
    fun x y => by
      -- the inverse cancels between the factors
      calc u * (x * y) * u' = u * x * 1 * y * u' := by simp only [mul_one, mul_assoc]
        _ = u * x * u' * (u * y * u') := by simp only [← hleft, mul_assoc]

@[simp] theorem conjugation_apply (x : BladeSum R) :
    conjugation hright hleft x = u * x * u' := rfl

/-- Conjugation by a multiple of a product of vectors keeps grades. -/
theorem keepsGrades_conjugation [IsStrictOrderedRing K] (hu : IsVersor u) {s : K}
    (hu' : u' = s • u.reverse) : KeepsGrades (conjugation hright hleft) := by
  intro b d hd
  rw [conjugation_apply, hu', mul_smul_comm] at hd
  exact hu.hasGrades_sandwich hasGrades_single d (right_ne_zero_of_mul hd)

end Conjugation

end BladeSum

end GeometricAlgebra
