/-
  GeometricAlgebra.Proofs.Blade.Sandwich

  Products of vectors.  A vector on both sides of a blade moves its grade by two, down or up, or
  not at all; reversal keeps such a product up to the sign of the blade, and the sign of the two
  other grades is the opposite one, so nothing lies there.

    * `BladeSum.HasGrades.sandwich`: vectors on both sides keep grades.
    * `BladeSum.HasGrades.sandwich_prod`: so do products of vectors.
    * `BladeSum.prod_mul_reverse`, `reverse_mul_prod`: a product of vectors times its reverse is
      the product of the squares.
    * `BladeSum.IsVersor`: multiples of products of vectors.
-/

import GeometricAlgebra.Proofs.Blade.Sum

namespace GeometricAlgebra

open Blade (grade reverseSign)

namespace BladeSum

variable {K : Type} [Field K] [LinearOrder K] {R : BladeRule K} {v x : BladeSum R}
  {vs : List (BladeSum R)}

/-- Only vectors have a coefficient. -/
def IsVector (x : BladeSum R) : Prop := HasGrades (· = 1) x

/-- The scalar part of the product of a sum with itself. -/
noncomputable def square (x : BladeSum R) : K := (x * x) 0

theorem IsVector.reverse_eq (hv : IsVector v) : reverse v = v := HasGrades.reverse_vector hv

/-- A sum without other grades than zero is a multiple of the unit. -/
theorem eq_smul_one (hx : HasGrades (· = 0) x) : x = x 0 • 1 := by
  ext b
  rw [smul_apply, one_apply]
  by_cases hb : b = 0
  · rw [if_pos hb, hb, mul_one]
  · rw [if_neg hb, mul_zero]
    by_contra hne
    exact hb (Blade.grade_eq_zero.mp (hx b hne))

/-- The reverse of a product of vectors multiplies them in the opposite order. -/
theorem reverse_prod (hvs : ∀ v ∈ vs, IsVector v) : reverse vs.prod = vs.reverse.prod := by
  induction vs with
  | nil => simp
  | cons v vs ih =>
    rw [List.forall_mem_cons] at hvs
    rw [List.prod_cons, reverse_mul, ih hvs.2, hvs.1.reverse_eq, List.reverse_cons,
      List.prod_append, List.prod_singleton]

/-- A multiple of a product of vectors. -/
def IsVersor (x : BladeSum R) : Prop :=
  ∃ s : K, ∃ vs : List (BladeSum R), (∀ v ∈ vs, IsVector v) ∧ x = s • vs.prod

theorem IsVersor.prod (hvs : ∀ v ∈ vs, IsVector v) : IsVersor vs.prod :=
  ⟨1, vs, hvs, (one_smul K _).symm⟩

theorem IsVersor.smul (hx : IsVersor x) (t : K) : IsVersor (t • x) := by
  obtain ⟨s, vs, hvs, rfl⟩ := hx
  exact ⟨t * s, vs, hvs, smul_smul t s _⟩

theorem IsVersor.reverse (hx : IsVersor x) : IsVersor x.reverse := by
  obtain ⟨s, vs, hvs, rfl⟩ := hx
  refine ⟨s, vs.reverse, fun v hv => hvs v (List.mem_reverse.mp hv), ?_⟩
  rw [map_smul, reverse_prod hvs]

/-! ## One vector -/

/-- A vector on both sides of a blade moves its grade by two at most. -/
theorem grade_of_sandwich_single (hv : IsVector v) {b d : Blade} {s : K}
    (h : (v * single b s * v : BladeSum R) d ≠ 0) :
    grade d = grade b ∨ grade d = grade b + 2 ∨ grade b = grade d + 2 := by
  obtain ⟨e, c, he, hc, -, rfl⟩ := exists_of_mul_ne_zero h
  obtain ⟨a, b', ha, hb', -, rfl⟩ := exists_of_mul_ne_zero he
  have hga : grade a = 1 := hv a ha
  have hgb : grade b' = grade b := hasGrades_single b' hb'
  have hgc : grade c = 1 := hv c hc
  have hleft := Blade.grade_xor a b'
  have hright := Blade.grade_xor (a ^^^ b') c
  have hshared := Blade.grade_and_le a b'
  have hshared' := Blade.grade_and_le c (a ^^^ b')
  rw [Nat.and_comm] at hshared'
  omega

variable [IsStrictOrderedRing K]

/-- A vector on both sides of a blade keeps its grade. -/
theorem grade_sandwich_single (hv : IsVector v) {b d : Blade} {s : K}
    (h : (v * single b s * v : BladeSum R) d ≠ 0) : grade d = grade b := by
  -- the product is its own reverse, up to the sign of the grade of `b`
  have hreverse : reverse (v * single b s * v) =
      ((reverseSign (grade b)).toScalar : K) • (v * single b s * v) := by
    rw [reverse_mul, reverse_mul, hv.reverse_eq, reverse_single, ← smul_single, smul_mul_assoc,
      mul_smul_comm, mul_assoc]
  have hd : ((reverseSign (grade d)).toScalar : K) = (reverseSign (grade b)).toScalar := by
    have happly := congrArg (fun y : BladeSum R => y d) hreverse
    simp only [reverse_apply, smul_apply] at happly
    exact mul_right_cancel₀ h happly
  -- two grades away the sign would be the opposite one
  have hopposite : ∀ t : Sign, (t.opposite.toScalar : K) ≠ t.toScalar := by
    intro t
    cases t with
    | plus => exact neg_ne_self.mpr one_ne_zero
    | minus => exact (neg_ne_self.mpr one_ne_zero).symm
  rcases grade_of_sandwich_single hv h with heq | hup | hdown
  · exact heq
  · rw [hup, Blade.reverseSign_add_two] at hd
    exact absurd hd (hopposite _)
  · rw [hdown, Blade.reverseSign_add_two] at hd
    exact absurd hd.symm (hopposite _)

/-- Vectors on both sides keep grades. -/
theorem HasGrades.sandwich {p : Nat → Prop} (hv : IsVector v) (hx : HasGrades p x) :
    HasGrades p (v * x * v) := by
  intro d hd
  -- some blade of `x` contributes, and its grade is that of `d`
  have hsum : v * x * v = ∑ b ∈ Finsupp.support x, v * single b (x b) * v := by
    rw [← Finset.sum_mul, ← Finset.mul_sum,
      sum_single fun b hb => Finsupp.mem_support_iff.mpr hb]
  rw [hsum, sum_apply] at hd
  obtain ⟨b, hb, hne⟩ := Finset.exists_ne_zero_of_sum_ne_zero hd
  rw [grade_sandwich_single hv hne]
  exact hx b (Finsupp.mem_support_iff.mp hb)

/-- The square of a vector is a scalar. -/
theorem IsVector.mul_self (hv : IsVector v) : v * v = square v • 1 := by
  have hone : HasGrades (· = 0) (1 : BladeSum R) := by
    have h := hasGrades_single (R := R) (b := 0) (s := 1)
    rwa [Blade.grade_zero] at h
  have hsquare := hone.sandwich hv
  rw [mul_one] at hsquare
  exact eq_smul_one hsquare

/-! ## Products of vectors -/

section Products

variable (hvs : ∀ v ∈ vs, IsVector v)
include hvs

/-- A product of vectors and its reverse keep grades. -/
theorem HasGrades.sandwich_prod {p : Nat → Prop} (hx : HasGrades p x) :
    HasGrades p (vs.prod * x * reverse vs.prod) := by
  induction vs with
  | nil => simpa using hx
  | cons v vs ih =>
    rw [List.forall_mem_cons] at hvs
    have hinner := ih hvs.2
    have houter : v * vs.prod * x * reverse (v * vs.prod) =
        v * (vs.prod * x * reverse vs.prod) * v := by
      rw [reverse_mul, hvs.1.reverse_eq]
      simp only [mul_assoc]
    rw [List.prod_cons, houter]
    exact hinner.sandwich hvs.1

/-- A product of vectors times its reverse is the product of the squares. -/
theorem prod_mul_reverse :
    vs.prod * reverse vs.prod = (vs.map square).prod • 1 := by
  induction vs with
  | nil => simp
  | cons v vs ih =>
    rw [List.forall_mem_cons] at hvs
    have hinner := ih hvs.2
    calc (v :: vs).prod * reverse (v :: vs).prod = v * (vs.prod * reverse vs.prod) * v := by
          rw [List.prod_cons, reverse_mul, hvs.1.reverse_eq]
          simp only [mul_assoc]
      _ = (vs.map square).prod • (v * v) := by
          rw [hinner, mul_smul_comm, mul_one, smul_mul_assoc]
      _ = ((v :: vs).map square).prod • 1 := by
          rw [hvs.1.mul_self, smul_smul, List.map_cons, List.prod_cons, mul_comm]

/-- So is the reverse times the product. -/
theorem reverse_mul_prod :
    reverse vs.prod * vs.prod = (vs.map square).prod • 1 := by
  induction vs with
  | nil => simp
  | cons v vs ih =>
    rw [List.forall_mem_cons] at hvs
    have hinner := ih hvs.2
    calc reverse (v :: vs).prod * (v :: vs).prod = reverse vs.prod * (v * v) * vs.prod := by
          rw [List.prod_cons, reverse_mul, hvs.1.reverse_eq]
          simp only [mul_assoc]
      _ = square v • (reverse vs.prod * vs.prod) := by
          rw [hvs.1.mul_self, mul_smul_comm, mul_one, smul_mul_assoc]
      _ = ((v :: vs).map square).prod • 1 := by
          rw [hinner, smul_smul, List.map_cons, List.prod_cons]

end Products

/-! ## Versors -/

namespace IsVersor

/-- A versor and its reverse keep grades. -/
theorem hasGrades_sandwich (hv : IsVersor v) {p : Nat → Prop} (hx : HasGrades p x) :
    HasGrades p (v * x * v.reverse) := by
  obtain ⟨s, vs, hvs, rfl⟩ := hv
  have hprod := hx.sandwich_prod hvs
  have hsmul : s • vs.prod * x * BladeSum.reverse (s • vs.prod) =
      (s * s) • (vs.prod * x * BladeSum.reverse vs.prod) := by
    rw [map_smul, smul_mul_assoc, smul_mul_assoc, mul_smul_comm, smul_smul]
  rw [hsmul]
  intro b hb
  exact hprod b (right_ne_zero_of_mul hb)

/-- A versor times its reverse is a scalar, in either order. -/
theorem mul_reverse (hx : IsVersor x) : x * x.reverse = (x * x.reverse) 0 • 1 ∧
    x.reverse * x = (x * x.reverse) 0 • 1 := by
  obtain ⟨s, vs, hvs, rfl⟩ := hx
  have hleft : s • vs.prod * BladeSum.reverse (s • vs.prod) =
      (s * s * (vs.map square).prod) • 1 := by
    rw [map_smul, smul_mul_assoc, mul_smul_comm, prod_mul_reverse hvs, smul_smul, smul_smul]
  have hright : BladeSum.reverse (s • vs.prod) * s • vs.prod =
      (s * s * (vs.map square).prod) • 1 := by
    rw [map_smul, smul_mul_assoc, mul_smul_comm, reverse_mul_prod hvs, smul_smul, smul_smul]
  have hscalar : (s • vs.prod * BladeSum.reverse (s • vs.prod)) 0 =
      s * s * (vs.map square).prod := by
    rw [hleft, smul_apply, one_apply, if_pos rfl, mul_one]
  rw [hscalar]
  exact ⟨hleft, hright⟩

end IsVersor

end BladeSum

end GeometricAlgebra
