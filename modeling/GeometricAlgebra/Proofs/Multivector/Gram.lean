/-
  GeometricAlgebra.Proofs.Multivector.Gram

  The scalar product of two wedges of vectors, in exact arithmetic and for every metric.  A vector
  contracts a wedge factor by factor with alternating signs, as a determinant is expanded along a
  row, so the scalar product of two wedges is the determinant of those of their vectors.

    * `Clifford.contract_prod`: a vector contracted onto a product of vectors.
    * `Clifford.pairing_prod`: the scalar product of two products of vectors.
    * `Clifford.norm2_foldl_op`: the squared norm of a wedge.
    * `Clifford.gram_of_ofConfig`: it is the Gram determinant, in every accepted algebra.
-/

import Mathlib.LinearAlgebra.Matrix.Determinant.Basic
import Mathlib.LinearAlgebra.Matrix.ToLinearEquiv
import Mathlib.LinearAlgebra.Dimension.Constructions
import GeometricAlgebra.Proofs.Multivector.Contraction
import GeometricAlgebra.Proofs.Multivector.Duality
import GeometricAlgebra.Proofs.Multivector.ScalarProduct
import GeometricAlgebra.Proofs.Multivector.Vectors

namespace GeometricAlgebra

namespace Clifford

variable {K : Type} [Field K] [LinearOrder K] {A : Clifford K} {R : BladeRule K}

/-! ## Contractions of sums -/

section Sums

variable {u w x y z : BladeSum R}

/-- The left contraction of sums of blades, under the metric of the algebra. -/
noncomputable def contract (A : Clifford K) : BladeSum R →ₗ[K] BladeSum R →ₗ[K] BladeSum R :=
  BladeSum.convolve (A.twist .leftContraction)

/-- The outer product does not look at the metric. -/
theorem factor_eq_twist_outer (hR : R.IsExterior) (A : Clifford K) :
    R.factor = A.twist .outer := by
  funext a b
  have hA := isExterior_outerRule A
  by_cases hab : a &&& b = 0
  · exact (hR.factor_of_disjoint a b hab).trans (hA.factor_of_disjoint a b hab).symm
  · exact (hR.factor_of_shared a b hab).trans (hA.factor_of_shared a b hab).symm

theorem pairing_sum_smul {ι : Type} (s : Finset ι) (c : ι → K) (x : BladeSum R)
    (y : ι → BladeSum R) :
    A.pairing x (∑ i ∈ s, c i • y i) = ∑ i ∈ s, c i * A.pairing x (y i) := by
  rw [pairing_eq, map_sum, BladeSum.sum_apply]
  refine Finset.sum_congr rfl fun i _ => ?_
  rw [map_smul, BladeSum.smul_apply, pairing_eq]

theorem pairing_zero_right (x : BladeSum R) : A.pairing x 0 = 0 := by
  rw [pairing_eq, LinearMap.map_zero, BladeSum.zero_apply]

theorem pairing_one_one : A.pairing (1 : BladeSum R) 1 = 1 := by
  rw [pairing_eq, BladeSum.one_def, BladeSum.convolve_single, twist_scalar, if_pos rfl,
    Blade.coefficient_zero_left, Nat.xor_self, BladeSum.single_apply, if_pos rfl, mul_one, mul_one]

/-- Two vectors contract to their scalar product. -/
theorem contract_vector (hu : u.IsVector) (hw : w.IsVector) :
    A.contract u w = A.pairing u w • 1 := by
  rw [← convolve_scalar]
  refine BladeSum.convolve_congr fun a b ha hb => ?_
  have hga : Blade.grade a = 1 := hu a ha
  have hgb : Blade.grade b = 1 := hw b hb
  simp only [twist, ProductKind.accepts, beq_iff_eq, hga, hgb, Nat.add_eq_right]

/-- A vector changes its sign with every vector it passes. -/
theorem signed_involutionSign_vector (hw : w.IsVector) :
    BladeSum.signed Blade.involutionSign w = (-1 : K) • w := by
  ext b
  rw [BladeSum.signed_apply, BladeSum.smul_apply]
  by_cases hb : w b = 0
  · rw [hb, mul_zero, mul_zero]
  · have hgrade : Blade.grade b = 1 := hw b hb
    rw [hgrade]
    rfl

variable (hR : R.IsExterior)
include hR

/-- The last factor of an outer product contracts the other operand. -/
theorem pairing_mul (x y z : BladeSum R) :
    A.pairing (x * y) z = A.pairing x (A.contract y z) := by
  rw [pairing_eq, pairing_eq, BladeSum.mul_def, factor_eq_twist_outer hR A]
  exact congrArg (fun w : BladeSum R => w 0)
    (BladeSum.convolve_convolve (twist_mul_twist ProductKind.associates_scalar) x y z)

section Contraction

variable (hu : u.IsVector)
include hu

/-- A vector contracts a product as a derivation that changes sign with the grades it passes. -/
theorem contract_mul (x y : BladeSum R) : A.contract u (x * y) =
    A.contract u x * y + BladeSum.signed Blade.involutionSign x * A.contract u y := by
  simp only [BladeSum.mul_def, factor_eq_twist_outer hR A]
  exact hu.convolve_derivation (fun u a b hu => twist_derivation hu a b) x y

/-- A vector contracts a product of vectors factor by factor, with alternating signs. -/
theorem contract_prod {k : Nat} {w : Fin (k + 1) → BladeSum R} (hw : ∀ j, (w j).IsVector) :
    A.contract u (List.ofFn w).prod = ∑ j : Fin (k + 1),
      ((-1) ^ (j : Nat) * A.pairing u (w j)) • (List.ofFn fun i => w (j.succAbove i)).prod := by
  induction k with
  | zero =>
    rw [List.ofFn_succ, List.ofFn_zero, List.prod_singleton, contract_vector hu (hw 0),
      Fin.sum_univ_one, Fin.val_zero, pow_zero, one_mul, List.ofFn_zero, List.prod_nil]
  | succ k ih =>
    rw [List.ofFn_succ, List.prod_cons, contract_mul hR hu, contract_vector hu (hw 0),
      signed_involutionSign_vector (hw 0), ih fun j => hw j.succ, Fin.sum_univ_succ (n := k + 1)]
    congr 1
    · rw [Fin.val_zero, pow_zero, one_mul, smul_mul_assoc, one_mul, Fin.succAbove_zero]
    · -- the first vector is passed, and stays in front of the others
      rw [Finset.mul_sum]
      refine Finset.sum_congr rfl fun j _ => ?_
      rw [List.ofFn_succ (f := fun i => w (j.succ.succAbove i)), List.prod_cons,
        Fin.succ_succAbove_zero, smul_mul_smul_comm, Fin.val_succ, pow_succ]
      simp only [Fin.succ_succAbove_succ]
      congr 1
      ring

end Contraction

/-- The scalar product of two products of vectors, one of them reversed, is the determinant of the
    scalar products of the vectors. -/
theorem pairing_prod {k : Nat} {u w : Fin k → BladeSum R} (hu : ∀ i, (u i).IsVector)
    (hw : ∀ j, (w j).IsVector) : A.pairing (List.ofFn u).reverse.prod (List.ofFn w).prod =
      (Matrix.of fun i j => A.pairing (u i) (w j)).det := by
  induction k with
  | zero =>
    rw [List.ofFn_zero, List.ofFn_zero, List.reverse_nil, List.prod_nil, pairing_one_one,
      Matrix.det_fin_zero]
  | succ k ih =>
    -- contracting by the first vector expands the determinant along the first row
    rw [List.ofFn_succ, List.reverse_cons, List.prod_append, List.prod_singleton, pairing_mul hR,
      contract_prod hR (hu 0) hw, pairing_sum_smul, Matrix.det_succ_row_zero]
    refine Finset.sum_congr rfl fun j _ => ?_
    rw [ih (fun i => hu i.succ) fun i => hw (j.succAbove i)]
    rfl

end Sums

/-! ## Wedges of vectors -/

section Wedges

variable {vs : List (Multivector K)}

/-- The components of a vector, by the index of the basis vector. -/
def components (A : Clifford K) (v : Multivector K) : Fin A.dimension → K :=
  fun i => A.coordinate v (.ofVector i)

variable (hT : A.table.Lawful)
include hT

/-- What the components of vectors satisfy, their values do. -/
theorem sum_smul_value {ι : Type} [Fintype ι] {v : ι → Multivector K} (hv : ∀ i, A.IsVector (v i))
    {g : ι → K} (hg : ∑ i, g i • A.components (v i) = 0) : ∑ i, g i • value R A (v i) = 0 := by
  ext b
  rw [BladeSum.sum_apply, BladeSum.zero_apply]
  simp only [BladeSum.smul_apply]
  by_cases hb : b < 2 ^ A.dimension ∧ Blade.grade b = 1
  · obtain ⟨hb, hgrade⟩ := hb
    obtain ⟨j, rfl⟩ := Blade.eq_ofVector_of_grade hgrade
    have hj : j < A.dimension := Blade.lt_of_ofVector_lt hb
    have hcomponent := congrFun hg ⟨j, hj⟩
    rw [Finset.sum_apply] at hcomponent
    refine (Finset.sum_congr rfl fun i _ => ?_).trans hcomponent
    rw [value_apply_of_lt hb, coefficient_ofVector hT _ hj]
    rfl
  · refine Finset.sum_eq_zero fun i _ => ?_
    -- a vector has no other coefficient
    have hzero : value R A (v i) b = 0 := by
      by_contra hne
      exact hb ⟨lt_of_value_ne_zero hne, (hv i).isVector_value b hne⟩
    rw [hzero, mul_zero]

variable [IsStrictOrderedRing K]

/-- The value of an outer product of a list is the product of the values. -/
theorem value_foldl_op (hvs : ∀ v ∈ vs, v.WellFormed A) {x : Multivector K} (hx : x.WellFormed A) :
    (vs.foldl A.op x).WellFormed A ∧ value A.outerRule A (vs.foldl A.op x) =
      value A.outerRule A x * (vs.map (value A.outerRule A)).prod := by
  induction vs generalizing x with
  | nil => exact ⟨hx, (mul_one _).symm⟩
  | cons v vs ih =>
    rw [List.forall_mem_cons] at hvs
    obtain ⟨hwf, hvalue⟩ := ih hvs.2 (wellFormed_op hT x v)
    rw [List.foldl_cons]
    exact ⟨hwf, by rw [hvalue, value_op hT hx hvs.1, List.map_cons, List.prod_cons, mul_assoc]⟩

variable (hvs : ∀ v ∈ vs, A.IsVector v)
include hvs

/-- The squared norm of a wedge of vectors is their Gram determinant. -/
theorem norm2_foldl_op : A.norm2 (vs.foldl A.op (.scalar 1)) =
    (Matrix.of fun i j : Fin vs.length => A.sp vs[i] vs[j]).det := by
  have hwell : ∀ v ∈ vs, v.WellFormed A := fun v hv => (hvs v hv).wellFormed
  obtain ⟨hwf, hvalue⟩ := value_foldl_op hT hwell (Multivector.wellFormed_scalar hT 1)
  have hvector : ∀ i : Fin vs.length, (value A.outerRule A vs[i]).IsVector :=
    fun i => (hvs vs[i] (List.getElem_mem i.isLt)).isVector_value
  rw [value_scalar hT, one_smul, one_mul] at hvalue
  calc A.norm2 (vs.foldl A.op (.scalar 1))
      = A.pairing (vs.map (value A.outerRule A)).prod
          (vs.map (value A.outerRule A)).reverse.prod := by
        rw [norm2, sp_eq_pairing (R := A.outerRule) hT hwf (wellFormed_reverse hwf),
          value_reverse hwf, hvalue, BladeSum.reverse_prod (isVector_of_mem_map hvs)]
    _ = (Matrix.of fun i j : Fin vs.length =>
          A.pairing (value A.outerRule A vs[i]) (value A.outerRule A vs[j])).det := by
        rw [pairing_comm, ← List.ofFn_getElem_eq_map vs (value A.outerRule A)]
        exact pairing_prod (isExterior_outerRule A) hvector hvector
    _ = (Matrix.of fun i j : Fin vs.length => A.sp vs[i] vs[j]).det := by
        congr 2
        funext i j
        exact (sp_eq_pairing hT (hwell vs[i] (List.getElem_mem i.isLt))
          (hwell vs[j] (List.getElem_mem j.isLt))).symm

/-- A linear relation of vectors is one of the rows of their Gram matrix. -/
theorem det_gram_eq_zero
    (hdep : ¬ LinearIndependent K fun i : Fin vs.length => A.components vs[i]) :
    (Matrix.of fun i j : Fin vs.length => A.sp vs[i] vs[j]).det = 0 := by
  have hvector : ∀ i : Fin vs.length, A.IsVector vs[i] := fun i =>
    hvs vs[i] (List.getElem_mem i.isLt)
  obtain ⟨g, hg, i, hi⟩ := Fintype.not_linearIndependent_iff.mp hdep
  refine Matrix.exists_vecMul_eq_zero_iff.mp ⟨g, fun h => hi (congrFun h i), ?_⟩
  funext j
  have hrow : ∀ i : Fin vs.length, A.sp vs[i] vs[j] =
      A.pairing (value A.geometricRule A vs[j]) (value A.geometricRule A vs[i]) := fun i => by
    rw [pairing_comm]
    exact sp_eq_pairing hT (hvector i).wellFormed (hvector j).wellFormed
  calc ∑ i, g i * A.sp vs[i] vs[j]
      = A.pairing (value A.geometricRule A vs[j])
          (∑ i : Fin vs.length, g i • value A.geometricRule A vs[i]) := by
        rw [pairing_sum_smul]
        exact Finset.sum_congr rfl fun i _ => by rw [hrow i]
    _ = 0 := by
        rw [sum_smul_value hT hvector hg, pairing_zero_right]

end Wedges

/-- In exact arithmetic, in every accepted algebra, whatever its metric: the squared norm of an outer
    product of vectors is the determinant of their scalar products.  It is zero for more vectors than
    the dimension, and for linearly dependent ones. -/
theorem gram_of_ofConfig [IsStrictOrderedRing K] {c : Config K} (h : ofConfig c = .ok A)
    {vs : List (Multivector K)} (hvs : ∀ v ∈ vs, A.IsVector v) :
    A.norm2 (vs.foldl A.op (.scalar 1)) =
        (Matrix.of fun i j : Fin vs.length => A.sp vs[i] vs[j]).det ∧
      (A.dimension < vs.length → A.norm2 (vs.foldl A.op (.scalar 1)) = 0) ∧
      ((¬ LinearIndependent K fun i : Fin vs.length => A.components vs[i]) →
        A.norm2 (vs.foldl A.op (.scalar 1)) = 0) := by
  have hT := lawful_of_ofConfig h
  have hgram := norm2_foldl_op hT hvs
  have hdependent := det_gram_eq_zero hT hvs
  refine ⟨hgram, fun hlength => ?_, fun hdep => hgram.trans (hdependent hdep)⟩
  refine hgram.trans (hdependent fun hindependent => ?_)
  -- there are no more independent vectors than components
  have hcard := hindependent.fintype_card_le_finrank
  rw [Fintype.card_fin, Module.finrank_fin_fun] at hcard
  omega

/-- Two vectors, four of them, and three of which the last is the sum of the others; the metric has
    squares of both signs, and the vectors are stored out of order. -/
theorem gram_turnedSpace :
    ofConfig (.hyperbolicSpace (some Config.turnedBlades)) = .ok turnedSpace ∧
      let u := turnedSpace.vector #[1, 2, 0]
      let v := turnedSpace.vector #[0, 1, 3]
      let w := turnedSpace.vector #[1, 3, 3]
      turnedSpace.IsVector u ∧ turnedSpace.IsVector v ∧ turnedSpace.IsVector w ∧
        turnedSpace.norm2 ([u, v].foldl turnedSpace.op (.scalar 1)) =
          (Matrix.of fun i j : Fin [u, v].length => turnedSpace.sp [u, v][i] [u, v][j]).det ∧
        turnedSpace.norm2 ([u, v].foldl turnedSpace.op (.scalar 1)) = 9 * (-7) - 4 * 4 ∧
        turnedSpace.dimension < [u, v, u, v].length ∧
        turnedSpace.norm2 ([u, v, u, v].foldl turnedSpace.op (.scalar 1)) = 0 ∧
        (¬ LinearIndependent ℚ fun i : Fin [u, v, w].length =>
          turnedSpace.components [u, v, w][i]) ∧
        turnedSpace.norm2 ([u, v, w].foldl turnedSpace.op (.scalar 1)) = 0 := by
  have hA := ofConfig_turnedSpace
  have hvector := isVector_vector (lawful_of_ofConfig hA) (dimension_pos_of_ofConfig hA)
  have hvectors : ∀ cs : List (Coordinates ℚ), ∀ v ∈ cs.map turnedSpace.vector,
      turnedSpace.IsVector v := by
    intro cs v hv
    obtain ⟨c, -, rfl⟩ := List.mem_map.mp hv
    exact hvector c
  have htwo := gram_of_ofConfig hA (hvectors [#[1, 2, 0], #[0, 1, 3]])
  have hfour := gram_of_ofConfig hA (hvectors [#[1, 2, 0], #[0, 1, 3], #[1, 2, 0], #[0, 1, 3]])
  have hthree := gram_of_ofConfig hA (hvectors [#[1, 2, 0], #[0, 1, 3], #[1, 3, 3]])
  have hdep : ¬ LinearIndependent ℚ fun i : Fin 3 => turnedSpace.components
      [turnedSpace.vector #[1, 2, 0], turnedSpace.vector #[0, 1, 3],
        turnedSpace.vector #[1, 3, 3]][i] :=
    Fintype.not_linearIndependent_iff.mpr ⟨![1, 1, -1], by decide +kernel, 0, by decide⟩
  exact ⟨hA, hvector _, hvector _, hvector _, htwo.1, by decide +kernel, by decide +kernel,
    hfour.2.1 (by decide +kernel), hdep, hthree.2.2 hdep⟩

end Clifford

end GeometricAlgebra
