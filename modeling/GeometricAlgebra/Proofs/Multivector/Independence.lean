/-
  GeometricAlgebra.Proofs.Multivector.Independence

  The outer product as a test of linear dependence, in exact arithmetic and for every metric.  The
  coefficients of a product of vectors are minors of their components, so it vanishes for dependent
  vectors; and its Gram determinant over vectors of square one vanishes only for those.

    * `BladeSum.HasGrades.mul_comm`: two factors of one grade each, in the opposite order.
    * `Clifford.prod_eq_zero_iff`: when a product of vectors vanishes.
    * `Clifford.foldl_op_eq_zero_iff`: when a wedge of vectors stores no group.
    * `Clifford.outerProduct_of_ofConfig`: both, in every accepted algebra.
-/

import GeometricAlgebra.Proofs.Multivector.Minors

namespace GeometricAlgebra

/-! ## The opposite order -/

theorem Sign.toScalar_ofSwaps {K : Type} [Field K] [LinearOrder K] (k : Nat) :
    ((Sign.ofSwaps k).toScalar : K) = (-1) ^ k := by
  unfold Sign.ofSwaps
  rcases Nat.mod_two_eq_zero_or_one k with hk | hk
  · rw [if_pos hk, (Nat.even_iff.mpr hk).neg_one_pow, Sign.toScalar_plus]
  · rw [if_neg (by omega), (Nat.odd_iff.mpr hk).neg_one_pow, Sign.toScalar_minus]

namespace BladeSum

open Blade (grade vectors)

variable {K : Type} [Field K] [LinearOrder K] {R : BladeRule K} {x y : BladeSum R}

theorem convolve_const_mul (s : K) (f : Blade → Blade → K) (x y : BladeSum R) :
    convolve (fun a b => s * f a b) x y = s • convolve f x y := by
  have hs : ∀ b, x b ≠ 0 → b ∈ Finsupp.support x := fun b hb => Finsupp.mem_support_iff.mpr hb
  ext d
  rw [smul_apply, convolve_apply hs, convolve_apply hs, Finset.mul_sum]
  exact Finset.sum_congr rfl fun a _ => by ring

/-- Every vector of one blade passes every vector of the other. -/
theorem factor_comm (hR : R.IsExterior) (a b : Nat) :
    R.factor a b = (-1) ^ (grade a * grade b) * R.factor b a := by
  by_cases hab : a &&& b = 0
  · have hba : b &&& a = 0 := Nat.and_comm a b ▸ hab
    rw [hR.factor_of_disjoint a b hab, hR.factor_of_disjoint b a hba, Blade.reorderingSign_comm,
      hab, Blade.grade_zero, Nat.add_zero, Sign.toScalar_mul, Sign.toScalar_ofSwaps]
  · have hba : b &&& a ≠ 0 := fun h => hab (Nat.and_comm b a ▸ h)
    rw [hR.factor_of_shared a b hab, hR.factor_of_shared b a hba, mul_zero]

/-- Two factors of one grade each, in the opposite order. -/
theorem HasGrades.mul_comm (hR : R.IsExterior) {r s : Nat} (hx : HasGrades (· = r) x)
    (hy : HasGrades (· = s) y) : x * y = (-1 : K) ^ (r * s) • (y * x) := by
  have hfactor : ∀ a b : Nat, x a ≠ 0 → y b ≠ 0 →
      R.factor a b = (-1) ^ (r * s) * R.factor b a := by
    intro a b ha hb
    rw [factor_comm hR, hx a ha, hy b hb]
  rw [mul_def, mul_def, convolve_congr hfactor, convolve_const_mul, convolve_flip]

end BladeSum

namespace Clifford

open Blade (grade ofVector vectors)

variable {K : Type} [Field K] [LinearOrder K] [IsStrictOrderedRing K] {A : Clifford K}
  {R : BladeRule K}

/-! ## Products of vectors that vanish -/

section Sums

variable {k : Nat} {u : Fin k → BladeSum R}

/-- With vectors of square one, only zero is orthogonal to itself. -/
theorem eq_zero_of_pairing_orthonormal {w : BladeSum R} (hw : w.IsVector)
    (h : A.orthonormal.pairing w w = 0) : w = 0 := by
  have hs : ∀ b, w b ≠ 0 → b ∈ Finsupp.support w := fun b hb => Finsupp.mem_support_iff.mpr hb
  have hsquares : ∑ b ∈ Finsupp.support w, w b * w b = 0 := by
    rw [pairing_eq_sum hs] at h
    refine Eq.trans (Finset.sum_congr rfl fun b hb => ?_) h
    have hgrade : grade b = 1 := hw b (Finsupp.mem_support_iff.mp hb)
    rw [coefficient_orthonormal, hgrade, mul_assoc]
    exact (one_mul _).symm
  ext b
  by_contra hb
  have hzero := (Finset.sum_eq_zero_iff_of_nonneg fun b _ => mul_self_nonneg (w b)).mp hsquares
  exact hb (mul_self_eq_zero.mp (hzero b (hs b hb)))

variable (A) (hR : R.IsExterior) (hu : ∀ j, (u j).IsVector)
include A hR hu

/-- Vectors with a product of zero satisfy a linear relation: their Gram determinant is zero. -/
theorem not_linearIndependent_of_prod_eq_zero (h : (List.ofFn u).prod = 0) :
    ¬ LinearIndependent K u := by
  let M : Matrix (Fin k) (Fin k) K := .of fun i j => A.orthonormal.pairing (u i) (u j)
  have hdet : M.det = 0 := by rw [← pairing_prod hR hu hu, h, pairing_zero_right]
  obtain ⟨g, hg, hgM⟩ := Matrix.exists_vecMul_eq_zero_iff.mpr hdet
  obtain ⟨i, hi⟩ := Function.ne_iff.mp hg
  refine Fintype.not_linearIndependent_iff.mpr ⟨g, ?_, i, hi⟩
  -- the combination that the relation of the rows gives is orthogonal to every vector
  have horthogonal : ∀ j, A.orthonormal.pairing (u j) (∑ i, g i • u i) = 0 := by
    intro j
    rw [pairing_sum_smul]
    refine Eq.trans (Finset.sum_congr rfl fun i _ => ?_) (congrFun hgM j)
    rw [pairing_comm]
    rfl
  have hvector : (∑ i, g i • u i).IsVector := by
    intro b hb
    rw [BladeSum.sum_apply] at hb
    obtain ⟨i, -, hi⟩ := Finset.exists_ne_zero_of_sum_ne_zero hb
    exact hu i b (right_ne_zero_of_mul hi)
  refine eq_zero_of_pairing_orthonormal (A := A) hvector ?_
  rw [pairing_sum_smul]
  refine Finset.sum_eq_zero fun j _ => ?_
  rw [pairing_comm, horthogonal, mul_zero]

omit [IsStrictOrderedRing K] in
/-- A linear relation of vectors is one of the columns of all their minors. -/
theorem prod_eq_zero_of_not_linearIndependent (h : ¬ LinearIndependent K u) :
    (List.ofFn u).prod = 0 := by
  obtain ⟨g, hg, i, hi⟩ := Fintype.not_linearIndependent_iff.mp h
  ext b
  rw [BladeSum.zero_apply]
  by_contra hb
  have hgrade : grade b = k := by
    rw [BladeSum.hasGrades_prod hR (List.forall_mem_ofFn_iff.mpr hu) b hb, List.length_ofFn]
  have hrows : (List.ofFn fun i : Fin k => (vectors b).getD i 0) = vectors b :=
    ofFn_getD ((Blade.length_vectors b).trans hgrade) 0
  have hminor := toScalar_mul_prod_apply hR A ((congrArg _ hrows).trans (Blade.wedge?_vectors b)) hu
  rw [Sign.toScalar_plus, one_mul] at hminor
  refine hb (hminor.trans (Matrix.exists_mulVec_eq_zero_iff.mp ⟨g, fun h => hi (congrFun h i), ?_⟩))
  funext r
  have hrelation := congrArg (fun w : BladeSum R => w (ofVector ((vectors b).getD r 0))) hg
  simp only [BladeSum.sum_apply, BladeSum.smul_apply, BladeSum.zero_apply] at hrelation
  exact (Finset.sum_congr rfl fun j _ => mul_comm _ _).trans hrelation

/-- A product of vectors is zero if they are dependent, and only then. -/
theorem prod_eq_zero_iff : (List.ofFn u).prod = 0 ↔ ¬ LinearIndependent K u :=
  ⟨not_linearIndependent_of_prod_eq_zero A hR hu, prod_eq_zero_of_not_linearIndependent A hR hu⟩

end Sums

/-! ## Wedges that store no group -/

section Wedges

variable {x y : Multivector K} {vs : List (Multivector K)} (hT : A.table.Lawful)
include hT

omit [IsStrictOrderedRing K] in
/-- The components of vectors satisfy what their values do. -/
theorem linearIndependent_value_iff {ι : Type} [Fintype ι] {v : ι → Multivector K}
    (hv : ∀ i, A.IsVector (v i)) : LinearIndependent K (fun i => value R A (v i)) ↔
      LinearIndependent K fun i => A.components (v i) := by
  rw [Fintype.linearIndependent_iff, Fintype.linearIndependent_iff]
  refine forall_congr' fun g => imp_congr_left ⟨fun h => ?_, sum_smul_value hT hv⟩
  funext j
  have hcoefficient := congrArg (fun w : BladeSum R => w (ofVector j)) h
  simp only [BladeSum.sum_apply, BladeSum.smul_apply, BladeSum.zero_apply] at hcoefficient
  rw [Finset.sum_apply]
  refine Eq.trans (Finset.sum_congr rfl fun i _ => ?_) hcoefficient
  rw [value_apply_of_lt (Blade.ofVector_lt j.isLt), coefficient_ofVector hT _ j.isLt]
  rfl

/-- Exchanging factors of one grade each multiplies every coordinate by the sign of the exchange. -/
theorem coordinate_op_comm {r s : Nat} (hx : x.WellFormed A) (hy : y.WellFormed A)
    (hr : ∀ b < 2 ^ A.dimension, grade b ≠ r → A.coordinate x b = 0)
    (hs : ∀ b < 2 ^ A.dimension, grade b ≠ s → A.coordinate y b = 0) {b : Nat}
    (hb : b < 2 ^ A.dimension) :
    A.coordinate (A.op x y) b = (-1) ^ (r * s) * A.coordinate (A.op y x) b := by
  have hxgrades : (value A.outerRule A x).HasGrades (· = r) := hasGrades_value_iff.mpr hr
  have hygrades : (value A.outerRule A y).HasGrades (· = s) := hasGrades_value_iff.mpr hs
  have hcomm := hxgrades.mul_comm (isExterior_outerRule A) hygrades
  rw [← value_op hT hx hy, ← value_op hT hy hx] at hcomm
  have hcoefficient := congrArg (fun w : BladeSum A.outerRule => w b) hcomm
  simp only [BladeSum.smul_apply, value_apply_of_lt hb, coefficient] at hcoefficient
  -- the orientation of the stored blade is the same on both sides
  refine mul_left_cancel₀ (Sign.toScalar_ne_zero (A.table.signOf b)) ?_
  rw [hcoefficient, mul_left_comm]

theorem reduced_foldl_op (hx : A.Reduced x) : A.Reduced (vs.foldl A.op x) := by
  induction vs generalizing x with
  | nil => exact hx
  | cons v vs ih => exact ih (reduced_product hT .outer x v)

variable (hvs : ∀ v ∈ vs, A.IsVector v)
include hvs

theorem value_wedge : (vs.foldl A.op (.scalar 1)).WellFormed A ∧
    value A.outerRule A (vs.foldl A.op (.scalar 1)) = (vs.map (value A.outerRule A)).prod := by
  obtain ⟨hwf, hvalue⟩ := value_foldl_op hT (fun v hv => (hvs v hv).wellFormed)
    (Multivector.wellFormed_scalar hT 1)
  rw [value_scalar hT, one_smul, one_mul] at hvalue
  exact ⟨hwf, hvalue⟩

theorem foldl_op_eq_zero_iff_value : vs.foldl A.op (.scalar 1) = .zero ↔
    (vs.map (value A.outerRule A)).prod = 0 := by
  obtain ⟨hwf, hvalue⟩ := value_wedge hT hvs
  rw [← hvalue]
  exact ⟨fun h => by rw [h, value_zero],
    (reduced_foldl_op hT (reduced_scalar hT one_ne_zero)).eq_zero hT hwf⟩

/-- A wedge of vectors stores no group if they are dependent, and only then. -/
theorem foldl_op_eq_zero_iff : vs.foldl A.op (.scalar 1) = .zero ↔
    ¬ LinearIndependent K fun i : Fin vs.length => A.components (vs.get i) := by
  have hvector : ∀ i : Fin vs.length, A.IsVector (vs.get i) := fun i =>
    hvs _ (List.get_mem vs i)
  have hfactors : (List.ofFn fun i : Fin vs.length => value A.outerRule A (vs.get i)) =
      vs.map (value A.outerRule A) := List.ofFn_getElem_eq_map vs _
  rw [foldl_op_eq_zero_iff_value hT hvs, ← hfactors,
    ← linearIndependent_value_iff (R := A.outerRule) hT hvector]
  exact prod_eq_zero_iff A (isExterior_outerRule A) fun i => (hvector i).isVector_value

/-- No blade has more vectors than the dimension. -/
theorem foldl_op_eq_zero_of_length (h : A.dimension < vs.length) :
    vs.foldl A.op (.scalar 1) = .zero := by
  have hgrades := BladeSum.hasGrades_prod (isExterior_outerRule A) (isVector_of_mem_map hvs)
  rw [List.length_map, ← (value_wedge hT hvs).2] at hgrades
  rw [foldl_op_eq_zero_iff_value hT hvs, ← (value_wedge hT hvs).2]
  ext b
  by_contra hb
  have hle := Blade.grade_le (lt_of_value_ne_zero hb)
  have hgrade : grade b = vs.length := hgrades b hb
  omega

/-- A blade that has vectors, wedged with itself, has each of them twice. -/
theorem op_self_eq_zero (hne : vs ≠ []) (hx : x.WellFormed A)
    (h : A.Agree x (vs.foldl A.op (.scalar 1))) : A.op x x = .zero := by
  have htwice : ∀ v ∈ vs ++ vs, A.IsVector v := List.forall_mem_append.mpr ⟨hvs, hvs⟩
  have hrepeated : (vs ++ vs).foldl A.op (.scalar 1) = .zero := by
    refine (foldl_op_eq_zero_iff hT htwice).mpr fun hindependent => ?_
    have hpos : 0 < vs.length := List.length_pos_iff.mpr hne
    have hlength : (vs ++ vs).length = vs.length + vs.length := List.length_append
    have hindex : (⟨0, by omega⟩ : Fin (vs ++ vs).length) = ⟨vs.length, by omega⟩ :=
      hindependent.injective (congrArg A.components (by simp [List.getElem_append_left hpos]))
    exact hpos.ne (Fin.mk.inj hindex)
  have hsquare := (value_wedge hT htwice).2
  rw [hrepeated, value_zero, List.map_append, List.prod_append, ← (value_wedge hT hvs).2,
    ← agree_iff.mp h, ← value_op hT hx hx] at hsquare
  exact (reduced_product hT .outer x x).eq_zero hT (wellFormed_op hT x x) hsquare.symm

end Wedges

/-- In exact arithmetic, in every accepted algebra, whatever its metric.  If one operand has only
    coordinates of grade `r` and the other only of grade `s`, the outer product changes by the sign
    `(-1) ^ (r * s)` when they change places.  The outer product of a list of vectors stores no
    group if and only if the vectors are linearly dependent; so it stores none for more vectors than
    the dimension, and a blade that has vectors has no outer product with itself. -/
theorem outerProduct_of_ofConfig {c : Config K} (h : ofConfig c = .ok A) :
    (∀ r s : Nat, ∀ x y : Multivector K, x.WellFormed A → y.WellFormed A →
        (∀ b < 2 ^ A.dimension, grade b ≠ r → A.coordinate x b = 0) →
        (∀ b < 2 ^ A.dimension, grade b ≠ s → A.coordinate y b = 0) →
          ∀ b < 2 ^ A.dimension,
            A.coordinate (A.op x y) b = (-1) ^ (r * s) * A.coordinate (A.op y x) b) ∧
      ∀ vs : List (Multivector K), (∀ v ∈ vs, A.IsVector v) →
        (vs.foldl A.op (.scalar 1) = .zero ↔
          ¬ LinearIndependent K fun i : Fin vs.length => A.components (vs.get i)) ∧
        (A.dimension < vs.length → vs.foldl A.op (.scalar 1) = .zero) ∧
        (vs ≠ [] → ∀ B : Multivector K, B.WellFormed A →
          A.Agree B (vs.foldl A.op (.scalar 1)) → A.op B B = .zero) := by
  have hT := lawful_of_ofConfig h
  refine ⟨fun r s x y hx hy hr hs b hb => coordinate_op_comm hT hx hy hr hs hb, fun vs hvs => ?_⟩
  exact ⟨foldl_op_eq_zero_iff hT hvs, foldl_op_eq_zero_of_length hT hvs,
    fun hne B hB hagree => op_self_eq_zero hT hvs hne hB hagree⟩

/-- Two vectors, their sum, and four vectors of a space of dimension three; a blade of two vectors
    that also stores a scalar, which is zero. -/
theorem outerProduct_turnedSpace :
    ofConfig (.hyperbolicSpace (some Config.turnedBlades)) = .ok turnedSpace ∧
      let u := turnedSpace.vector #[1, 2, 0]
      let v := turnedSpace.vector #[0, 1, 3]
      let w := turnedSpace.vector #[1, 3, 3]
      let B : Multivector ℚ := ⟨5, #[0, -1, -3, -6]⟩
      turnedSpace.IsVector u ∧ turnedSpace.IsVector v ∧ turnedSpace.IsVector w ∧
        (∀ b < 2 ^ turnedSpace.dimension, turnedSpace.coordinate (turnedSpace.op u v) b =
          (-1) ^ (1 * 1) * turnedSpace.coordinate (turnedSpace.op v u) b) ∧
        turnedSpace.op u v ≠ .zero ∧
        (LinearIndependent ℚ fun i : Fin [u, v].length => turnedSpace.components ([u, v].get i)) ∧
        (¬ LinearIndependent ℚ fun i : Fin [u, v, w].length =>
          turnedSpace.components ([u, v, w].get i)) ∧
        [u, v, w].foldl turnedSpace.op (.scalar 1) = .zero ∧
        turnedSpace.dimension < [u, v, u, v].length ∧
        [u, v, u, v].foldl turnedSpace.op (.scalar 1) = .zero ∧
        B.WellFormed turnedSpace ∧
        turnedSpace.Agree B ([u, v].foldl turnedSpace.op (.scalar 1)) ∧
        turnedSpace.op B B = .zero := by
  have hA := ofConfig_turnedSpace
  have hvector := isVector_vector (lawful_of_ofConfig hA) (dimension_pos_of_ofConfig hA)
  have hvectors : ∀ cs : List (Coordinates ℚ), ∀ v ∈ cs.map turnedSpace.vector,
      turnedSpace.IsVector v := by
    intro cs v hv
    obtain ⟨c, -, rfl⟩ := List.mem_map.mp hv
    exact hvector c
  obtain ⟨hcomm, hwedge⟩ := outerProduct_of_ofConfig hA
  have hu := hvector #[1, 2, 0]
  have hv := hvector #[0, 1, 3]
  obtain ⟨htwo, -, hself⟩ := hwedge _ (hvectors [#[1, 2, 0], #[0, 1, 3]])
  obtain ⟨hthree, -⟩ := hwedge _ (hvectors [#[1, 2, 0], #[0, 1, 3], #[1, 3, 3]])
  obtain ⟨-, hfour, -⟩ := hwedge _ (hvectors [#[1, 2, 0], #[0, 1, 3], #[1, 2, 0], #[0, 1, 3]])
  have hzero : [turnedSpace.vector #[1, 2, 0], turnedSpace.vector #[0, 1, 3],
      turnedSpace.vector #[1, 3, 3]].foldl turnedSpace.op (.scalar 1) = .zero := by
    decide +kernel
  have hB := wellFormed_ofCoords (show turnedSpace.ofCoords 5 #[0, -1, -3, -6] =
    .ok ⟨5, #[0, -1, -3, -6]⟩ by decide +kernel)
  have hagree : turnedSpace.Agree ⟨5, #[0, -1, -3, -6]⟩
      ([turnedSpace.vector #[1, 2, 0], turnedSpace.vector #[0, 1, 3]].foldl turnedSpace.op
        (.scalar 1)) := by
    unfold Agree
    decide +kernel
  exact ⟨hA, hu, hv, hvector _,
    hcomm 1 1 _ _ hu.wellFormed hv.wellFormed hu.coordinate_eq_zero hv.coordinate_eq_zero,
    by decide +kernel, not_not.mp (htwo.not.mp (by decide +kernel)), hthree.mp hzero, hzero,
    by decide +kernel, hfour (by decide +kernel), hB, hagree,
    hself (List.cons_ne_nil _ _) _ hB hagree⟩

end Clifford

end GeometricAlgebra
