/-
  GeometricAlgebra.Proofs.Multivector.VersorOutermorphism

  Versors as outermorphisms, in exact arithmetic.  A versor and its inverse on both sides respect
  the geometric product and keep every grade, so they respect every product that is cut out of it
  by grades, the outer product among them: the images of the basis vectors say it all.

    * `Clifford.IsVersor.agree_applyVersor_product`: a versor respects every product.
    * `Clifford.IsVersor.agree_applyOutermorphism`: the outermorphism of its images is the versor.
-/

import GeometricAlgebra.Proofs.Blade.Automorphism
import GeometricAlgebra.Proofs.Multivector.Vectors

namespace GeometricAlgebra.Clifford

/-- The images of the basis vectors under a versor. -/
def versorImages {α : Type} [Scalar α] (A : Clifford α) (V : Multivector α) :
    Array (Multivector α) :=
  ((List.range A.dimension).map fun i => A.applyVersor V (A.basisVector i)).toArray

variable {K : Type} [Field K] [LinearOrder K] {A : Clifford K} {R R' : BladeRule K}
  {x y V : Multivector K} {vs : List (Multivector K)} {f : Outermorphism K}

@[simp] theorem recast_value (x : Multivector K) :
    (BladeSum.recast (value R A x) : BladeSum R') = value R' A x := by
  ext b
  rw [BladeSum.recast_apply, value_apply, value_apply]

/-- The factors of a product are those of the geometric product, selected by grades. -/
theorem twist_eq_select (A : Clifford K) (kind : ProductKind) :
    A.twist kind = A.geometricRule.select kind.accepts := by
  funext a b
  rw [twist, BladeRule.select, geometricRule_factor]

theorem size_versorImages (A : Clifford K) (V : Multivector K) :
    (A.versorImages V).size = A.dimension := by
  simp [versorImages]

section Exact

variable [IsStrictOrderedRing K] (hT : A.table.Lawful) (hV : A.IsVersor V) (hn : A.norm2 V ≠ 0)

omit [IsStrictOrderedRing K] in
theorem wellFormed_of_mem_versorImages (hT : A.table.Lawful) :
    ∀ v ∈ A.versorImages V, v.WellFormed A := by
  intro v hv
  obtain ⟨i, -, rfl⟩ := List.mem_map.mp (List.mem_toArray.mp hv)
  exact wellFormed_applyVersor hT V _

/-! ## Conjugation by a versor -/

/-- A versor and its inverse on both sides of a sum. -/
noncomputable def IsVersor.conjugation : BladeSum A.geometricRule →ₐ[K] BladeSum A.geometricRule :=
  BladeSum.conjugation (hV.mul_inverse hT hn) (hV.inverse_mul hT hn)

theorem IsVersor.keepsGrades_conjugation : BladeSum.KeepsGrades (hV.conjugation hT hn) :=
  BladeSum.keepsGrades_conjugation _ _ hV.isVersor_value (value_versorInverse hV.wellFormed)

theorem IsVersor.conjugation_value (hx : x.WellFormed A) :
    hV.conjugation hT hn (value A.geometricRule A x) =
      value A.geometricRule A (A.applyVersor V x) :=
  (hV.value_applyVersor hT hx).symm

include hT hV hn

/-- A versor respects every product. -/
theorem IsVersor.agree_applyVersor_product (kind : ProductKind) (hx : x.WellFormed A)
    (hy : y.WellFormed A) : A.Agree (A.applyVersor V (A.product kind x y))
      (A.product kind (A.applyVersor V x) (A.applyVersor V y)) := by
  have hVx := wellFormed_applyVersor hT V x
  have hVy := wellFormed_applyVersor hT V y
  have hxy := wellFormed_product hT kind x y
  have hgrades := hV.keepsGrades_conjugation hT hn
  rw [agree_iff (R := A.geometricRule), ← hV.conjugation_value hT hn hxy,
    value_product hT kind hx hy, twist_eq_select, hgrades.map_convolve,
    hV.conjugation_value hT hn hx, hV.conjugation_value hT hn hy, ← twist_eq_select,
    value_product hT kind hVx hVy]

omit hn in
/-- The image of a vector is a vector. -/
theorem IsVersor.isVector_applyVersor (hx : A.IsVector x) : A.IsVector (A.applyVersor V x) where
  wellFormed := wellFormed_applyVersor hT V x
  coordinate_eq_zero := by
    refine (hasGrades_value_iff (R := A.geometricRule) (p := (· = 1))).mp ?_
    rw [hV.value_applyVersor hT hx.wellFormed, value_versorInverse hV.wellFormed, mul_smul_comm]
    intro b hb
    exact hV.isVersor_value.hasGrades_sandwich hx.isVector_value b (right_ne_zero_of_mul hb)

/-! ## The outermorphism of a versor -/

theorem IsVersor.vectorImage_versorImages {i : Nat} (hi : i < A.dimension) :
    A.vectorImage (A.versorImages V) i =
      BladeSum.recast (hV.conjugation hT hn (.single (Blade.ofVector i) 1)) := by
  have hbasis := isVector_basisVector hT hi
  have himage : (A.versorImages V)[i]? = some (A.applyVersor V (A.basisVector i)) := by
    simp [versorImages, hi]
  rw [vectorImage_eq himage (hV.isVector_applyVersor hT hbasis), ← value_basisVector hT hi,
    hV.conjugation_value hT hn hbasis.wellFormed, recast_value]

/-- The outermorphism of the images of the basis vectors under a versor is the versor. -/
theorem IsVersor.agree_applyOutermorphism
    (hf : A.outermorphismOfImages (A.versorImages V) = .ok f) (hx : x.WellFormed A) :
    A.Agree (A.applyOutermorphism f x) (A.applyVersor V x) := by
  have himages := wellFormed_of_mem_versorImages (V := V) hT
  have hgrades := hV.keepsGrades_conjugation hT hn
  have hselect : A.outerRule.factor = A.geometricRule.select ProductKind.outer.accepts :=
    twist_eq_select A .outer
  have hextend := hgrades.recast_eq_extend (isExterior_outerRule A) hselect
    (value A.geometricRule A x)
  rw [hV.conjugation_value hT hn hx, recast_value, recast_value] at hextend
  rw [agree_iff (R := A.outerRule), value_applyOutermorphism hT himages hf hx, hextend]
  exact BladeSum.extend_ascending_congr (fun b hb => lt_of_value_ne_zero hb) fun i hi =>
    hV.vectorImage_versorImages hT hn hi

end Exact

/-- In exact arithmetic, in every accepted algebra, the images of the basis vectors under a product
    of vectors with a squared norm that is not zero give an outermorphism, and it agrees with the
    versor on every multivector. -/
theorem versorOutermorphism_of_ofConfig [IsStrictOrderedRing K] {c : Config K}
    (h : ofConfig c = .ok A) (hvs : ∀ v ∈ vs, A.IsVector v) (hV : ProductOf A vs V)
    (hn : A.norm2 V ≠ 0) :
    ∃ f, A.outermorphismOfImages (A.versorImages V) = .ok f ∧
      ∀ x : Multivector K, x.WellFormed A →
        A.Agree (A.applyOutermorphism f x) (A.applyVersor V x) := by
  have hT := lawful_of_ofConfig h
  have hversor := hV.isVersor hT hvs
  obtain ⟨f, hf⟩ := exists_outermorphismOfImages (size_versorImages A V)
  exact ⟨f, hf, fun x hx => hversor.agree_applyOutermorphism hT hn hf hx⟩

/-- A product of two vectors of a degenerate plane moves all blades as it moves the vectors. -/
theorem versorOutermorphism_degeneratePlane :
    ofConfig Config.degeneratePlane = .ok degeneratePlane ∧
      let v := degeneratePlane.vector #[1, 2, 0]
      let V := degeneratePlane.gp v (degeneratePlane.vector #[0, 1, 2])
      let x := degeneratePlane.gp v (degeneratePlane.vector #[3, 1])
      degeneratePlane.norm2 V ≠ 0 ∧
        ∃ f, degeneratePlane.outermorphismOfImages (degeneratePlane.versorImages V) = .ok f ∧
          degeneratePlane.Agree (degeneratePlane.applyOutermorphism f x)
            (degeneratePlane.applyVersor V x) := by
  have hA := ofConfig_degeneratePlane
  have hT := lawful_of_ofConfig hA
  have hvector := isVector_vector hT (dimension_pos_of_ofConfig hA)
  have hvs : ∀ u ∈ [degeneratePlane.vector #[1, 2, 0], degeneratePlane.vector #[0, 1, 2]],
      degeneratePlane.IsVector u := by
    simp [hvector]
  have hV := productOf_foldl_cons degeneratePlane (degeneratePlane.vector #[1, 2, 0])
    [degeneratePlane.vector #[0, 1, 2]]
  have hn : degeneratePlane.norm2 (degeneratePlane.gp (degeneratePlane.vector #[1, 2, 0])
      (degeneratePlane.vector #[0, 1, 2])) ≠ 0 := by decide +kernel
  obtain ⟨f, hf, hagree⟩ := versorOutermorphism_of_ofConfig hA hvs hV hn
  exact ⟨hA, hn, f, hf, hagree _ (wellFormed_gp hT _ _)⟩

end GeometricAlgebra.Clifford
