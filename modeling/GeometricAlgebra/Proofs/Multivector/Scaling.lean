/-
  GeometricAlgebra.Proofs.Multivector.Scaling

  Multiples as products with a scalar, in exact arithmetic.  A multiple is made without the product
  tables and compressed under the grades of its operand, a product under all grades; both store
  exactly the groups that are not zero, so that equal values make them equal.

    * `Clifford.gp_scalar`, `scalar_gp`: products with a scalar.
    * `Clifford.product_scale_left`, `product_scale_right`: products of multiples.
    * `Clifford.scaling_of_ofConfig`: the laws for every accepted algebra.
-/

import GeometricAlgebra.Proofs.Multivector.NaiveProduct
import GeometricAlgebra.Proofs.Multivector.Value

namespace GeometricAlgebra.Clifford

variable {K : Type} [Field K] [LinearOrder K] [IsStrictOrderedRing K] {A : Clifford K}
  {x y : Multivector K}

section Lawful

variable (hT : A.table.Lawful)
include hT

/-! ## Products with a scalar -/

theorem gp_scalar (hx : x.WellFormed A) (s : K) : A.gp x (.scalar s) = A.scale x s := by
  have hscalar : (Multivector.scalar s).WellFormed A := Multivector.wellFormed_scalar hT s
  apply (reduced_gp hT x (.scalar s)).ext_value (R := A.geometricRule) hT (reduced_scale hT hx s)
    (wellFormed_gp hT x (.scalar s)) (wellFormed_scale hT hx s)
  rw [value_gp hT hx hscalar, value_scalar hT, value_scale hT hx, mul_smul_comm, mul_one]

theorem scalar_gp (hx : x.WellFormed A) (s : K) : A.gp (.scalar s) x = A.scale x s := by
  have hscalar : (Multivector.scalar s).WellFormed A := Multivector.wellFormed_scalar hT s
  apply (reduced_gp hT (.scalar s) x).ext_value (R := A.geometricRule) hT (reduced_scale hT hx s)
    (wellFormed_gp hT (.scalar s) x) (wellFormed_scale hT hx s)
  rw [value_gp hT hscalar hx, value_scalar hT, value_scale hT hx, smul_mul_assoc, one_mul]

/-! ## Products of multiples -/

/-- A product with the entries of a multiple of another product is that multiple. -/
theorem product_eq_scale {kind : ProductKind} {x' y' : Multivector K} {s : K}
    (h : ∀ r < 2 ^ A.table.dimension,
      A.entry (A.product kind x' y') r = A.entry (A.product kind x y) r * s) :
    A.product kind x' y' = A.scale (A.product kind x y) s := by
  have hproduct := wellFormed_product hT kind x y
  apply (reduced_product hT kind x' y').ext hT (reduced_scale hT hproduct s)
    (wellFormed_product hT kind x' y') (wellFormed_scale hT hproduct s)
  intro r hr
  rw [h r hr, entry_scale hT hproduct s hr]

theorem product_scale_left (kind : ProductKind) (hx : x.WellFormed A) (hy : y.WellFormed A)
    (s : K) : A.product kind (A.scale x s) y = A.scale (A.product kind x y) s :=
  product_eq_scale hT fun _ hr => entry_product_scale_left hT hx hy s hr

theorem product_scale_right (kind : ProductKind) (hx : x.WellFormed A) (hy : y.WellFormed A)
    (s : K) : A.product kind x (A.scale y s) = A.scale (A.product kind x y) s :=
  product_eq_scale hT fun _ hr => entry_product_scale_right hT hx hy s hr

end Lawful

/-- For every accepted algebra: a multiple is the geometric product with the scalar from either
    side, and in every product either operand or the result can be multiplied; the same groups are
    stored, also where the scalar is zero or a stored group was. -/
theorem scaling_of_ofConfig {c : Config K} (h : ofConfig c = .ok A) (hx : x.WellFormed A) (s : K) :
    A.gp x (.scalar s) = A.scale x s ∧
    A.gp (.scalar s) x = A.scale x s ∧
    ∀ (kind : ProductKind) (y : Multivector K), y.WellFormed A →
      A.product kind (A.scale x s) y = A.scale (A.product kind x y) s ∧
      A.product kind x (A.scale y s) = A.scale (A.product kind x y) s := by
  have hT := lawful_of_ofConfig h
  refine ⟨gp_scalar hT hx s, scalar_gp hT hx s, ?_⟩
  intro kind y hy
  exact ⟨product_scale_left hT kind hx hy s, product_scale_right hT kind hx hy s⟩

/-- A stored group of zeros is dropped by the multiple and by the products with the scalar, and all
    groups if the scalar is zero; a contraction of a multiple with the turned bivector. -/
theorem scaling_degeneratePlane : ofConfig Config.degeneratePlane = .ok degeneratePlane ∧
    let x : Multivector ℚ := ⟨3, #[0, 1, 0, 2]⟩
    let y : Multivector ℚ := ⟨4, #[3, 0, 1]⟩
    x.WellFormed degeneratePlane ∧ y.WellFormed degeneratePlane ∧
      degeneratePlane.gp x (.scalar (1 / 2)) = degeneratePlane.scale x (1 / 2) ∧
      degeneratePlane.gp (.scalar (1 / 2)) x = degeneratePlane.scale x (1 / 2) ∧
      degeneratePlane.scale x (1 / 2) = ⟨2, #[1 / 2, 0, 1]⟩ ∧
      degeneratePlane.gp x (.scalar 0) = degeneratePlane.scale x 0 ∧
      degeneratePlane.scale x 0 = .zero ∧
      degeneratePlane.lc (degeneratePlane.scale x (1 / 2)) y =
        degeneratePlane.scale (degeneratePlane.lc x y) (1 / 2) ∧
      degeneratePlane.lc x (degeneratePlane.scale y (1 / 2)) =
        degeneratePlane.scale (degeneratePlane.lc x y) (1 / 2) ∧
      degeneratePlane.lc x y = ⟨2, #[-2, 0, 0]⟩ := by
  have hA := ofConfig_degeneratePlane
  have hx : Multivector.WellFormed degeneratePlane ⟨3, #[0, 1, 0, 2]⟩ := by decide +kernel
  have hy : Multivector.WellFormed degeneratePlane ⟨4, #[3, 0, 1]⟩ := by decide +kernel
  obtain ⟨hright, hleft, hproduct⟩ := scaling_of_ofConfig hA hx (1 / 2)
  obtain ⟨hscaleLeft, hscaleRight⟩ := hproduct .leftContraction _ hy
  exact ⟨hA, hx, hy, hright, hleft, by decide +kernel, (scaling_of_ofConfig hA hx 0).1,
    by decide +kernel, hscaleLeft, hscaleRight, by decide +kernel⟩

end GeometricAlgebra.Clifford
