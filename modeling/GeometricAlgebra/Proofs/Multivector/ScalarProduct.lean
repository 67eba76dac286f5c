/-
  GeometricAlgebra.Proofs.Multivector.ScalarProduct

  The scalar product and the squared norm in exact arithmetic, for every metric.  Different blades
  have no scalar product, and that of a blade with its reverse is the product of the squares of its
  vectors: the swaps that sort a blade behind itself are those that reverse it.

    * `Blade.reverseSign_mul_coefficient_self`: a blade times its reverse.
    * `Clifford.pairing`: the scalar product of sums of blades, and `pairing_comm`.
    * `Clifford.sp_eq_sum`, `norm2_eq_sum`: scalar products and norms, coordinate by coordinate.
    * `Clifford.norm2_of_ofConfig`: the squared norm is the metric sum of squares.
    * `Clifford.scalarProduct_of_ofConfig`: the scalar product is symmetric and cyclic.
-/

import GeometricAlgebra.Proofs.Multivector.Associativity
import GeometricAlgebra.Proofs.Multivector.GradeProjection
import GeometricAlgebra.Proofs.Multivector.Versor

namespace GeometricAlgebra

/-! ## A blade times its reverse -/

namespace Blade

/-- Sorting a blade behind itself takes as many swaps, up to parity, as reversing it. -/
theorem reverseSign_mul_reorderingSign_self (b : Nat) :
    reverseSign (grade b) * reorderingSign b b = .plus := by
  -- every pair of vectors is swapped once
  have hswaps := swaps_add_swaps b b
  rw [Nat.and_self] at hswaps
  have hparity : (grade b / 2 + swaps b b) % 2 = 0 := by
    generalize swaps b b = s at hswaps ⊢
    generalize grade b = g at hswaps ⊢
    obtain ⟨q, r, hr, rfl⟩ : ∃ q r, r < 4 ∧ g = 4 * q + r :=
      ⟨g / 4, g % 4, Nat.mod_lt g (by decide), (Nat.div_add_mod g 4).symm⟩
    have hsquare : (4 * q + r) * (4 * q + r) = 4 * (4 * (q * q) + 2 * (q * r)) + r * r := by ring
    rw [hsquare] at hswaps
    interval_cases r <;> omega
  rw [reverseSign_eq, reorderingSign, ← Sign.ofSwaps_add, Sign.ofSwaps, if_pos hparity]

section Coefficients

variable {K : Type} [Field K] (metric : Array K)

/-- The squares of the vectors of a blade of dimension `n`. -/
theorem metricFactor_self {n b : Nat} (hb : b < 2 ^ n) : metricFactor metric b b =
    ∏ i ∈ (Finset.range n).filter (b.testBit · = true), metric.getD i 1 := by
  rw [metricFactor_eq_prod metric hb, Finset.prod_filter]
  refine Finset.prod_congr rfl fun i _ => ?_
  rw [Bool.and_self, square]

variable [LinearOrder K]

/-- A blade times its reverse is the product of the squares of its vectors. -/
theorem reverseSign_mul_coefficient_self (b : Nat) :
    (reverseSign (grade b)).toScalar * coefficient metric b b = metricFactor metric b b := by
  rw [coefficient_eq, ← mul_assoc, ← Sign.toScalar_mul, reverseSign_mul_reorderingSign_self,
    Sign.toScalar_plus, one_mul]

end Coefficients

end Blade

namespace Clifford

variable {K : Type} [Field K] [LinearOrder K] {A : Clifford K} {R : BladeRule K}
  {x y z : Multivector K}

/-! ## Scalar products of sums -/

/-- The scalar product keeps what equal blades give. -/
theorem twist_scalar (a b : Nat) :
    A.twist .scalar a b = if a = b then Blade.coefficient A.metric a b else 0 := by
  have hequal : Blade.grade (a ^^^ b) = 0 ↔ a = b := by
    rw [Blade.grade_eq_zero, xor_eq_iff, Nat.xor_zero, eq_comm]
  simp only [twist, ProductKind.accepts, beq_iff_eq, hequal]

theorem twist_scalar_comm (a b : Nat) : A.twist .scalar a b = A.twist .scalar b a := by
  rw [twist_scalar, twist_scalar]
  by_cases hab : a = b
  · rw [hab]
  · rw [if_neg hab, if_neg (Ne.symm hab)]

/-- The scalar product of two sums of blades, under the metric of the algebra. -/
noncomputable def pairing (A : Clifford K) (x y : BladeSum R) : K :=
  Finsupp.sum x fun b s => Blade.coefficient A.metric b b * s * y b

/-- Only equal blades meet. -/
theorem convolve_scalar_apply {s : Finset Nat} {x : BladeSum R} (hs : ∀ b, x b ≠ 0 → b ∈ s)
    (y : BladeSum R) : BladeSum.convolve (A.twist .scalar) x y 0 =
      ∑ b ∈ s, Blade.coefficient A.metric b b * x b * y b := by
  rw [BladeSum.convolve_apply hs]
  refine Finset.sum_congr rfl fun b _ => ?_
  rw [Nat.xor_zero, twist_scalar, if_pos rfl]

theorem pairing_eq (x y : BladeSum R) :
    A.pairing x y = BladeSum.convolve (A.twist .scalar) x y 0 :=
  (convolve_scalar_apply (fun _ hb => Finsupp.mem_support_iff.mpr hb) y).symm

theorem pairing_eq_sum {s : Finset Nat} {x : BladeSum R} (hs : ∀ b, x b ≠ 0 → b ∈ s)
    (y : BladeSum R) :
    A.pairing x y = ∑ b ∈ s, Blade.coefficient A.metric b b * x b * y b :=
  (pairing_eq x y).trans (convolve_scalar_apply hs y)

theorem pairing_comm (x y : BladeSum R) : A.pairing x y = A.pairing y x := by
  have hflip : BladeSum.convolve (fun a b => A.twist .scalar b a) y x =
      BladeSum.convolve (A.twist .scalar) y x :=
    BladeSum.convolve_congr fun a b _ _ => twist_scalar_comm b a
  rw [pairing_eq, ← BladeSum.convolve_flip, hflip, pairing_eq]

/-- The product that keeps equal blades is a scalar. -/
theorem convolve_scalar (x y : BladeSum R) :
    BladeSum.convolve (A.twist .scalar) x y = A.pairing x y • 1 := by
  rw [pairing_eq]
  refine BladeSum.eq_smul_one fun d hd => ?_
  have hs : ∀ b, x b ≠ 0 → b ∈ Finsupp.support x := fun b hb => Finsupp.mem_support_iff.mpr hb
  rw [BladeSum.convolve_apply hs] at hd
  obtain ⟨a, -, ha⟩ := Finset.exists_ne_zero_of_sum_ne_zero hd
  have htwist : A.twist .scalar a (a ^^^ d) ≠ 0 := left_ne_zero_of_mul (left_ne_zero_of_mul ha)
  by_contra hne
  rw [twist, Nat.xor_xor_cancel_left] at htwist
  exact htwist (if_neg (by simp [ProductKind.accepts, hne]))

/-! ## Scalar products of multivectors -/

section Exact

variable [IsStrictOrderedRing K] (hT : A.table.Lawful) (hx : x.WellFormed A)
include hT hx

theorem sp_eq_pairing (hy : y.WellFormed A) :
    A.sp x y = A.pairing (value R A x) (value R A y) :=
  (sp_eq hT hx hy).trans (pairing_eq _ _).symm

theorem sp_comm (hy : y.WellFormed A) : A.sp x y = A.sp y x := by
  rw [sp_eq_pairing (R := A.geometricRule) hT hx hy, pairing_comm, ← sp_eq_pairing hT hy hx]

theorem sp_gp (hy : y.WellFormed A) (hz : z.WellFormed A) :
    A.sp (A.gp x y) z = A.sp x (A.gp y z) := by
  rw [sp_eq_scalarPart_gp hT, sp_eq_scalarPart_gp hT, gp_assoc hT hx hy hz]

/-- The last factor can come first. -/
theorem sp_gp_rotate (hy : y.WellFormed A) (hz : z.WellFormed A) :
    A.sp (A.gp x y) z = A.sp (A.gp z x) y := by
  calc A.sp (A.gp x y) z = A.sp z (A.gp x y) := sp_comm hT (wellFormed_gp hT x y) hz
    _ = A.sp (A.gp z x) y := (sp_gp hT hz hx hy).symm

/-- The orientation of a stored blade enters twice, so it does not matter. -/
theorem sp_eq_sum (hy : y.WellFormed A) : A.sp x y = ∑ b ∈ Finset.range (2 ^ A.dimension),
    Blade.coefficient A.metric b b * A.coordinate x b * A.coordinate y b := by
  rw [sp_eq_pairing (R := A.geometricRule) hT hx hy,
    pairing_eq_sum fun b hb => Finset.mem_range.mpr (lt_of_value_ne_zero hb)]
  refine Finset.sum_congr rfl fun b hb => ?_
  have hb := Finset.mem_range.mp hb
  have hsign : ((A.table.signOf b).toScalar * (A.table.signOf b).toScalar : K) = 1 := by simp
  rw [value_apply_of_lt hb, value_apply_of_lt hb, coefficient, coefficient]
  linear_combination
    (Blade.coefficient A.metric b b * A.coordinate x b * A.coordinate y b) * hsign

/-- The squared norm weighs every squared coordinate with the squares of the vectors. -/
theorem norm2_eq_sum : A.norm2 x = ∑ b ∈ Finset.range (2 ^ A.dimension),
    A.coordinate x b ^ 2 * Blade.metricFactor A.metric b b := by
  have hreverse : (A.reverse x).WellFormed A := wellFormed_signGrades hx Blade.reverseSign
  rw [norm2, sp_eq_sum hT hx hreverse]
  refine Finset.sum_congr rfl fun b _ => ?_
  have hcoordinate : A.coordinate (A.reverse x) b =
      A.coordinate x b * (Blade.reverseSign (Blade.grade b)).toScalar :=
    coordinate_mapGroups hx (f := fun g s => s * (Blade.reverseSign g).toScalar)
      (fun _ => zero_mul _) b
  rw [hcoordinate, ← Blade.reverseSign_mul_coefficient_self]
  ring

end Exact

/-! ## The metric sum of squares -/

theorem metricFactor_self_pos [IsStrictOrderedRing K] (hpos : ∀ s ∈ A.metric, 0 < s) {b : Nat}
    (hb : b < 2 ^ A.dimension) : 0 < Blade.metricFactor A.metric b b := by
  rw [Blade.metricFactor_self A.metric hb]
  refine Finset.prod_pos fun i _ => ?_
  by_cases hi : i < A.metric.size
  · rw [← Array.getElem_eq_getD (h := hi)]
    exact hpos _ (Array.getElem_mem hi)
  · rw [Array.getD_eq_getD_getElem?, Array.getElem?_eq_none (Nat.not_lt.mp hi)]
    exact one_pos

/-- In exact arithmetic, in every accepted algebra, whatever the order and orientation of its blades:
    the squared norm is the sum of the squared coordinates, each times the squares of the vectors of
    its blade.  If these are all positive, the squared norm is never negative, and zero only if every
    coordinate is. -/
theorem norm2_of_ofConfig [IsStrictOrderedRing K] {c : Config K} (h : ofConfig c = .ok A)
    (hx : x.WellFormed A) :
    A.norm2 x = ∑ b ∈ Finset.range (2 ^ A.dimension), A.coordinate x b ^ 2 *
      ∏ i ∈ (Finset.range A.dimension).filter (b.testBit · = true), A.metric.getD i 1 ∧
    ((∀ s ∈ A.metric, 0 < s) →
      0 ≤ A.norm2 x ∧ (A.norm2 x = 0 ↔ ∀ b < 2 ^ A.dimension, A.coordinate x b = 0)) := by
  have hsum := norm2_eq_sum (lawful_of_ofConfig h) hx
  refine ⟨?_, fun hpos => ?_⟩
  · rw [hsum]
    refine Finset.sum_congr rfl fun b hb => ?_
    rw [Blade.metricFactor_self A.metric (Finset.mem_range.mp hb)]
  · have hterm : ∀ b ∈ Finset.range (2 ^ A.dimension),
        0 ≤ A.coordinate x b ^ 2 * Blade.metricFactor A.metric b b := fun b hb =>
      mul_nonneg (sq_nonneg _) (metricFactor_self_pos hpos (Finset.mem_range.mp hb)).le
    rw [hsum, Finset.sum_eq_zero_iff_of_nonneg hterm]
    refine ⟨Finset.sum_nonneg hterm, forall_congr' fun b => ?_⟩
    rw [Finset.mem_range]
    refine imp_congr_right fun hb => ?_
    -- a weight that is positive is not what makes a term zero
    rw [mul_eq_zero, or_iff_left (metricFactor_self_pos hpos hb).ne', sq_eq_zero_iff]

end Clifford

/-! ## A plane with squares of its own -/

/-- A plane whose vectors are longer than one, declared out of order and with its bivector turned. -/
def Config.stretchedPlane : Config ℚ where
  name := "stretched"
  vectors := ["a", "b"]
  metric := some [2, 3]
  blades := some [[], ["b"], ["a"], ["b", "a"]]

namespace Clifford

/-- The algebra of this plane. -/
def stretchedPlane : Clifford ℚ where
  config := .stretchedPlane
  table := .ofOrder 2 [[], [1], [0], [1, 0]]
  metric := #[2, 3]

theorem ofConfig_stretchedPlane : ofConfig Config.stretchedPlane = .ok stretchedPlane :=
  ofConfig_eq_ok_iff.mpr ⟨_, by decide +kernel, rfl⟩

/-- Every grade is stored, and every coordinate has a weight of its own. -/
theorem norm2_stretchedPlane : ofConfig Config.stretchedPlane = .ok stretchedPlane ∧
    let x : Multivector ℚ := ⟨7, #[1, 2, -3, 4]⟩
    x.WellFormed stretchedPlane ∧ (∀ s ∈ stretchedPlane.metric, 0 < s) ∧
      stretchedPlane.norm2 x = ∑ b ∈ Finset.range (2 ^ stretchedPlane.dimension),
        stretchedPlane.coordinate x b ^ 2 *
          ∏ i ∈ (Finset.range stretchedPlane.dimension).filter (b.testBit · = true),
            stretchedPlane.metric.getD i 1 ∧
      0 ≤ stretchedPlane.norm2 x ∧
      (stretchedPlane.norm2 x = 0 ↔
        ∀ b < 2 ^ stretchedPlane.dimension, stretchedPlane.coordinate x b = 0) ∧
      stretchedPlane.norm2 x = 1 + 3 * 4 + 2 * 9 + 6 * 16 := by
  have hcoords : stretchedPlane.ofCoords 7 #[1, 2, -3, 4] = .ok ⟨7, #[1, 2, -3, 4]⟩ := by
    decide +kernel
  have hx := wellFormed_ofCoords hcoords
  have hpos : ∀ s ∈ stretchedPlane.metric, 0 < s := by decide +kernel
  obtain ⟨hsum, hdefinite⟩ := norm2_of_ofConfig ofConfig_stretchedPlane hx
  obtain ⟨hnonneg, hzero⟩ := hdefinite hpos
  exact ⟨ofConfig_stretchedPlane, hx, hpos, hsum, hnonneg, hzero, by decide +kernel⟩

/-! ## Symmetry -/

/-- In exact arithmetic, in every accepted algebra, whatever its metric: the scalar product is
    symmetric, a geometric product in one operand can be taken to the other, and three factors can be
    rotated. -/
theorem scalarProduct_of_ofConfig {K : Type} [Field K] [LinearOrder K] [IsStrictOrderedRing K]
    {c : Config K} {A : Clifford K} {x y z : Multivector K} (h : ofConfig c = .ok A)
    (hx : x.WellFormed A) (hy : y.WellFormed A) (hz : z.WellFormed A) :
    A.sp x y = A.sp y x ∧ A.sp (A.gp x y) z = A.sp x (A.gp y z) ∧
      A.sp x (A.gp y z) = A.sp (A.gp z x) y := by
  have hT := lawful_of_ofConfig h
  have hmove := sp_gp hT hx hy hz
  exact ⟨sp_comm hT hx hy, hmove, hmove.symm.trans (sp_gp_rotate hT hx hy hz)⟩

/-- Multivectors of all grades of a degenerate plane. -/
theorem scalarProduct_degeneratePlane :
    ofConfig Config.degeneratePlane = .ok degeneratePlane ∧
      let x : Multivector ℚ := ⟨15, #[1, 2, 0, 1, 3, -1, 2, 1]⟩
      let y : Multivector ℚ := ⟨15, #[2, 1, 1, -1, 0, 4, 1, 2]⟩
      let z : Multivector ℚ := ⟨10, #[1, 3, 2, 5]⟩
      x.WellFormed degeneratePlane ∧ y.WellFormed degeneratePlane ∧ z.WellFormed degeneratePlane ∧
        degeneratePlane.sp x y = degeneratePlane.sp y x ∧
        degeneratePlane.sp (degeneratePlane.gp x y) z =
          degeneratePlane.sp x (degeneratePlane.gp y z) ∧
        degeneratePlane.sp x (degeneratePlane.gp y z) =
          degeneratePlane.sp (degeneratePlane.gp z x) y ∧
        degeneratePlane.sp x y = -1 ∧ degeneratePlane.sp x (degeneratePlane.gp y z) = 8 := by
  have hx := wellFormed_ofCoords (show degeneratePlane.ofCoords 15 #[1, 2, 0, 1, 3, -1, 2, 1] =
    .ok ⟨15, #[1, 2, 0, 1, 3, -1, 2, 1]⟩ by decide +kernel)
  have hy := wellFormed_ofCoords (show degeneratePlane.ofCoords 15 #[2, 1, 1, -1, 0, 4, 1, 2] =
    .ok ⟨15, #[2, 1, 1, -1, 0, 4, 1, 2]⟩ by decide +kernel)
  have hz := wellFormed_ofCoords (show degeneratePlane.ofCoords 10 #[1, 3, 2, 5] =
    .ok ⟨10, #[1, 3, 2, 5]⟩ by decide +kernel)
  obtain ⟨hcomm, hmove, hrotate⟩ := scalarProduct_of_ofConfig ofConfig_degeneratePlane hx hy hz
  exact ⟨ofConfig_degeneratePlane, hx, hy, hz, hcomm, hmove, hrotate, by decide +kernel,
    by decide +kernel⟩

end Clifford

end GeometricAlgebra
