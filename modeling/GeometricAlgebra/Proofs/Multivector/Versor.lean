/-
  GeometricAlgebra.Proofs.Multivector.Versor

  Versors in exact arithmetic.  A product of vectors times its reverse is the product of the
  squared norms, so dividing the reverse by it inverts the product; and a product of vectors on
  both sides of a multivector keeps its grades.

    * `Clifford.ProductOf`: a geometric product of a list of vectors.
    * `Clifford.versorInverse_of_ofConfig`: the inverse of a versor is one from both sides.
    * `Clifford.applyVersor_of_ofConfig`: applying a versor loses no coordinate, respects the
      geometric product and composes.
-/

import GeometricAlgebra.Proofs.Blade.Sandwich
import GeometricAlgebra.Proofs.Multivector.Value
import GeometricAlgebra.Proofs.Multivector.WellFormed

namespace GeometricAlgebra.Clifford

/-! ## Products of vectors -/

section Definitions

variable {α : Type} [Scalar α]

/-- A multivector with vector coordinates only; it may store other grades with zeros. -/
structure IsVector (A : Clifford α) (v : Multivector α) : Prop where
  wellFormed : v.WellFormed A
  coordinate_eq_zero : ∀ b < 2 ^ A.dimension, b.grade ≠ 1 → A.coordinate v b = 0

/-- The geometric product of the vectors of a list, multiplied in any order of operations; the
    product of no vectors is one. -/
inductive ProductOf (A : Clifford α) : List (Multivector α) → Multivector α → Prop where
  | one : ProductOf A [] (.scalar 1)
  | vector (v : Multivector α) : ProductOf A [v] v
  | gp {vs ws : List (Multivector α)} {V W : Multivector α} :
      ProductOf A vs V → ProductOf A ws W → ProductOf A (vs ++ ws) (A.gp V W)

variable {A : Clifford α} {vs : List (Multivector α)} {V : Multivector α}

/-- The vector of a list of components is one. -/
theorem isVector_vector (hT : A.table.Lawful) (hn : 0 < A.dimension) (components : Coordinates α) :
    A.IsVector (A.vector components) where
  wellFormed := wellFormed_vector hT hn components
  coordinate_eq_zero b _ hb := by
    have hhas : (A.vector components).grades.has b.grade = false := by simp [vector, hb]
    exact coordinate_of_not_has hhas

/-- Further vectors can be multiplied in from the right, one after the other. -/
theorem ProductOf.foldl (hV : ProductOf A vs V) (ws : List (Multivector α)) :
    ProductOf A (vs ++ ws) (ws.foldl A.gp V) := by
  induction ws generalizing vs V with
  | nil => rwa [List.append_nil]
  | cons w ws ih =>
    have hnext := ih (hV.gp (.vector w))
    rwa [List.append_assoc, List.singleton_append] at hnext

/-- The vectors of a list, multiplied one after the other into one. -/
theorem productOf_foldl (A : Clifford α) (vs : List (Multivector α)) :
    ProductOf A vs (vs.foldl A.gp (.scalar 1)) :=
  ProductOf.one.foldl vs

/-- The vectors of a list, multiplied one after the other into the first. -/
theorem productOf_foldl_cons (A : Clifford α) (v : Multivector α) (vs : List (Multivector α)) :
    ProductOf A (v :: vs) (vs.foldl A.gp v) :=
  (ProductOf.vector v).foldl vs

end Definitions

variable {K : Type} [Field K] [LinearOrder K] {A : Clifford K} {x y v V W : Multivector K}
  {vs ws : List (Multivector K)}

theorem IsVector.isVector_value {R : BladeRule K} (hv : A.IsVector v) : (value R A v).IsVector :=
  hasGrades_value_iff.mpr hv.coordinate_eq_zero

section Exact

variable [IsStrictOrderedRing K] (hT : A.table.Lawful)
include hT

omit [IsStrictOrderedRing K] in
theorem ProductOf.wellFormed (hV : ProductOf A vs V) (hvs : ∀ v ∈ vs, A.IsVector v) :
    V.WellFormed A := by
  cases hV with
  | one => exact Multivector.wellFormed_scalar hT 1
  | vector => exact (hvs V (List.mem_singleton_self V)).wellFormed
  | gp _ _ => exact wellFormed_gp hT _ _

/-- The value of a product of vectors is the product of their values. -/
theorem ProductOf.value_eq (hV : ProductOf A vs V) (hvs : ∀ v ∈ vs, A.IsVector v) :
    value A.geometricRule A V = (vs.map (value A.geometricRule A)).prod := by
  induction hV with
  | one => rw [value_scalar hT, one_smul, List.map_nil, List.prod_nil]
  | vector v => rw [List.map_singleton, List.prod_singleton]
  | gp hV hW ihV ihW =>
    rw [List.forall_mem_append] at hvs
    rw [value_gp hT (hV.wellFormed hT hvs.1) (hW.wellFormed hT hvs.2), ihV hvs.1, ihW hvs.2,
      List.map_append, List.prod_append]

omit hT [IsStrictOrderedRing K] in
theorem isVector_of_mem_map {R : BladeRule K} (hvs : ∀ v ∈ vs, A.IsVector v) :
    ∀ u ∈ vs.map (value R A), u.IsVector := by
  intro u hu
  obtain ⟨v, hv, rfl⟩ := List.mem_map.mp hu
  exact (hvs v hv).isVector_value

/-- The squared norm of a vector is its square. -/
theorem norm2_vector (hv : A.IsVector v) :
    A.norm2 v = (value A.geometricRule A v).square := by
  rw [norm2_eq hT hv.wellFormed, hv.isVector_value.reverse_eq]
  rfl

/-- The squared norm of a product of vectors is the product of their squared norms. -/
theorem ProductOf.norm2_eq (hV : ProductOf A vs V) (hvs : ∀ v ∈ vs, A.IsVector v) :
    A.norm2 V = (vs.map A.norm2).prod := by
  have hnorms : (vs.map (value A.geometricRule A)).map BladeSum.square = vs.map A.norm2 := by
    rw [List.map_map]
    exact List.map_congr_left fun v hv => (norm2_vector hT (hvs v hv)).symm
  rw [Clifford.norm2_eq hT (hV.wellFormed hT hvs), hV.value_eq hT hvs,
    BladeSum.prod_mul_reverse (isVector_of_mem_map hvs), hnorms, BladeSum.smul_apply,
    BladeSum.one_apply, if_pos rfl, mul_one]

end Exact

/-! ## Inverses -/

/-- A multivector whose value is a multiple of a product of vectors. -/
structure IsVersor (A : Clifford K) (V : Multivector K) : Prop where
  wellFormed : V.WellFormed A
  isVersor_value : (value A.geometricRule A V).IsVersor

section Exact

variable [IsStrictOrderedRing K] (hT : A.table.Lawful)
include hT

theorem ProductOf.isVersor (hV : ProductOf A vs V) (hvs : ∀ v ∈ vs, A.IsVector v) :
    A.IsVersor V where
  wellFormed := hV.wellFormed hT hvs
  isVersor_value := by
    rw [hV.value_eq hT hvs]
    exact BladeSum.IsVersor.prod (isVector_of_mem_map hvs)

omit hT [IsStrictOrderedRing K] in
theorem IsVersor.versorInverse (hV : A.IsVersor V) : A.IsVersor (A.versorInverse V) where
  wellFormed := wellFormed_versorInverse hV.wellFormed
  isVersor_value := by
    rw [value_versorInverse hV.wellFormed]
    exact hV.isVersor_value.reverse.smul _

variable (hV : A.IsVersor V)
include hV

theorem IsVersor.mul_reverse :
    value A.geometricRule A V * (value A.geometricRule A V).reverse =
      A.norm2 V • 1 := by
  rw [norm2_eq hT hV.wellFormed]
  exact hV.isVersor_value.mul_reverse.1

theorem IsVersor.reverse_mul :
    (value A.geometricRule A V).reverse * value A.geometricRule A V =
      A.norm2 V • 1 := by
  rw [norm2_eq hT hV.wellFormed]
  exact hV.isVersor_value.mul_reverse.2

theorem IsVersor.norm2_versorInverse (hn : A.norm2 V ≠ 0) :
    A.norm2 (A.versorInverse V) = (A.norm2 V)⁻¹ := by
  rw [norm2_eq hT hV.versorInverse.wellFormed, value_versorInverse hV.wellFormed, map_smul,
    BladeSum.reverse_reverse, smul_mul_smul_comm, hV.reverse_mul hT, smul_smul,
    BladeSum.smul_apply, BladeSum.one_apply, if_pos rfl, mul_one, inv_mul_cancel_right₀ hn]

theorem IsVersor.mul_inverse (hn : A.norm2 V ≠ 0) :
    value A.geometricRule A V * value A.geometricRule A (A.versorInverse V) =
      1 := by
  rw [value_versorInverse hV.wellFormed, mul_smul_comm, hV.mul_reverse hT, smul_smul,
    inv_mul_cancel₀ hn, one_smul]

theorem IsVersor.inverse_mul (hn : A.norm2 V ≠ 0) :
    value A.geometricRule A (A.versorInverse V) * value A.geometricRule A V =
      1 := by
  rw [value_versorInverse hV.wellFormed, smul_mul_assoc, hV.reverse_mul hT, smul_smul,
    inv_mul_cancel₀ hn, one_smul]

omit hV in
/-- A geometric product with the value of one is the scalar one, with no other grade stored. -/
theorem gp_eq_one (hx : x.WellFormed A) (hy : y.WellFormed A)
    (h : value A.geometricRule A x * value A.geometricRule A y = 1) : A.gp x y = .scalar 1 := by
  refine (reduced_product hT .geometric x y).ext_value hT (reduced_scalar hT one_ne_zero)
    (wellFormed_gp hT x y) (Multivector.wellFormed_scalar hT 1)
    (R := A.geometricRule) ?_
  rw [value_scalar hT, one_smul, ← h]
  exact value_gp hT hx hy

end Exact

/-- In exact arithmetic, in every accepted algebra: the squared norm of a product of vectors is the
    product of their squared norms.  If it is not zero, the versor inverse is the inverse from both
    sides, with the scalar one as the whole product; and dividing by the versor undoes multiplying
    by it, before and after. -/
theorem versorInverse_of_ofConfig [IsStrictOrderedRing K] {c : Config K} (h : ofConfig c = .ok A)
    (hvs : ∀ v ∈ vs, A.IsVector v) (hV : ProductOf A vs V) :
    A.norm2 V = (vs.map A.norm2).prod ∧
      (A.norm2 V ≠ 0 →
        A.gp V (A.versorInverse V) = .scalar 1 ∧ A.gp (A.versorInverse V) V = .scalar 1 ∧
          ∀ x : Multivector K, x.WellFormed A →
            A.Agree (A.igp (A.gp x V) V) x ∧ A.Agree (A.gp (A.igp x V) V) x) := by
  have hT := lawful_of_ofConfig h
  have hversor := hV.isVersor hT hvs
  have hwf := hversor.wellFormed
  have hwf' := hversor.versorInverse.wellFormed
  refine ⟨hV.norm2_eq hT hvs, fun hn => ⟨?_, ?_, fun x hx => ⟨?_, ?_⟩⟩⟩
  · exact gp_eq_one hT hwf hwf' (hversor.mul_inverse hT hn)
  · exact gp_eq_one hT hwf' hwf (hversor.inverse_mul hT hn)
  · have hxV := wellFormed_gp hT x V
    rw [agree_iff (R := A.geometricRule), igp, value_gp hT hxV hwf', value_gp hT hx hwf, mul_assoc,
      hversor.mul_inverse hT hn, mul_one]
  · have hxV := wellFormed_gp hT x (A.versorInverse V)
    rw [agree_iff (R := A.geometricRule), igp, value_gp hT hxV hwf, value_gp hT hx hwf', mul_assoc,
      hversor.inverse_mul hT hn, mul_one]

/-- A product of two vectors of a degenerate plane; its inverse is not its reverse. -/
theorem versorInverse_degeneratePlane :
    ofConfig Config.degeneratePlane = .ok degeneratePlane ∧
      let v := degeneratePlane.vector #[1, 2, 0]
      let w := degeneratePlane.vector #[0, 1, 2]
      let V := [v, w].foldl degeneratePlane.gp (.scalar 1)
      degeneratePlane.norm2 V = -12 ∧
        degeneratePlane.gp V (degeneratePlane.versorInverse V) = .scalar 1 ∧
        degeneratePlane.gp (degeneratePlane.versorInverse V) V = .scalar 1 ∧
        degeneratePlane.Agree (degeneratePlane.igp (degeneratePlane.gp v V) V) v ∧
        degeneratePlane.Agree (degeneratePlane.gp (degeneratePlane.igp v V) V) v := by
  have hA := ofConfig_degeneratePlane
  have hvector := isVector_vector (lawful_of_ofConfig hA) (dimension_pos_of_ofConfig hA)
  have hv := hvector #[1, 2, 0]
  have hw := hvector #[0, 1, 2]
  have hvs : ∀ u ∈ [degeneratePlane.vector #[1, 2, 0], degeneratePlane.vector #[0, 1, 2]],
      degeneratePlane.IsVector u := by
    simp only [List.mem_cons, List.not_mem_nil, or_false, forall_eq_or_imp, forall_eq]
    exact ⟨hv, hw⟩
  have hinverse := versorInverse_of_ofConfig hA hvs (productOf_foldl degeneratePlane _)
  have hnorm := hinverse.1.trans (c := -12) (by decide +kernel)
  obtain ⟨hleft, hright, hdivide⟩ := hinverse.2 (by rw [hnorm]; decide)
  exact ⟨hA, hnorm, hleft, hright, hdivide _ hv.wellFormed⟩

/-! ## Sandwiches -/

section Exact

variable [IsStrictOrderedRing K] (hT : A.table.Lawful) (hV : A.IsVersor V) (hx : x.WellFormed A)
include hT hV hx

/-- A versor and its inverse on both sides of a multivector. -/
theorem IsVersor.value_sandwich : value A.geometricRule A (A.gp (A.gp V x) (A.versorInverse V)) =
    value A.geometricRule A V * value A.geometricRule A x *
      value A.geometricRule A (A.versorInverse V) := by
  have hVx := wellFormed_gp hT V x
  rw [value_gp hT hVx hV.versorInverse.wellFormed, value_gp hT hV.wellFormed hx]

/-- The coordinates stay in the grades that are stored. -/
theorem IsVersor.hasGrades_sandwich :
    (value A.geometricRule A (A.gp (A.gp V x) (A.versorInverse V))).HasGrades
      fun g => x.grades.has g = true := by
  have hgrades : (value A.geometricRule A x).HasGrades fun g => x.grades.has g = true :=
    hasGrades_value_iff.mpr fun b _ hb => coordinate_of_not_has (Bool.eq_false_iff.mpr hb)
  have hreverse := hV.isVersor_value.hasGrades_sandwich hgrades
  rw [hV.value_sandwich hT hx, value_versorInverse hV.wellFormed, mul_smul_comm]
  intro b hb
  exact hreverse b (right_ne_zero_of_mul hb)

/-- So selecting these grades loses nothing. -/
theorem IsVersor.agree_applyVersor :
    A.Agree (A.applyVersor V x) (A.gp (A.gp V x) (A.versorInverse V)) := by
  have hgp := wellFormed_gp hT (A.gp V x) (A.versorInverse V)
  intro b hb
  have hzero := hasGrades_value_iff.mp (hV.hasGrades_sandwich hT hx) b hb
  have hextract := coordinate_extract hgp x.grades b
  rw [applyVersor, applyVersorWith]
  refine hextract.trans ?_
  by_cases hs : x.grades.has b.grade = true
  · exact if_pos hs
  · rw [if_neg hs]
    exact (hzero hs).symm

theorem IsVersor.value_applyVersor : value A.geometricRule A (A.applyVersor V x) =
    value A.geometricRule A V * value A.geometricRule A x *
      value A.geometricRule A (A.versorInverse V) := by
  rw [agree_iff.mp (hV.agree_applyVersor hT hx), hV.value_sandwich hT hx]

end Exact

/-! ## Applying versors -/

section Exact

variable [IsStrictOrderedRing K] (hT : A.table.Lawful)
include hT

omit [IsStrictOrderedRing K] in
theorem wellFormed_applyVersor (V x : Multivector K) : (A.applyVersor V x).WellFormed A :=
  wellFormed_applyVersorWith hT V x _

variable (hV : A.IsVersor V)
include hV

/-- A versor respects the geometric product: its inverse cancels between the operands. -/
theorem IsVersor.agree_applyVersor_gp (hn : A.norm2 V ≠ 0) (hx : x.WellFormed A)
    (hy : y.WellFormed A) :
    A.Agree (A.applyVersor V (A.gp x y)) (A.gp (A.applyVersor V x) (A.applyVersor V y)) := by
  have hVx := wellFormed_applyVersor hT V x
  have hVy := wellFormed_applyVersor hT V y
  rw [agree_iff (R := A.geometricRule), hV.value_applyVersor hT (wellFormed_gp hT x y),
    value_gp hT hx hy, value_gp hT hVx hVy, hV.value_applyVersor hT hx,
    hV.value_applyVersor hT hy]
  have hcancel := hV.inverse_mul hT hn
  generalize value A.geometricRule A V = P at hcancel ⊢
  generalize value A.geometricRule A (A.versorInverse V) = Q at hcancel ⊢
  generalize value A.geometricRule A x = X
  generalize value A.geometricRule A y = Y
  calc P * (X * Y) * Q = P * X * 1 * Y * Q := by simp only [mul_one, mul_assoc]
    _ = P * X * Q * (P * Y * Q) := by simp only [← hcancel, mul_assoc]

/-- One versor after the other is their product. -/
theorem IsVersor.agree_applyVersor_applyVersor (hW : A.IsVersor W) (hVW : A.IsVersor (A.gp V W))
    (hnV : A.norm2 V ≠ 0) (hnW : A.norm2 W ≠ 0) (hnVW : A.norm2 (A.gp V W) ≠ 0)
    (hx : x.WellFormed A) :
    A.Agree (A.applyVersor V (A.applyVersor W x)) (A.applyVersor (A.gp V W) x) := by
  have hWx := wellFormed_applyVersor hT W x
  have hmul := value_gp hT hV.wellFormed hW.wellFormed
  -- the inverses in the opposite order invert the product from the left
  have hleft : value A.geometricRule A (A.versorInverse W) *
      value A.geometricRule A (A.versorInverse V) * value A.geometricRule A (A.gp V W) = 1 := by
    rw [hmul, mul_assoc, ← mul_assoc (value A.geometricRule A (A.versorInverse V)),
      hV.inverse_mul hT hnV, one_mul, hW.inverse_mul hT hnW]
  have hinverse := left_inv_eq_right_inv hleft (hVW.mul_inverse hT hnVW)
  rw [agree_iff (R := A.geometricRule), hV.value_applyVersor hT hWx, hW.value_applyVersor hT hx,
    hVW.value_applyVersor hT hx, ← hinverse, hmul]
  simp only [mul_assoc]

/-- The inverse of a versor takes back what the versor does. -/
theorem IsVersor.agree_applyVersor_versorInverse (hn : A.norm2 V ≠ 0) (hx : x.WellFormed A) :
    A.Agree (A.applyVersor (A.versorInverse V) (A.applyVersor V x)) x := by
  have hVx := wellFormed_applyVersor hT V x
  have hnorm : A.norm2 (A.versorInverse V) ≠ 0 := by
    rw [hV.norm2_versorInverse hT hn]
    exact inv_ne_zero hn
  -- the inverse of the inverse is the versor itself
  have hinverse := left_inv_eq_right_inv (hV.mul_inverse hT hn)
    (hV.versorInverse.mul_inverse hT hnorm)
  rw [agree_iff (R := A.geometricRule), hV.versorInverse.value_applyVersor hT hVx,
    hV.value_applyVersor hT hx, ← hinverse]
  have hcancel := hV.inverse_mul hT hn
  generalize value A.geometricRule A V = P at hcancel ⊢
  generalize value A.geometricRule A (A.versorInverse V) = Q at hcancel ⊢
  generalize value A.geometricRule A x = X
  calc Q * (P * X * Q) * P = Q * P * X * (Q * P) := by simp only [mul_assoc]
    _ = X := by rw [hcancel, one_mul, mul_one]

end Exact

/-- In exact arithmetic, in every accepted algebra, for products of vectors whose squared norms are
    not zero: the sandwich has no coordinate outside the stored grades, so selecting these loses
    nothing; applying a versor respects the geometric product; applying two is applying their
    product; and applying the inverse gives back what was there. -/
theorem applyVersor_of_ofConfig [IsStrictOrderedRing K] {c : Config K} (h : ofConfig c = .ok A)
    (hvs : ∀ v ∈ vs, A.IsVector v) (hV : ProductOf A vs V) (hnV : A.norm2 V ≠ 0)
    (hws : ∀ w ∈ ws, A.IsVector w) (hW : ProductOf A ws W) (hnW : A.norm2 W ≠ 0)
    (hx : x.WellFormed A) (hy : y.WellFormed A) :
    (∀ b < 2 ^ A.dimension, x.grades.has b.grade = false →
        A.coordinate (A.gp (A.gp V x) (A.versorInverse V)) b = 0) ∧
      A.Agree (A.applyVersor V x) (A.gp (A.gp V x) (A.versorInverse V)) ∧
      A.Agree (A.applyVersor V (A.gp x y)) (A.gp (A.applyVersor V x) (A.applyVersor V y)) ∧
      A.Agree (A.applyVersor V (A.applyVersor W x)) (A.applyVersor (A.gp V W) x) ∧
      A.Agree (A.applyVersor (A.versorInverse V) (A.applyVersor V x)) x := by
  have hT := lawful_of_ofConfig h
  have hversorV := hV.isVersor hT hvs
  have hversorW := hW.isVersor hT hws
  have hvws : ∀ u ∈ vs ++ ws, A.IsVector u := List.forall_mem_append.mpr ⟨hvs, hws⟩
  have hversorVW := (hV.gp hW).isVersor hT hvws
  have hnVW : A.norm2 (A.gp V W) ≠ 0 := by
    rw [(hV.gp hW).norm2_eq hT hvws, List.map_append, List.prod_append, ← hV.norm2_eq hT hvs,
      ← hW.norm2_eq hT hws]
    exact mul_ne_zero hnV hnW
  refine ⟨fun b hb hs => ?_, ?_, ?_, ?_, ?_⟩
  · exact hasGrades_value_iff.mp (hversorV.hasGrades_sandwich hT hx) b hb (by simp [hs])
  · exact hversorV.agree_applyVersor hT hx
  · exact hversorV.agree_applyVersor_gp hT hnV hx hy
  · exact hversorV.agree_applyVersor_applyVersor hT hversorW hversorVW hnV hnW hnVW hx
  · exact hversorV.agree_applyVersor_versorInverse hT hnV hx

/-- Two versors of a degenerate plane. -/
theorem applyVersor_degeneratePlane :
    let v := degeneratePlane.vector #[1, 2, 0]
    let w := degeneratePlane.vector #[0, 1, 2]
    let V := [v, w].foldl degeneratePlane.gp (.scalar 1)
    let x := degeneratePlane.vector #[3, 0, 1]
    degeneratePlane.norm2 V ≠ 0 ∧ degeneratePlane.norm2 w ≠ 0 ∧
      degeneratePlane.applyVersor V x = ⟨2, #[13/3, 4/3, -5/3]⟩ ∧
      degeneratePlane.Agree (degeneratePlane.applyVersor V (degeneratePlane.gp x w))
        (degeneratePlane.gp (degeneratePlane.applyVersor V x)
          (degeneratePlane.applyVersor V w)) ∧
      degeneratePlane.Agree (degeneratePlane.applyVersor V (degeneratePlane.applyVersor w x))
        (degeneratePlane.applyVersor (degeneratePlane.gp V w) x) ∧
      degeneratePlane.Agree
        (degeneratePlane.applyVersor (degeneratePlane.versorInverse V)
          (degeneratePlane.applyVersor V x)) x := by
  have hA := ofConfig_degeneratePlane
  have hvector := isVector_vector (lawful_of_ofConfig hA) (dimension_pos_of_ofConfig hA)
  have hw := hvector #[0, 1, 2]
  have hx := hvector #[3, 0, 1]
  have hvs : ∀ u ∈ [degeneratePlane.vector #[1, 2, 0], degeneratePlane.vector #[0, 1, 2]],
      degeneratePlane.IsVector u := by
    simp only [List.mem_cons, List.not_mem_nil, or_false, forall_eq_or_imp, forall_eq]
    exact ⟨hvector #[1, 2, 0], hw⟩
  have hws : ∀ u ∈ [degeneratePlane.vector #[0, 1, 2]], degeneratePlane.IsVector u := by
    simp only [List.mem_singleton, forall_eq]
    exact hw
  have hnV : degeneratePlane.norm2 ([degeneratePlane.vector #[1, 2, 0],
      degeneratePlane.vector #[0, 1, 2]].foldl degeneratePlane.gp (.scalar 1)) ≠ 0 := by
    decide +kernel
  have hnW : degeneratePlane.norm2 (degeneratePlane.vector #[0, 1, 2]) ≠ 0 := by decide +kernel
  have hall := applyVersor_of_ofConfig hA hvs (productOf_foldl degeneratePlane _) hnV hws
    (.vector _) hnW hx.wellFormed hw.wellFormed
  exact ⟨hnV, hnW, by decide +kernel, hall.2.2⟩

end GeometricAlgebra.Clifford
