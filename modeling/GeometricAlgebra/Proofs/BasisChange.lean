/-
  GeometricAlgebra.Proofs.BasisChange

  The declared order and orientation of the basis blades never change the mathematics.  In exact
  arithmetic, multivectors of two algebras with the same vectors and the same metric correspond if
  they are the same sum of canonical blades; every operation that reads an orientation, the parser
  among them, takes corresponding operands to corresponding results.

    * `Clifford.Corresponds`: the correspondence, coordinate by coordinate.
    * `Clifford.SameVectors`: two algebras that differ in their basis blades only.
    * `SameVectors.corresponds_iff`: corresponding multivectors have equal values.
    * `Clifford.OrderIndependent`: what the operations do with corresponding operands.
    * `Clifford.orderIndependent_of_ofConfig`: they do so for every two accepted descriptions.
-/

import GeometricAlgebra.Proofs.Multivector.Duality
import GeometricAlgebra.Proofs.Multivector.Outermorphism
import GeometricAlgebra.Proofs.Text.Faults
import GeometricAlgebra.Proofs.Text.Sums

namespace GeometricAlgebra

open Text (Summand bind_eq_error_iff)

variable {K : Type} [Field K] [LinearOrder K]

/-- An ordered field with decimal forms of its elements, whatever they are. -/
@[reducible] def Numeral.ofField (expand : K → Expansion) (nearest : Decimal → K)
    (shortest : K → Decimal) : Numeral K where
  toScalar := Scalar.ofField
  expand := expand
  nearest := nearest
  shortest := shortest

namespace Clifford

variable {A B : Clifford K} {R : BladeRule K} {x x' y y' : Multivector K}

/-! ## Correspondence -/

/-- Multivectors of two algebras that are the same once the orientations of the stored blades are
    taken out. -/
structure Corresponds (A B : Clifford K) (x y : Multivector K) : Prop where
  left : x.WellFormed A
  right : y.WellFormed B
  coordinate_eq : ∀ b < 2 ^ A.dimension, A.coordinate x b * (A.table.signOf b).toScalar =
    B.coordinate y b * (B.table.signOf b).toScalar

/-- What the operations do with corresponding operands. -/
structure OrderIndependent (A B : Clifford K) : Prop where
  product : ∀ kind x x' y y', A.Corresponds B x x' → A.Corresponds B y y' →
    A.Corresponds B (A.product kind x y) (B.product kind x' y')
  sp_eq : ∀ x x' y y', A.Corresponds B x x' → A.Corresponds B y y' → A.sp x y = B.sp x' y'
  norm2_eq : ∀ x x', A.Corresponds B x x' → A.norm2 x = B.norm2 x'
  reverse : ∀ x x', A.Corresponds B x x' → A.Corresponds B (A.reverse x) (B.reverse x')
  versorInverse : ∀ x x', A.Corresponds B x x' → A.norm2 x ≠ 0 →
    A.Corresponds B (A.versorInverse x) (B.versorInverse x')
  undual : ∀ x x', A.Corresponds B x x' → A.Corresponds B (A.undual x) (B.undual x')
  dual : ∀ x x', A.Corresponds B x x' → (∀ m ∈ A.metric, m ≠ 0) →
    A.Corresponds B (A.dual x) (B.dual x')
  -- Corresponding images of the vectors make outermorphisms that take corresponding multivectors
  -- to corresponding ones.
  applyOutermorphism : ∀ images images' : Array (Multivector K),
    images.size = A.dimension → images'.size = B.dimension →
    (∀ i, ∀ hi : i < images.size, ∀ hi' : i < images'.size,
      A.Corresponds B images[i] images'[i]) →
    ∃ f f', A.outermorphismOfImages images = .ok f ∧ B.outermorphismOfImages images' = .ok f' ∧
      ∀ x x', A.Corresponds B x x' →
        A.Corresponds B (A.applyOutermorphism f x) (B.applyOutermorphism f' x')
  -- A text has the same fault in both algebras or denotes corresponding multivectors, however
  -- decimals are read.
  parseNamed : ∀ expand nearest shortest text source,
    let _ : Numeral K := .ofField expand nearest shortest
    (∃ e, A.parseNamed text source = .error e ∧ B.parseNamed text source = .error e) ∨
      ∃ x x', A.parseNamed text source = .ok x ∧ B.parseNamed text source = .ok x' ∧
        A.Corresponds B x x'

/-! ## Two algebras of the same vectors -/

/-- Two algebras with the same vectors and the same metric; their blades may be numbered and
    oriented differently. -/
structure SameVectors (A B : Clifford K) : Prop where
  left : A.table.Lawful
  right : B.table.Lawful
  dimension_eq : A.dimension = B.dimension
  metric_eq : A.metric = B.metric
  vectors_eq : A.config.vectors = B.config.vectors

namespace SameVectors

variable (h : A.SameVectors B)
include h

/-- Corresponding multivectors have equal values. -/
theorem corresponds_iff (hx : x.WellFormed A) (hx' : x'.WellFormed B) :
    A.Corresponds B x x' ↔ value R A x = value R B x' := by
  constructor
  · intro hcorr
    ext b
    rw [value_apply, value_apply, ← h.dimension_eq]
    by_cases hb : b < 2 ^ A.dimension
    · rw [if_pos hb, if_pos hb, coefficient, coefficient, mul_comm, hcorr.coordinate_eq b hb,
        mul_comm]
    · rw [if_neg hb, if_neg hb]
  · intro hvalue
    refine ⟨hx, hx', fun b hb => ?_⟩
    have hb' : b < 2 ^ B.dimension := h.dimension_eq ▸ hb
    have hcoefficient : A.coefficient x b = B.coefficient x' b := by
      rw [← value_apply_of_lt (R := R) hb, ← value_apply_of_lt (R := R) hb', hvalue]
    rw [mul_comm, mul_comm (B.coordinate x' b)]
    exact hcoefficient

theorem twist_eq (kind : ProductKind) : A.twist kind = B.twist kind := by
  funext a b
  rw [twist, twist, h.metric_eq]

theorem geometricRule_eq : B.geometricRule = A.geometricRule :=
  BladeRule.ext (h.twist_eq .geometric).symm

theorem outerRule_eq : B.outerRule = A.outerRule :=
  BladeRule.ext (h.twist_eq .outer).symm

omit [Field K] [LinearOrder K] in
theorem pseudoscalar_eq : A.pseudoscalar = B.pseudoscalar := by
  rw [pseudoscalar, pseudoscalar, h.dimension_eq]

theorem inverseScale_eq : A.inverseScale = B.inverseScale := by
  rw [inverseScale, inverseScale, h.dimension_eq, h.metric_eq]

end SameVectors

theorem Corresponds.extract (hx : A.Corresponds B x x') (mask : GradeSet) :
    A.Corresponds B (A.extract x mask) (B.extract x' mask) := by
  refine ⟨wellFormed_extract hx.left mask, wellFormed_extract hx.right mask, fun b hb => ?_⟩
  rw [coordinate_extract hx.left, coordinate_extract hx.right]
  cases mask.has (Blade.grade b) with
  | false => simp
  | true => exact hx.coordinate_eq b hb

theorem Corresponds.value_eq (hx : A.Corresponds B x x') (h : A.SameVectors B) :
    value R A x = value R B x' :=
  (h.corresponds_iff hx.left hx.right).mp hx

namespace SameVectors

variable (h : A.SameVectors B)
include h

/-! ## Products, inverses and duals -/

section Operations

variable [IsStrictOrderedRing K] (hx : A.Corresponds B x x') (hy : A.Corresponds B y y')
include hx hy

theorem product (kind : ProductKind) :
    A.Corresponds B (A.product kind x y) (B.product kind x' y') := by
  rw [h.corresponds_iff (R := A.geometricRule) (wellFormed_product h.left kind x y)
      (wellFormed_product h.right kind x' y'), value_product h.left kind hx.left hy.left,
    value_product h.right kind hx.right hy.right, h.twist_eq, hx.value_eq h, hy.value_eq h]

theorem sp_eq : A.sp x y = B.sp x' y' := by
  rw [Clifford.sp_eq (R := A.geometricRule) h.left hx.left hy.left,
    Clifford.sp_eq (R := A.geometricRule) h.right hx.right hy.right, h.twist_eq, hx.value_eq h,
    hy.value_eq h]

omit hy

omit [IsStrictOrderedRing K] in
theorem reverse : A.Corresponds B (A.reverse x) (B.reverse x') := by
  rw [h.corresponds_iff (R := A.geometricRule) (wellFormed_reverse hx.left)
      (wellFormed_reverse hx.right), value_reverse hx.left, value_reverse hx.right, hx.value_eq h]

theorem norm2_eq : A.norm2 x = B.norm2 x' := h.sp_eq hx (h.reverse hx)

theorem versorInverse : A.Corresponds B (A.versorInverse x) (B.versorInverse x') := by
  rw [h.corresponds_iff (R := A.geometricRule) (wellFormed_versorInverse hx.left)
      (wellFormed_versorInverse hx.right), value_versorInverse hx.left,
    value_versorInverse hx.right, h.norm2_eq hx, hx.value_eq h]

theorem undual : A.Corresponds B (A.undual x) (B.undual x') := by
  have hright := value_undual h.right hx.right
  rw [h.geometricRule_eq] at hright
  rw [h.corresponds_iff (R := A.geometricRule) (wellFormed_undual h.left x)
      (wellFormed_undual h.right x'), value_undual h.left hx.left, hright, hx.value_eq h,
    h.pseudoscalar_eq]

theorem dual : A.Corresponds B (A.dual x) (B.dual x') := by
  have hright := value_dual h.right hx.right
  rw [h.geometricRule_eq] at hright
  rw [h.corresponds_iff (R := A.geometricRule) (wellFormed_dual h.left x)
      (wellFormed_dual h.right x'), value_dual h.left hx.left, hright, hx.value_eq h,
    h.pseudoscalar_eq, h.inverseScale_eq]

end Operations

/-! ## Outermorphisms -/

theorem zero : A.Corresponds B .zero .zero := by
  rw [h.corresponds_iff (R := A.geometricRule) Multivector.wellFormed_zero
    Multivector.wellFormed_zero, value_zero, value_zero]

section Outermorphisms

variable {images images' : Array (Multivector K)} (hsize : images.size = images'.size)
  (himages : ∀ i, ∀ hi : i < images.size, ∀ hi' : i < images'.size,
    A.Corresponds B images[i] images'[i])
include hsize himages

/-- Corresponding images have corresponding vector parts. -/
theorem vectorParts (i : Nat) : A.Corresponds B ((A.vectorParts images).getD i .zero)
    ((B.vectorParts images').getD i .zero) := by
  simp only [Clifford.vectorParts, Array.getD_eq_getD_getElem?, Array.getElem?_map]
  by_cases hi : i < images.size
  · have hi' : i < images'.size := hsize ▸ hi
    rw [Array.getElem?_eq_getElem hi, Array.getElem?_eq_getElem hi']
    exact (himages i hi hi').extract _
  · have hi' : ¬ i < images'.size := hsize ▸ hi
    rw [Array.getElem?_eq_none (Nat.not_lt.mp hi), Array.getElem?_eq_none (Nat.not_lt.mp hi')]
    exact h.zero

/-- An outermorphism is the extension of the values of its vector images, in either algebra. -/
theorem applyOutermorphism [IsStrictOrderedRing K] {f f' : Outermorphism K}
    (hf : A.outermorphismOfImages images = .ok f) (hf' : B.outermorphismOfImages images' = .ok f')
    (hx : A.Corresponds B x x') :
    A.Corresponds B (A.applyOutermorphism f x) (B.applyOutermorphism f' x') := by
  have hleft : ∀ v ∈ images, v.WellFormed A := by
    intro v hv
    obtain ⟨i, hi, rfl⟩ := Array.mem_iff_getElem.mp hv
    exact (himages i hi (hsize ▸ hi)).left
  have hright : ∀ v ∈ images', v.WellFormed B := by
    intro v hv
    obtain ⟨i, hi, rfl⟩ := Array.mem_iff_getElem.mp hv
    exact (himages i (hsize ▸ hi) hi).right
  have himage : A.vectorImage images =
      fun i => value A.outerRule B ((B.vectorParts images').getD i .zero) :=
    funext fun i => (h.vectorParts hsize himages i).value_eq h
  have hvalue := value_applyOutermorphism h.right hright hf' hx.right
  have himage' : B.vectorImage images' =
      fun i => value B.outerRule B ((B.vectorParts images').getD i .zero) := rfl
  rw [himage', h.outerRule_eq] at hvalue
  rw [h.corresponds_iff (R := A.outerRule) (wellFormed_applyOutermorphism hx.left f)
      (wellFormed_applyOutermorphism hx.right f'),
    value_applyOutermorphism h.left hleft hf hx.left, hvalue, himage, hx.value_eq h]

end Outermorphisms

end SameVectors

/-! ## Texts -/

section Text

/-- The orientation of the stored blade is taken out of a summand. -/
theorem signOf_mul_summandValue (A : Clifford K) (w : Summand K) :
    (A.table.signOf w.blade).toScalar * A.summandValue w =
      if w.body.vectors.Nodup then
        (w.sign * .ofSorting w.body.vectors).toScalar * w.body.number?.getD 1
      else 0 := by
  rw [summandValue, mul_ite, mul_zero, mul_div_cancel₀ _ (Sign.toScalar_ne_zero _)]

theorem sumOn_eq_sum (A : Clifford K) (ws : List (Summand K)) (b : Blade) :
    A.sumOn ws b = ((ws.filter (·.blade = b)).map A.summandValue).sum := by
  rw [sumOn, List.sum_eq_foldl, List.foldl_map]

/-- What a text says about a blade does not depend on how the blade is stored. -/
theorem signOf_mul_sumOn (A B : Clifford K) (ws : List (Summand K)) (b : Blade) :
    (A.table.signOf b).toScalar * A.sumOn ws b = (B.table.signOf b).toScalar * B.sumOn ws b := by
  rw [sumOn_eq_sum, sumOn_eq_sum, ← List.sum_map_mul_left, ← List.sum_map_mul_left]
  congr 1
  apply List.map_congr_left
  intro w hw
  obtain rfl : w.blade = b := by simpa using (List.mem_filter.mp hw).2
  rw [signOf_mul_summandValue, signOf_mul_summandValue]

theorem coordinate_denseSum [IsStrictOrderedRing K] (hT : A.table.Lawful) (ws : List (Summand K))
    {b : Nat} (hb : b < 2 ^ A.table.dimension) :
    A.coordinate (A.compress (A.denseSum ws) 0 A.table.fullSet) b = A.sumOn ws b := by
  have hi := hT.index_lt b hb
  have hsize : (A.denseSum ws).size = A.table.denseSize := size_denseSum
  have hwf := wellFormed_compress hT hsize.ge 0 A.table.fullSet
  rw [coordinate_eq_entry hT hwf hb, entry_compress hT hsize hi,
    getD_denseSum (hT.denseSize_eq ▸ hi), hT.blade_index b hb]

/-- A sum denotes corresponding multivectors. -/
theorem SameVectors.denseSum [IsStrictOrderedRing K] (h : A.SameVectors B)
    (ws : List (Summand K)) : A.Corresponds B (A.compress (A.denseSum ws) 0 A.table.fullSet)
      (B.compress (B.denseSum ws) 0 B.table.fullSet) := by
  refine ⟨wellFormed_compress h.left size_denseSum.ge 0 _,
    wellFormed_compress h.right size_denseSum.ge 0 _, fun b hb => ?_⟩
  have hb' : b < 2 ^ B.dimension := h.dimension_eq ▸ hb
  rw [coordinate_denseSum h.left ws hb, coordinate_denseSum h.right ws hb', mul_comm,
    signOf_mul_sumOn A B, mul_comm]

/-- Both algebras read the same terms in a text, or meet the same fault. -/
theorem SameVectors.parseNamed [IsStrictOrderedRing K] (h : A.SameVectors B) {c c' : Config K}
    (hA : ofConfig c = .ok A) (hB : ofConfig c' = .ok B) (expand : K → Expansion)
    (nearest : Decimal → K) (shortest : K → Decimal) (text source : String) :
    let _ : Numeral K := .ofField expand nearest shortest
    (∃ e, A.parseNamed text source = .error e ∧ B.parseNamed text source = .error e) ∨
      ∃ x x', A.parseNamed text source = .ok x ∧ B.parseNamed text source = .ok x' ∧
        A.Corresponds B x x' := by
  intro N
  cases hparse : A.parseNamed text source with
  | error e =>
    -- terms are read by the names of the vectors only
    have hterms := bind_eq_error_iff.mp hparse
    rw [h.vectors_eq] at hterms
    exact .inl ⟨e, rfl, bind_eq_error_iff.mpr hterms⟩
  | ok x =>
    obtain ⟨ws, hsum, htokens, rfl⟩ := (parseNamed_eq_ok_iff hA text source x).mp hparse
    rw [h.vectors_eq] at htokens
    have hparse' := (parseNamed_eq_ok_iff hB text source _).mpr ⟨ws, hsum, htokens, rfl⟩
    exact .inr ⟨_, _, rfl, hparse', h.denseSum ws⟩

end Text

/-! ## Accepted descriptions -/

theorem sameVectors_of_ofConfig {c c' : Config K} (hA : ofConfig c = .ok A)
    (hB : ofConfig c' = .ok B) (hvectors : c.vectors = c'.vectors)
    (hmetric : c.metricDiagonal = c'.metricDiagonal) : A.SameVectors B where
  left := lawful_of_ofConfig hA
  right := lawful_of_ofConfig hB
  dimension_eq := by
    rw [dimension_of_ofConfig hA, dimension_of_ofConfig hB, Config.dimension, Config.dimension,
      hvectors]
  metric_eq := by
    obtain ⟨_, _, rfl⟩ := ofConfig_eq_ok_iff.mp hA
    obtain ⟨_, _, rfl⟩ := ofConfig_eq_ok_iff.mp hB
    exact congrArg List.toArray hmetric
  vectors_eq := by
    obtain ⟨_, _, rfl⟩ := ofConfig_eq_ok_iff.mp hA
    obtain ⟨_, _, rfl⟩ := ofConfig_eq_ok_iff.mp hB
    exact hvectors

/-- In exact arithmetic, two accepted descriptions with the same vectors and the same metric give
    algebras in which every operation takes corresponding operands to corresponding results,
    whatever basis blades each of them declares. -/
theorem orderIndependent_of_ofConfig [IsStrictOrderedRing K] {c c' : Config K}
    (hA : ofConfig c = .ok A) (hB : ofConfig c' = .ok B) (hvectors : c.vectors = c'.vectors)
    (hmetric : c.metricDiagonal = c'.metricDiagonal) : A.OrderIndependent B := by
  have h := sameVectors_of_ofConfig hA hB hvectors hmetric
  refine {
    product := fun kind x x' y y' hx hy => h.product hx hy kind
    sp_eq := fun x x' y y' hx hy => h.sp_eq hx hy
    norm2_eq := fun x x' hx => h.norm2_eq hx
    reverse := fun x x' hx => h.reverse hx
    versorInverse := fun x x' hx _ => h.versorInverse hx
    undual := fun x x' hx => h.undual hx
    dual := fun x x' hx _ => h.dual hx
    applyOutermorphism := ?_
    parseNamed := h.parseNamed hA hB }
  intro images images' hsize hsize' himages
  obtain ⟨f, hf⟩ := exists_outermorphismOfImages hsize
  obtain ⟨f', hf'⟩ := exists_outermorphismOfImages hsize'
  have hsizes : images.size = images'.size := by rw [hsize, hsize', h.dimension_eq]
  exact ⟨f, f', hf, hf', fun x x' hx => h.applyOutermorphism hsizes himages hf hf' hx⟩

/-- The algebra of the space with the standard blades. -/
def standardSpace : Clifford ℚ where
  config := .hyperbolicSpace none
  table := .ofOrder 3 [[], [0], [1], [2], [0, 1], [0, 2], [1, 2], [0, 1, 2]]
  metric := #[2, 1, -1]

theorem ofConfig_standardSpace : ofConfig (.hyperbolicSpace none) = .ok standardSpace :=
  ofConfig_eq_ok_iff.mpr ⟨_, by decide +kernel, rfl⟩

/-- The space with the standard and with the turned blades.  A product of two vectors is stored
    differently in each, and corresponds. -/
theorem orderIndependent_standardSpace :
    ofConfig (.hyperbolicSpace none) = .ok standardSpace ∧
      ofConfig (.hyperbolicSpace (some Config.turnedBlades)) = .ok turnedSpace ∧
      standardSpace.OrderIndependent turnedSpace ∧
      let y := standardSpace.vector #[1, 2, 1]
      let z := standardSpace.vector #[0, 1, 3]
      let y' := turnedSpace.vector #[2, 1, 1]
      let z' := turnedSpace.vector #[1, 0, 3]
      standardSpace.Corresponds turnedSpace (standardSpace.gp y z) (turnedSpace.gp y' z') ∧
        standardSpace.Corresponds turnedSpace (standardSpace.dual (standardSpace.gp y z))
          (turnedSpace.dual (turnedSpace.gp y' z')) ∧
        standardSpace.gp y z = ⟨5, #[-1, 1, 3, 5]⟩ ∧
        turnedSpace.gp y' z' = ⟨5, #[-1, 1, -5, -3]⟩ := by
  have hA := ofConfig_standardSpace
  have hB := ofConfig_turnedSpace
  have hindependent := orderIndependent_of_ofConfig hA hB rfl rfl
  have hleft := wellFormed_vector (lawful_of_ofConfig hA) (dimension_pos_of_ofConfig hA)
  have hright := wellFormed_vector (lawful_of_ofConfig hB) (dimension_pos_of_ofConfig hB)
  have hy : standardSpace.Corresponds turnedSpace (standardSpace.vector #[1, 2, 1])
      (turnedSpace.vector #[2, 1, 1]) := ⟨hleft _, hright _, by decide +kernel⟩
  have hz : standardSpace.Corresponds turnedSpace (standardSpace.vector #[0, 1, 3])
      (turnedSpace.vector #[1, 0, 3]) := ⟨hleft _, hright _, by decide +kernel⟩
  have hproduct := hindependent.product .geometric _ _ _ _ hy hz
  have hdual := hindependent.dual _ _ hproduct (by decide +kernel)
  exact ⟨hA, hB, hindependent, hproduct, hdual, by decide +kernel, by decide +kernel⟩

end Clifford

end GeometricAlgebra
