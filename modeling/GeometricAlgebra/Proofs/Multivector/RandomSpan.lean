/-
  GeometricAlgebra.Proofs.Multivector.RandomSpan

  Random blades and versors in exact arithmetic: which basis vectors they are made of.  A request
  selects vectors by index, a drawn vector has its components by place; so the vectors in a random
  product are those whose place is selected, and these are the selected ones if the algebra stores
  its vectors in the order of their indices.

    * `Clifford.InSpan`: only blades of certain vectors have a coordinate.
    * `Clifford.InSpan.product`: products stay in the span.
    * `Clifford.AcceptedDraw.inSpan`: random products are in the span of the selected places.
    * `Clifford.randomSpan_of_ofConfig`: what that says of random blades and versors.
-/

import Mathlib.Data.Rat.Sqrt
import GeometricAlgebra.Proofs.Multivector.Vectors
import GeometricAlgebra.Proofs.Multivector.WellFormed

namespace GeometricAlgebra.Clifford

/-! ## Spans -/

/-- Only blades of vectors with the property `p` have a coordinate. -/
structure InSpan {α : Type} [Scalar α] (A : Clifford α) (p : Nat → Prop) (x : Multivector α) :
    Prop where
  wellFormed : x.WellFormed A
  coordinate_eq_zero : ∀ b < 2 ^ A.dimension, ∀ i, b.testBit i = true → ¬ p i →
    A.coordinate x b = 0

section Exact

variable {K : Type} [Field K] [LinearOrder K] {A : Clifford K} {p : Nat → Prop}
  {x y : Multivector K} (hT : A.table.Lawful)
include hT

theorem inSpan_scalar (s : K) : A.InSpan p (.scalar s) where
  wellFormed := Multivector.wellFormed_scalar hT s
  coordinate_eq_zero b _ i hi _ := by
    rw [coordinate_scalar hT, if_neg]
    rintro rfl
    exact absurd ((Nat.zero_testBit i).symm.trans hi) (by decide)

/-- A vector is in the span of the vectors with a component that is not zero. -/
theorem inSpan_vector (hn : 0 < A.dimension) {components : Coordinates K}
    (h : ∀ i < A.dimension, components.getD (A.vectorPlace i) 0 ≠ 0 → p i) :
    A.InSpan p (A.vector components) where
  wellFormed := wellFormed_vector hT hn components
  coordinate_eq_zero b hb i hi hp := by
    by_cases hgrade : Blade.grade b = 1
    · obtain ⟨j, rfl⟩ := Blade.eq_ofVector_of_grade hgrade
      rw [Blade.testBit_ofVector, decide_eq_true_eq] at hi
      subst hi
      have hlt := Blade.lt_of_ofVector_lt hb
      rw [coordinate_vector hT components hlt]
      by_contra hne
      exact hp (h i hlt hne)
    · exact (isVector_vector hT hn components).coordinate_eq_zero b hb hgrade

omit hT in
theorem InSpan.coefficient_eq_zero (hx : A.InSpan p x) {b i : Nat} (hb : b < 2 ^ A.dimension)
    (hi : b.testBit i = true) (hp : ¬ p i) : A.coefficient x b = 0 := by
  rw [coefficient, hx.coordinate_eq_zero b hb i hi hp, mul_zero]

variable [IsStrictOrderedRing K]

theorem InSpan.scale (hx : A.InSpan p x) (s : K) : A.InSpan p (A.scale x s) where
  wellFormed := wellFormed_scale hT hx.wellFormed s
  coordinate_eq_zero b hb i hi hp := by
    rw [coordinate_scale hT hx.wellFormed s hb, hx.coordinate_eq_zero b hb i hi hp, zero_mul]

/-- A blade of a product is the symmetric difference of two blades, so its vectors come from
    these. -/
theorem InSpan.product (hx : A.InSpan p x) (hy : A.InSpan p y) (kind : ProductKind) :
    A.InSpan p (A.product kind x y) where
  wellFormed := wellFormed_product hT kind x y
  coordinate_eq_zero d hd i hi hp := by
    have hcoefficient : A.coefficient (A.product kind x y) d = 0 := by
      rw [coefficient_product hT hx.wellFormed hy.wellFormed hd]
      refine Finset.sum_eq_zero fun a ha => ?_
      have ha := Finset.mem_range.mp ha
      have hb : a ^^^ d < 2 ^ A.dimension := Nat.xor_lt_two_pow ha hd
      cases hai : a.testBit i with
      | true => rw [hx.coefficient_eq_zero ha hai hp, mul_zero, zero_mul]
      | false =>
        have hbi : (a ^^^ d).testBit i = true := by rw [Nat.testBit_xor, hai, hi]; rfl
        rw [hy.coefficient_eq_zero hb hbi hp, mul_zero]
    exact (mul_eq_zero.mp hcoefficient).resolve_left (Sign.toScalar_ne_zero _)

end Exact

/-! ## Random products -/

section Random

variable {K σ : Type} [Field K] [LinearOrder K] [Elementary.Functions K] {A : Clifford K}
  {next : WordSource σ} {kind : ProductKind} {r : Random.Request K} {x : Multivector K}
  (hT : A.table.Lawful) (hn : 0 < A.dimension)
include hT hn

/-- A random vector has components for the vectors at the selected places only. -/
theorem inSpan_randomVector (basis : Blade) (s : σ) :
    A.InSpan (fun i => basis.testBit (A.vectorPlace i) = true)
      (A.randomVector next basis s).1 := by
  refine inSpan_vector hT hn fun i hi hne => ?_
  rw [Array.getD_eq_getD_getElem?, List.getElem?_toArray, ← List.getD_eq_getElem?_getD] at hne
  obtain ⟨q, hq, hbit⟩ := testBit_of_randomComponents hne
  rw [List.getElem?_range (vectorPlace_lt hT hi), Option.some.injEq] at hq
  exact hq ▸ hbit

variable [IsStrictOrderedRing K]

theorem InSpan.randomFactors {basis : Blade} (k : Nat)
    (hx : A.InSpan (fun i => basis.testBit (A.vectorPlace i) = true) x) (s : σ) :
    A.InSpan (fun i => basis.testBit (A.vectorPlace i) = true)
      (A.randomFactors next kind basis k x s).1 := by
  induction k generalizing x s with
  | zero => exact hx
  | succ k ih => exact ih (hx.product hT (inSpan_randomVector hT hn basis s) kind) _

/-- An accepted draw is in the span of the vectors at the selected places. -/
theorem AcceptedDraw.inSpan (h : A.AcceptedDraw next kind r x) :
    A.InSpan (fun i => r.basis.testBit (A.vectorPlace i) = true) x := by
  obtain ⟨s, w, -, -⟩ := h
  exact ((inSpan_scalar hT 1).randomFactors hT hn r.grade s).scale hT _

end Random

/-- In exact arithmetic, in every accepted algebra, whatever words are drawn: a random blade or
    versor has no coordinate at a blade with a vector whose place in the group of vectors is not
    selected.  So it is built only from the selected vectors if every selected place is that of a
    selected vector, as in an algebra that stores its vectors in order. -/
theorem randomSpan_of_ofConfig {K σ : Type} [Field K] [LinearOrder K] [IsStrictOrderedRing K]
    [Elementary.Functions K] {c : Config K} {A : Clifford K} (h : ofConfig c = .ok A)
    {next : WordSource σ} {r : Random.Request K} {s s' : σ} {x : Multivector K}
    (hx : A.randomBlade next r s = (.ok x, s') ∨ A.randomVersor next r s = (.ok x, s')) :
    (∀ b < 2 ^ A.dimension, ∀ i, b.testBit i = true →
      r.basis.testBit (A.vectorPlace i) = false → A.coordinate x b = 0) ∧
    ((A.VectorsInOrder ∨ ∀ i < A.dimension, r.basis.testBit (A.vectorPlace i) = true →
        r.basis.testBit i = true) →
      ∀ b < 2 ^ A.dimension, ∀ i, b.testBit i = true → r.basis.testBit i = false →
        A.coordinate x b = 0) := by
  have hT := lawful_of_ofConfig h
  have hn := dimension_pos_of_ofConfig h
  have hspan : A.InSpan (fun i => r.basis.testBit (A.vectorPlace i) = true) x := by
    rcases hx with hx | hx
    · exact (acceptedDraw_of_randomBlade hx).inSpan hT hn
    · exact (acceptedDraw_of_randomVersor hx).inSpan hT hn
  refine ⟨fun b hb i hi hplace => ?_, fun hselected b hb i hi hindex => ?_⟩
  · exact hspan.coordinate_eq_zero b hb i hi (by rw [hplace]; decide)
  · refine hspan.coordinate_eq_zero b hb i hi fun hplace => ?_
    have hlt : i < A.dimension := Blade.lt_of_testBit hb hi
    have hbit : r.basis.testBit i = true := by
      rcases hselected with horder | hselected
      · rwa [horder i hlt] at hplace
      · exact hselected i hlt hplace
    exact absurd (hindex.symm.trans hbit) (by decide)

/-! ## Draws in the swapped plane -/

/-- Functions on the rational numbers; the square root is exact at squares. -/
@[reducible] def rationalFunctions : Elementary.Functions ℚ where
  sqrt := Rat.sqrt
  sin _ := 0
  cos _ := 1
  sinh _ := 0
  cosh _ := 1
  atan2 _ _ := 0
  pi := 3
  log2 _ := 0
  trunc x := x
  floor x := x
  toNat x := x.num.toNat

/-- Asks for a blade of grade one, made of the first vector only. -/
def firstVectorRequest : Random.Request ℚ where
  scale := 1
  grade := 1
  basis := 1
  minimumNorm := 1 / 64
  largest := 4

/-- The place that is selected is that of the second vector, so nothing lies at the first one. -/
theorem randomSpan_swappedPlane :
    let _ := rationalFunctions
    ofConfig Config.swappedPlane = .ok swappedPlane ∧
      ∃ x, swappedPlane.randomBlade (WordSource.cycle #[0xc000000000000000]) firstVectorRequest 0 =
          (.ok x, 0) ∧
        swappedPlane.coordinate x (Blade.ofVector 0) = 0 := by
  let _ := rationalFunctions
  have hA := ofConfig_swappedPlane
  have hblade : swappedPlane.randomBlade (WordSource.cycle #[0xc000000000000000])
      firstVectorRequest 0 = (.ok ⟨2, #[3 / 4, 0]⟩, 0) := by decide +kernel
  have hspan := (randomSpan_of_ofConfig hA (.inl hblade)).1
  exact ⟨hA, _, hblade, hspan (Blade.ofVector 0) (by decide +kernel) 0 (by decide +kernel)
    (by decide +kernel)⟩

/-- The vector that is drawn is the second one, which is not selected. -/
theorem randomBlade_swappedPlane :
    let _ := rationalFunctions
    ofConfig Config.swappedPlane = .ok swappedPlane ∧
      firstVectorRequest.basis.testBit 1 = false ∧
      ∃ x, swappedPlane.randomBlade (WordSource.cycle #[0xc000000000000000]) firstVectorRequest 0 =
          (.ok x, 0) ∧
        swappedPlane.coordinate x (Blade.ofVector 1) ≠ 0 :=
  ⟨ofConfig_swappedPlane, by decide +kernel, ⟨2, #[3 / 4, 0]⟩, by decide +kernel⟩

end GeometricAlgebra.Clifford
