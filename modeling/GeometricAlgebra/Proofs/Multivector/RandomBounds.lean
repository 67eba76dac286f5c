/-
  GeometricAlgebra.Proofs.Multivector.RandomBounds

  The bounds of random blades and versors, in exact arithmetic with exact square roots.  A product is
  rejected before it is scaled if its squared norm is too small, whatever its sign, so the norm that
  the scale is divided by is not zero; and the bound on the coordinates, tested before scaling, holds
  after it.

    * `Clifford.largestCoordinate_le_iff`: bounds on the largest coordinate.
    * `Clifford.largestCoordinate_scale_le`: the largest coordinate of a multiple.
    * `Clifford.has_randomFactors`: the grades of a product of random vectors.
    * `Clifford.AcceptedDraw.abs_norm2_lt`, `AcceptedDraw.largestCoordinate_le`: accepted products.
    * `Clifford.randomBounds_of_ofConfig`: what that says of random blades and versors.
-/

import Mathlib.Analysis.Real.Sqrt
import GeometricAlgebra.Proofs.Multivector.GradeProjection
import GeometricAlgebra.Proofs.Multivector.LargestCoordinate
import GeometricAlgebra.Proofs.Multivector.Vectors
import GeometricAlgebra.Proofs.Multivector.WellFormed

namespace GeometricAlgebra

namespace Clifford

/-! ## The largest coordinate -/

section Largest

variable {K : Type} [Field K] [LinearOrder K] [IsStrictOrderedRing K] {A : Clifford K}
  {x : Multivector K} (hT : A.table.Lawful) (hx : x.WellFormed A)
include hT hx

/-- The stored coordinates are the entries that need not be zero. -/
theorem largestCoordinate_le_iff {bound : K} :
    x.largestCoordinate ≤ bound ↔ 0 ≤ bound ∧ ∀ i < 2 ^ A.dimension, |A.entry x i| ≤ bound := by
  rw [Multivector.largestCoordinate_le_iff]
  simp only [← Array.mem_toList_iff, ← map_fst_stored hx, List.forall_mem_map]
  refine and_congr_right fun hbound => ⟨fun h i hi => ?_, fun h => ?_⟩
  · cases hs : x.grades.has (A.table.gradeOf i) with
    | false => rwa [entry_of_not_has hT hx hi hs, abs_zero]
    | true =>
      rw [entry_eq_coordinate hT hx hi]
      exact h _ ((mem_stored_iff hT hx).mpr ⟨hi, hs, rfl⟩) (decide_eq_true rfl)
  · rintro ⟨c, i⟩ hstored -
    obtain ⟨hi, -, rfl⟩ := (mem_stored_iff hT hx).mp hstored
    rw [← entry_eq_coordinate hT hx hi]
    exact h i hi

theorem largestCoordinate_scale_le (s : K) :
    (A.scale x s).largestCoordinate ≤ x.largestCoordinate * |s| := by
  obtain ⟨hnonneg, hentry⟩ := (largestCoordinate_le_iff hT hx).mp le_rfl
  refine (largestCoordinate_le_iff hT (wellFormed_scale hT hx s)).mpr
    ⟨mul_nonneg hnonneg (abs_nonneg s), fun i hi => ?_⟩
  rw [entry_scale hT hx s hi, abs_mul]
  exact mul_le_mul_of_nonneg_right (hentry i hi) (abs_nonneg s)

end Largest

/-! ## Grades of random products -/

section Grades

variable {α σ : Type} [Elementary α] [Scalar.ExactZero α] {A : Clifford α} {next : WordSource σ}
  {kind : ProductKind} {r : Random.Request α} {x : Multivector α} (hT : A.table.Lawful)
include hT

/-- What multiplying by a vector does to the grades, it does again with every further vector. -/
theorem has_randomFactors {p : Nat → Nat → Prop}
    (hstep : ∀ k i g, p k i → kind.accepts i 1 g = true → Blade.Triangle i 1 g →
      (i + 1 + g) % 2 = 0 → p (k + 1) g) {basis : Blade} (m : Nat) {k : Nat}
    (hx : ∀ g, x.grades.has g = true → p k g) (s : σ) :
    ∀ g, (A.randomFactors next kind basis m x s).1.grades.has g = true → p (k + m) g := by
  induction m generalizing x k s with
  | zero => exact hx
  | succ m ih =>
    have hsum : k + (m + 1) = k + 1 + m := by omega
    rw [hsum]
    refine ih (k := k + 1) (fun g hg => ?_) _
    obtain ⟨i, j, hi, hj, haccepts, htriangle, heven⟩ := exists_of_has_product hT hg
    obtain rfl : j = 1 := by simpa [randomVector, vector] using hj
    exact hstep k i g (hx i hi) haccepts htriangle heven

/-- The grades of an accepted draw, from those of products with one vector after the other. -/
theorem AcceptedDraw.has {p : Nat → Nat → Prop} (hzero : p 0 0)
    (hstep : ∀ k i g, p k i → kind.accepts i 1 g = true → Blade.Triangle i 1 g →
      (i + 1 + g) % 2 = 0 → p (k + 1) g) (h : A.AcceptedDraw next kind r x) {g : Nat}
    (hg : x.grades.has g = true) : p r.grade g := by
  obtain ⟨s, w, -, -⟩ := h
  rw [scale, compress_eq, has_keptGrades, Bool.and_eq_true, Bool.and_eq_true] at hg
  have hscalar : ∀ g, (Multivector.scalar (1 : α)).grades.has g = true → p 0 g := by
    intro g hg
    obtain rfl : g = 0 := by simpa [Multivector.scalar] using hg
    exact hzero
  have hgrades := has_randomFactors hT hstep r.grade hscalar s g hg.2.1
  rwa [Nat.zero_add] at hgrades

end Grades

/-! ## Bounds of random products -/

section Bounds

variable {K σ : Type} [Field K] [LinearOrder K] [IsStrictOrderedRing K]

theorem unitDraw_nonneg (w : UInt64) : 0 ≤ (Random.unitDraw w : K) :=
  div_nonneg (Nat.cast_nonneg _) (Nat.cast_nonneg _)

theorem unitDraw_lt_one (w : UInt64) : (Random.unitDraw w : K) < 1 := by
  have hword : (w >>> 11).toNat < 1 <<< 53 := by
    have hlt := w.toNat_lt
    change w.toNat >>> 11 < 1 <<< 53
    rw [Nat.shiftRight_eq_div_pow]
    omega
  have hpos : (0 : K) < ((1 <<< 53 : Nat) : K) := Nat.cast_pos.mpr (by decide)
  exact (div_lt_one hpos).mpr (Nat.cast_lt.mpr hword)

variable [Elementary.Functions K] {A : Clifford K} {next : WordSource σ} {kind : ProductKind}
  {r : Random.Request K} {x : Multivector K}
  (hsqrt : ∀ y : K, 0 ≤ y → 0 ≤ Elementary.sqrt y ∧ Elementary.sqrt y * Elementary.sqrt y = y)
include hsqrt

/-- A product whose norm is not too small has a norm to divide by. -/
theorem sqrt_pos_of_not_le {n m : K} (h : ¬ |n| ≤ m * m) : 0 < Elementary.sqrt |n| := by
  obtain ⟨hnonneg, hsquare⟩ := hsqrt |n| (abs_nonneg n)
  refine lt_of_le_of_ne hnonneg fun hzero => h ?_
  rw [← hsquare, ← hzero, mul_zero]
  exact mul_self_nonneg m

variable (hT : A.table.Lawful) (hscale : 0 < r.scale)
include hT hscale

theorem AcceptedDraw.abs_norm2_lt (h : A.AcceptedDraw next kind r x) :
    |A.norm2 x| < r.scale ^ 2 := by
  obtain ⟨s, w, hnorm, -⟩ := h
  have hwf : (A.drawnProduct next kind r s).WellFormed A :=
    wellFormed_randomFactors hT kind r.basis r.grade (Multivector.wellFormed_scalar hT 1) s
  have hroot := sqrt_pos_of_not_le hsqrt hnorm
  obtain ⟨-, hsquare⟩ := hsqrt _ (abs_nonneg (A.norm2 (A.drawnProduct next kind r s)))
  have hu : r.scale * Random.unitDraw w < r.scale :=
    mul_lt_of_lt_one_right hscale (unitDraw_lt_one w)
  calc |A.norm2 (A.scale (A.drawnProduct next kind r s) (A.drawnFactor r _ w))|
      = A.drawnFactor r (A.drawnProduct next kind r s) w *
          A.drawnFactor r (A.drawnProduct next kind r s) w *
          |A.norm2 (A.drawnProduct next kind r s)| := by
        rw [norm2_scale hT hwf, abs_mul, abs_mul_self]
    _ = (r.scale * Random.unitDraw w) ^ 2 := by
        change r.scale * Random.unitDraw w / Elementary.sqrt |A.norm2 _| *
          (r.scale * Random.unitDraw w / Elementary.sqrt |A.norm2 _|) * _ = _
        nth_rewrite 3 [← hsquare]
        field_simp
    _ < r.scale ^ 2 := by
        exact pow_lt_pow_left₀ hu (mul_nonneg hscale.le (unitDraw_nonneg w)) two_ne_zero

theorem AcceptedDraw.largestCoordinate_le (h : A.AcceptedDraw next kind r x) :
    x.largestCoordinate ≤ r.largest := by
  obtain ⟨s, w, hnorm, hlargest⟩ := h
  have hwf : (A.drawnProduct next kind r s).WellFormed A :=
    wellFormed_randomFactors hT kind r.basis r.grade (Multivector.wellFormed_scalar hT 1) s
  have hfactor : 0 ≤ A.drawnFactor r (A.drawnProduct next kind r s) w :=
    div_nonneg (mul_nonneg hscale.le (unitDraw_nonneg w)) (sqrt_pos_of_not_le hsqrt hnorm).le
  have hscaled := largestCoordinate_scale_le hT hwf (A.drawnFactor r (A.drawnProduct next kind r s) w)
  rw [abs_of_nonneg hfactor] at hscaled
  exact hscaled.trans (not_lt.mp hlargest)

end Bounds

/-- In exact arithmetic with square roots, in every accepted algebra, whatever words are drawn and
    whatever the bounds, for a positive scale: a random blade or versor has a norm below the scale
    and coordinates within the bound; a blade stores its grade only, and a versor grades of one
    parity up to the number of its vectors.  No draw divides by zero.  A random product is the first
    draw that is accepted, and an error if all attempts are rejected. -/
theorem randomBounds_of_ofConfig {K σ : Type} [Field K] [LinearOrder K] [IsStrictOrderedRing K]
    [Elementary.Functions K] {c : Config K} {A : Clifford K} (h : ofConfig c = .ok A)
    (hsqrt : ∀ y : K, 0 ≤ y →
      0 ≤ Elementary.sqrt y ∧ Elementary.sqrt y * Elementary.sqrt y = y)
    (next : WordSource σ) {r : Random.Request K} (hscale : 0 < r.scale) (s : σ) :
    (∀ x s', A.randomBlade next r s = (.ok x, s') ∨ A.randomVersor next r s = (.ok x, s') →
      |A.norm2 x| < r.scale ^ 2 ∧ x.largestCoordinate ≤ r.largest) ∧
    (∀ x s', A.randomBlade next r s = (.ok x, s') →
      ∀ g, x.grades.has g = true → g = r.grade) ∧
    (∀ x s', A.randomVersor next r s = (.ok x, s') →
      ∀ g, x.grades.has g = true → g % 2 = r.grade % 2 ∧ g ≤ min r.grade A.dimension) ∧
    (∀ kind t, let n := |A.norm2 (A.drawnProduct next kind r t)|
      ¬ n ≤ r.minimumNorm * r.minimumNorm → Elementary.sqrt n ≠ 0) ∧
    ∀ kind,
      (∃ k < Random.maxAttempts, ∃ x s', A.attempt next kind r s k = (some x, s') ∧
        (∀ j < k, (A.attempt next kind r s j).1 = none) ∧
        A.randomProduct next kind r s = (.ok x, s')) ∨
      (∀ k < Random.maxAttempts, (A.attempt next kind r s k).1 = none) ∧
        A.randomProduct next kind r s =
          (.error (.invalidAlgebra (.noAcceptableDraw r.grade Random.maxAttempts)),
            A.afterDraws next kind r Random.maxAttempts s) := by
  have hT := lawful_of_ofConfig h
  refine ⟨fun x s' hx => ?_, fun x s' hx g hg => ?_, fun x s' hx g hg => ?_,
    fun kind t hnorm => (sqrt_pos_of_not_le hsqrt hnorm).ne', fun kind => randomProduct_cases kind s⟩
  · rcases hx with hx | hx
    · have haccepted := acceptedDraw_of_randomBlade hx
      exact ⟨haccepted.abs_norm2_lt hsqrt hT hscale, haccepted.largestCoordinate_le hsqrt hT hscale⟩
    · have haccepted := acceptedDraw_of_randomVersor hx
      exact ⟨haccepted.abs_norm2_lt hsqrt hT hscale, haccepted.largestCoordinate_le hsqrt hT hscale⟩
  · refine (acceptedDraw_of_randomBlade hx).has hT (p := fun k g => g = k) rfl ?_ hg
    rintro k i g rfl haccepts - -
    exact beq_iff_eq.mp haccepts
  · have hgrade := (acceptedDraw_of_randomVersor hx).has hT
      (p := fun k g => g % 2 = k % 2 ∧ g ≤ k) ⟨rfl, Nat.le_refl 0⟩ ?_ hg
    · exact ⟨hgrade.1, Nat.le_min.mpr ⟨hgrade.2, (wellFormed_randomVersor hT hx).le hg⟩⟩
    · rintro k i g ⟨hparity, hle⟩ - ⟨htriangle, -, -⟩ heven
      omega

end Clifford

/-! ## Draws in a negative line -/

/-- A line whose vector has a negative square. -/
noncomputable def Config.negativeLine : Config ℝ where
  name := "line"
  vectors := ["e"]
  metric := some [-1]

namespace Clifford

/-- The algebra of this line. -/
noncomputable def negativeLine : Clifford ℝ where
  config := .negativeLine
  table := .ofOrder 1 [[], [0]]
  metric := #[-1]

theorem ofConfig_negativeLine : ofConfig Config.negativeLine = .ok negativeLine :=
  ofConfig_eq_ok_iff.mpr ⟨[[], [0]], by decide +kernel, rfl⟩

/-- Functions on the real numbers; random products call the square root only. -/
@[reducible] noncomputable def realFunctions : Elementary.Functions ℝ where
  sqrt := Real.sqrt
  sin _ := 0
  cos _ := 1
  sinh _ := 0
  cosh _ := 1
  atan2 _ _ := 0
  pi := 3
  log2 _ := 0
  trunc x := x
  floor x := x
  toNat _ := 0

/-- Asks for a versor of one vector. -/
noncomputable def oneVectorRequest : Random.Request ℝ where
  scale := 2
  grade := 1
  basis := 1
  minimumNorm := 1 / 4
  largest := 2

section NegativeLine

variable (c : ℝ)

theorem value_gp_negativeLine : value negativeLine.geometricRule negativeLine
    (negativeLine.gp (.scalar 1) (negativeLine.vector #[c])) = .single 1 c := by
  have hT := lawful_of_ofConfig ofConfig_negativeLine
  have hv := wellFormed_vector hT (dimension_pos_of_ofConfig ofConfig_negativeLine) #[c]
  have hdimension : negativeLine.dimension = 1 := rfl
  have hplace : negativeLine.vectorPlace 0 = 0 := by decide +kernel
  rw [value_gp hT (Multivector.wellFormed_scalar hT 1) hv, value_scalar hT, one_smul, one_mul,
    value_vector hT, hdimension, Finset.sum_range_one, hplace]
  rfl

theorem norm2_gp_negativeLine :
    negativeLine.norm2 (negativeLine.gp (.scalar 1) (negativeLine.vector #[c])) = -(c * c) := by
  have hT := lawful_of_ofConfig ofConfig_negativeLine
  have hfactor : negativeLine.geometricRule.factor 1 1 = -1 := by
    have hsign : Blade.reorderingSign 1 1 = .plus := by decide +kernel
    have hvectors : Blade.vectors (1 &&& 1) = [0] := by decide +kernel
    rw [geometricRule_factor, Blade.coefficient_eq, hsign, Blade.metricFactor, hvectors]
    simp [Blade.square, negativeLine]
  have hreverse : Blade.reverseSign (Blade.grade 1) = .plus := by decide +kernel
  rw [norm2_eq hT (wellFormed_gp hT _ _), value_gp_negativeLine, BladeSum.reverse_single, hreverse,
    BladeSum.single_mul_single, BladeSum.single_apply, if_pos (by decide), hfactor,
    Sign.toScalar_plus]
  ring

theorem largestCoordinate_gp_negativeLine :
    (negativeLine.gp (.scalar 1) (negativeLine.vector #[c])).largestCoordinate ≤ |c| := by
  have hT := lawful_of_ofConfig ofConfig_negativeLine
  have hp := wellFormed_gp hT (.scalar 1) (negativeLine.vector #[c])
  refine (largestCoordinate_le_iff hT hp).mpr ⟨abs_nonneg c, fun i hi => ?_⟩
  rw [entry_eq_coordinate hT hp hi, ← abs_coefficient,
    ← value_apply_of_lt (R := negativeLine.geometricRule) (hT.blade_lt i hi),
    value_gp_negativeLine, BladeSum.single_apply]
  split
  · exact le_rfl
  · rw [abs_zero]
    exact abs_nonneg c

end NegativeLine

/-- The vector drawn is half a unit long. -/
theorem drawnProduct_negativeLine :
    let _ := realFunctions
    negativeLine.drawnProduct (WordSource.cycle #[0xc000000000000000]) .geometric
      oneVectorRequest 0 = negativeLine.gp (.scalar 1) (negativeLine.vector #[1 / 2]) := by
  have hword : ((0xc000000000000000 : UInt64) >>> 12).toNat = 3 * 2 ^ 50 := by decide
  have hhalf : (Random.signedDraw 0xc000000000000000 : ℝ) = 1 / 2 := by
    rw [Random.signedDraw, hword]
    norm_num [Nat.shiftLeft_eq]
  intro _
  have hgrade : oneVectorRequest.grade = 1 := rfl
  have hbasis : oneVectorRequest.basis = 1 := rfl
  have hdimension : negativeLine.dimension = 1 := rfl
  have hcomponents : (randomComponents (WordSource.cycle #[0xc000000000000000]) 1 (List.range 1)
      0 : List ℝ × Nat) = ([1 / 2], 0) := by
    rw [List.range_one, randomComponents, if_pos (by decide), ← hhalf]
    rfl
  rw [drawnProduct, hgrade, hbasis]
  simp only [randomFactors, randomVector, hdimension, hcomponents]
  rfl

/-- Whatever the sign of its square, it is accepted for every scale that may follow. -/
theorem exists_drawProduct_negativeLine :
    let _ := realFunctions
    ∃ x s', negativeLine.drawProduct (WordSource.cycle #[0xc000000000000000]) .geometric
      oneVectorRequest 0 = (some x, s') := by
  let _ := realFunctions
  have hnorm : Scalar.abs (negativeLine.norm2 (negativeLine.gp (.scalar 1)
      (negativeLine.vector #[1 / 2]))) = 1 / 2 * (1 / 2) := by
    rw [norm2_gp_negativeLine]
    exact (abs_neg _).trans (abs_mul_self _)
  have hroot : Elementary.sqrt (1 / 2 * (1 / 2) : ℝ) = 1 / 2 := Real.sqrt_mul_self (by norm_num)
  apply exists_drawProduct_eq
  · rw [drawnProduct_negativeLine, hnorm, oneVectorRequest]
    norm_num
  · intro w
    have hlargest := largestCoordinate_gp_negativeLine (1 / 2)
    rw [abs_of_pos (by norm_num)] at hlargest
    have hfactor : 2 * Random.unitDraw w / (1 / 2) ≤ (4 : ℝ) := by
      have hlt := unitDraw_lt_one (K := ℝ) w
      linarith
    have hnonneg : 0 ≤ 2 * Random.unitDraw w / (1 / 2 : ℝ) := by
      have := unitDraw_nonneg (K := ℝ) w
      positivity
    rw [drawnProduct_negativeLine, drawnFactor, hnorm, hroot, not_lt]
    calc _ ≤ 1 / 2 * (4 : ℝ) := mul_le_mul hlargest hfactor hnonneg (by norm_num)
      _ = oneVectorRequest.largest := by norm_num [oneVectorRequest]

/-- A random versor of one vector is a vector within the bounds. -/
theorem randomBounds_negativeLine :
    let _ := realFunctions
    ofConfig Config.negativeLine = .ok negativeLine ∧ 0 < oneVectorRequest.scale ∧
      ∃ x s', negativeLine.randomVersor (WordSource.cycle #[0xc000000000000000])
          oneVectorRequest 0 = (.ok x, s') ∧
        |negativeLine.norm2 x| < oneVectorRequest.scale ^ 2 ∧
        x.largestCoordinate ≤ oneVectorRequest.largest ∧
        ∀ g, x.grades.has g = true →
          g % 2 = oneVectorRequest.grade % 2 ∧ g ≤ min oneVectorRequest.grade 1 := by
  let _ := realFunctions
  have hscale : 0 < oneVectorRequest.scale := by norm_num [oneVectorRequest]
  obtain ⟨hbounds, -, hgrades, -, hcases⟩ := randomBounds_of_ofConfig ofConfig_negativeLine
    (fun y hy => ⟨Real.sqrt_nonneg y, Real.mul_self_sqrt hy⟩)
    (WordSource.cycle #[0xc000000000000000]) hscale 0
  have hversor : negativeLine.randomVersor (WordSource.cycle #[0xc000000000000000])
      oneVectorRequest 0 = negativeLine.randomProduct (WordSource.cycle #[0xc000000000000000])
        .geometric oneVectorRequest 0 := if_neg (by decide +kernel)
  rcases hcases .geometric with ⟨k, -, x, s', -, -, hx⟩ | ⟨hrejected, -⟩
  · rw [← hversor] at hx
    obtain ⟨hless, hlargest⟩ := hbounds x s' (.inr hx)
    exact ⟨ofConfig_negativeLine, hscale, x, s', hx, hless, hlargest, hgrades x s' hx⟩
  · obtain ⟨x, s', hx⟩ := exists_drawProduct_negativeLine
    have hnone := hrejected 0 (by decide)
    rw [attempt, afterDraws, hx] at hnone
    exact absurd hnone (by simp)

end Clifford

end GeometricAlgebra
