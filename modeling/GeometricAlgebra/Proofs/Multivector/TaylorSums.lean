/-
  GeometricAlgebra.Proofs.Multivector.TaylorSums

  What the series of the exponential family compute, in exact arithmetic: truncated Taylor
  polynomials in the geometric powers of the argument, coordinate by coordinate.  Powers are taken
  one factor at a time; the exponential squares its polynomial, which is a power of two because
  powers of one multivector associate.

    * `Clifford.power`: the geometric powers of a multivector.
    * `Clifford.value_squareTimes`: repeated squaring is a power.
    * `Clifford.isExpSum_taylorExp`, `isAlternatingSum_alternatingSeries`: the two polynomials.
    * `Clifford.taylorSums_of_ofConfig`: the series, in every accepted algebra.
-/

import GeometricAlgebra.Proofs.Multivector.Series

namespace GeometricAlgebra

namespace Clifford

open Nat (factorial)

/-! ## Powers and sums of powers -/

section Definitions

/-- The geometric powers of a multivector. -/
def power {α : Type} [Scalar α] (A : Clifford α) (x : Multivector α) : Nat → Multivector α
  | 0 => .scalar 1
  | i + 1 => A.gp (A.power x i) x

variable {K : Type} [Field K] [LinearOrder K]

/-- In every coordinate, `y` is the sum over the `j` in `s` of the powers `e j` of `x`, each with
    the weight `w j`. -/
structure IsPowerSum (A : Clifford K) (x : Multivector K) (s : Finset Nat) (e : Nat → Nat)
    (w : Nat → K) (y : Multivector K) : Prop where
  wellFormed : y.WellFormed A
  coordinate_eq : ∀ b < 2 ^ A.dimension,
    A.coordinate y b = ∑ j ∈ s, w j * A.coordinate (A.power x (e j)) b

/-- The Taylor polynomial of the exponential up to a degree. -/
def IsExpSum (A : Clifford K) (x : Multivector K) (order : Nat) (y : Multivector K) : Prop :=
  A.IsPowerSum x (Finset.range (order + 1)) (fun i => i) (fun i => 1 / (factorial i : K)) y

/-- The Taylor polynomial of the cosine, for parity zero, or of the sine, for parity one: the
    powers `2 j + parity` up to a degree, with alternating signs. -/
def IsAlternatingSum (A : Clifford K) (x : Multivector K) (order parity : Nat)
    (y : Multivector K) : Prop :=
  A.IsPowerSum x {j ∈ Finset.range (order + 1) | 2 * j + parity ≤ order}
    (fun j => 2 * j + parity) (fun j => (-1) ^ j / (factorial (2 * j + parity) : K)) y

end Definitions

variable {K : Type} [Field K] [LinearOrder K] [IsStrictOrderedRing K] {A : Clifford K}
  {x y : Multivector K}

section Powers

variable (hT : A.table.Lawful)
include hT

omit [IsStrictOrderedRing K] in
theorem wellFormed_power (x : Multivector K) (i : Nat) : (A.power x i).WellFormed A := by
  cases i with
  | zero => exact Multivector.wellFormed_scalar hT 1
  | succ i => exact wellFormed_gp hT _ _

theorem value_power (hx : x.WellFormed A) (i : Nat) :
    value A.geometricRule A (A.power x i) = value A.geometricRule A x ^ i := by
  induction i with
  | zero => rw [power, value_scalar hT, one_smul, pow_zero]
  | succ i ih => rw [power, value_gp hT (wellFormed_power hT x i) hx, ih, pow_succ]

/-- The coordinates of a sum of powers, read off its value. -/
theorem isPowerSum_of_value (hx : x.WellFormed A) (hy : y.WellFormed A) {s : Finset Nat}
    {e : Nat → Nat} {w : Nat → K}
    (h : value A.geometricRule A y = ∑ j ∈ s, w j • value A.geometricRule A x ^ e j) :
    A.IsPowerSum x s e w y := by
  refine ⟨hy, fun b hb => mul_left_cancel₀ (Sign.toScalar_ne_zero (A.table.signOf b)) ?_⟩
  have hcoefficient := congrArg (fun v : BladeSum A.geometricRule => v b) h
  simp only [BladeSum.sum_apply, BladeSum.smul_apply, ← value_power hT hx,
    value_apply_of_lt hb] at hcoefficient
  calc (A.table.signOf b).toScalar * A.coordinate y b = A.coefficient y b := rfl
    _ = ∑ j ∈ s, w j * A.coefficient (A.power x (e j)) b := hcoefficient
    _ = ∑ j ∈ s, (A.table.signOf b).toScalar * (w j * A.coordinate (A.power x (e j)) b) :=
        Finset.sum_congr rfl fun j _ => mul_left_comm _ _ _
    _ = _ := (Finset.mul_sum _ _ _).symm

variable [Elementary.Functions K]

/-- Squaring `k` times takes a power of two. -/
theorem value_squareTimes (hx : x.WellFormed A) (k : Nat) :
    value A.geometricRule A (A.squareTimes k x) = value A.geometricRule A x ^ 2 ^ k := by
  induction k generalizing x with
  | zero => rw [squareTimes, pow_zero, pow_one]
  | succ k ih =>
    rw [squareTimes, ih (wellFormed_gp hT x x), value_gp hT hx hx, ← sq, ← pow_mul, ← pow_succ']

theorem agree_squareTimes (hx : x.WellFormed A) (k : Nat) :
    A.Agree (A.squareTimes k x) (A.power x (2 ^ k)) := by
  rw [agree_iff (R := A.geometricRule), value_squareTimes hT hx, value_power hT hx]

end Powers

/-! ## The series -/

omit [IsStrictOrderedRing K] in
theorem twoPow_eq (k : Nat) : (Scalar.twoPow k : K) = 2 ^ k := by
  induction k with
  | zero => rw [pow_zero]; rfl
  | succ k ih => rw [pow_succ, mul_two, ← ih]; rfl

/-- The numbers of one parity up to a bound, by their halves. -/
theorem sum_range_parity {M : Type*} [AddCommMonoid M] {parity : Nat} (hparity : parity < 2)
    (order : Nat) (f : Nat → M) :
    ∑ i ∈ Finset.range (order + 1) with i % 2 = parity, f i =
      ∑ j ∈ Finset.range (order + 1) with 2 * j + parity ≤ order, f (2 * j + parity) := by
  refine Finset.sum_nbij' (· / 2) (2 * · + parity) ?_ ?_ ?_ ?_ ?_
  · intro i hi
    simp only [Finset.mem_filter, Finset.mem_range] at hi ⊢
    omega
  · intro j hj
    simp only [Finset.mem_filter, Finset.mem_range] at hj ⊢
    omega
  · intro i hi
    simp only [Finset.mem_filter, Finset.mem_range] at hi
    omega
  · intro j _
    omega
  · intro i hi
    simp only [Finset.mem_filter, Finset.mem_range] at hi
    rw [show 2 * (i / 2) + parity = i by omega]

section Series

variable [Elementary.Functions K] (hT : A.table.Lawful) (hx : x.WellFormed A) (order : Nat)
include hT hx

theorem isExpSum_taylorExp : A.IsExpSum x order (A.taylorExp x order) := by
  refine isPowerSum_of_value hT hx (wellFormed_taylorExp hT x order) ?_
  rw [value_taylorExp hT hx]
  simp only [one_div]

theorem isAlternatingSum_alternatingSeries {parity : Nat} (hparity : parity < 2) :
    A.IsAlternatingSum x order parity (A.alternatingSeries x order parity) := by
  refine isPowerSum_of_value hT hx (wellFormed_alternatingSeries hT x order parity) ?_
  have hweight : ∀ j, alternatingWeight (K := K) parity (2 * j + parity) = (-1) ^ j := by
    intro j
    rw [alternatingWeight, if_pos (by omega), show (2 * j + parity) / 2 = j by omega]
  calc value A.geometricRule A (A.alternatingSeries x order parity)
      = ∑ i ∈ Finset.range (order + 1) with i % 2 = parity,
          (alternatingWeight parity i * (factorial i : K)⁻¹) • value A.geometricRule A x ^ i := by
        -- powers of the other parity have no weight
        rw [value_alternatingSeries hT hx, Finset.sum_filter]
        refine Finset.sum_congr rfl fun i _ => ?_
        by_cases hi : i % 2 = parity
        · rw [if_pos hi]
        · rw [if_neg hi, alternatingWeight, if_neg hi, zero_mul, zero_smul]
    _ = _ := by
        rw [sum_range_parity hparity order]
        simp only [hweight, div_eq_mul_inv]

/-- The series of the exponential, as a power of a Taylor polynomial. -/
theorem exists_expSum {k : Nat} (hk : scaleExponent x.largestCoordinate = k) :
    ∃ E, A.IsExpSum (A.scale x (1 / 2 ^ k)) order E ∧
      A.Agree (A.expSeries x order) (A.power E (2 ^ k)) := by
  have hscale := wellFormed_scale hT hx (1 / 2 ^ k)
  refine ⟨A.taylorExp (A.scale x (1 / 2 ^ k)) order, isExpSum_taylorExp hT hscale order, ?_⟩
  rw [expSeries, hk]
  by_cases horder : order = 0
  · -- the loop is not entered, and every power of one is one
    have hone := Multivector.wellFormed_scalar (A := A) hT (1 : K)
    rw [if_pos horder, horder, agree_iff (R := A.geometricRule),
      show A.taylorExp (A.scale x (1 / 2 ^ k)) 0 = .scalar 1 from rfl, value_power hT hone,
      value_scalar hT, one_smul, one_pow]
  · rw [if_neg horder]
    show A.Agree (A.squareTimes k (A.taylorExp (A.scale x (1 / Scalar.twoPow k)) order)) _
    rw [twoPow_eq]
    exact agree_squareTimes hT (wellFormed_taylorExp hT _ order) k

end Series

/-! ## Hyperbolic halves -/

omit [IsStrictOrderedRing K] in
theorem coordinate_add (hT : A.table.Lawful) (hx : x.WellFormed A) (hy : y.WellFormed A) {b : Nat}
    (hb : b < 2 ^ A.dimension) :
    A.coordinate (A.add x y) b = A.coordinate x b + A.coordinate y b := by
  rw [coordinate_eq_entry hT (wellFormed_add hx hy) hb, coordinate_eq_entry hT hx hb,
    coordinate_eq_entry hT hy hb, entry_add hT hx hy (hT.index_lt b hb)]

omit [IsStrictOrderedRing K] in
theorem coordinate_negate (hT : A.table.Lawful) (hx : x.WellFormed A) {b : Nat}
    (hb : b < 2 ^ A.dimension) : A.coordinate x.negate b = -A.coordinate x b := by
  rw [Multivector.negate, coordinate_eq_entry hT (hx.map _) hb,
    entry_map hT hx neg_zero (hT.index_lt b hb), ← coordinate_eq_entry hT hx hb]

section Halves

variable [Elementary.Functions K] (hT : A.table.Lawful) (hx : x.WellFormed A) (order : Nat)
  {b : Nat} (hb : b < 2 ^ A.dimension)
include hT hx hb

theorem coordinate_exp : A.coordinate (A.exp x order) b =
    A.coordinate (A.cosh x order) b + A.coordinate (A.sinh x order) b := by
  rw [agree_exp hT hx order b hb,
    coordinate_add hT (wellFormed_cosh hT hx order) (wellFormed_sinh hT hx order) hb]

theorem coordinate_exp_negate : A.coordinate (A.exp x.negate order) b =
    A.coordinate (A.cosh x order) b - A.coordinate (A.sinh x order) b := by
  rw [coordinate_exp hT (wellFormed_negate hx) order hb, agree_cosh_negate hT hx order b hb,
    agree_sinh_negate hT hx order b hb, coordinate_negate hT (wellFormed_sinh hT hx order) hb,
    sub_eq_add_neg]

/-- On every path the hyperbolic sine is the odd half of the exponential. -/
theorem coordinate_sinh : A.coordinate (A.sinh x order) b =
    (A.coordinate (A.exp x order) b - A.coordinate (A.exp x.negate order) b) / 2 := by
  rw [coordinate_exp hT hx order hb, coordinate_exp_negate hT hx order hb]
  ring

/-- The hyperbolic cosine is the even half. -/
theorem coordinate_cosh : A.coordinate (A.cosh x order) b =
    (A.coordinate (A.exp x order) b + A.coordinate (A.exp x.negate order) b) / 2 := by
  rw [coordinate_exp hT hx order hb, coordinate_exp_negate hT hx order hb]
  ring

end Halves

/-! ## Every accepted algebra -/

/-- In exact arithmetic, in every accepted algebra, whatever the elementary functions are: for every
    multivector and every order, the series of the exponential is the Taylor polynomial of the
    argument divided by a power of two, taken to that power; the alternating series are the Taylor
    polynomials of cosine and sine, and so are these functions where no closed form applies; and on
    every path the hyperbolic functions are the halves of the exponentials of the argument and its
    opposite. -/
theorem taylorSums_of_ofConfig [Elementary.Functions K] {c : Config K} (h : ofConfig c = .ok A)
    (hx : x.WellFormed A) (order : Nat) :
    (∃ E, A.IsExpSum (A.scale x (1 / 2 ^ scaleExponent x.largestCoordinate)) order E ∧
      A.Agree (A.expSeries x order) (A.power E (2 ^ scaleExponent x.largestCoordinate))) ∧
    (∀ parity < 2, A.IsAlternatingSum x order parity (A.alternatingSeries x order parity)) ∧
    (A.scalarSquare? x = none → A.IsAlternatingSum x order 1 (A.sin x order) ∧
      A.IsAlternatingSum x order 0 (A.cos x order)) ∧
    ∀ b < 2 ^ A.dimension,
      A.coordinate (A.sinh x order) b =
        (A.coordinate (A.exp x order) b - A.coordinate (A.exp x.negate order) b) / 2 ∧
      A.coordinate (A.cosh x order) b =
        (A.coordinate (A.exp x order) b + A.coordinate (A.exp x.negate order) b) / 2 := by
  have hT := lawful_of_ofConfig h
  have halternating : ∀ parity < 2,
      A.IsAlternatingSum x order parity (A.alternatingSeries x order parity) :=
    fun parity hparity => isAlternatingSum_alternatingSeries hT hx order hparity
  refine ⟨exists_expSum hT hx order rfl, halternating, ?_, ?_⟩
  · intro hsquare
    rw [sin_of_not_square hsquare, cos_of_not_square hsquare]
    exact ⟨halternating 1 (by decide), halternating 0 (by decide)⟩
  · intro b hb
    exact ⟨coordinate_sinh hT hx order hb, coordinate_cosh hT hx order hb⟩

/-- A scalar plus a vector, whose square is no scalar; it is halved three times. -/
theorem taylorSums_turnedSpace :
    let _ := roughFunctions
    ofConfig (.hyperbolicSpace (some Config.turnedBlades)) = .ok turnedSpace ∧
      let x : Multivector ℚ := ⟨3, #[1, 0, 1, 3]⟩
      x.WellFormed turnedSpace ∧ scaleExponent x.largestCoordinate = 3 ∧
        (∃ E, turnedSpace.IsExpSum (turnedSpace.scale x (1 / 2 ^ 3)) 3 E ∧
          turnedSpace.Agree (turnedSpace.expSeries x 3) (turnedSpace.power E (2 ^ 3))) ∧
        turnedSpace.scalarSquare? x = none ∧
        turnedSpace.IsAlternatingSum x 3 1 (turnedSpace.sin x 3) ∧
        turnedSpace.IsAlternatingSum x 3 0 (turnedSpace.cos x 3) ∧
        turnedSpace.coordinate (turnedSpace.sinh x 3) 1 =
          (turnedSpace.coordinate (turnedSpace.exp x 3) 1 -
            turnedSpace.coordinate (turnedSpace.exp x.negate 3) 1) / 2 := by
  let _ := roughFunctions
  have hx := wellFormed_ofCoords (show turnedSpace.ofCoords 3 #[1, 0, 1, 3] =
    .ok ⟨3, #[1, 0, 1, 3]⟩ by decide +kernel)
  have hk : scaleExponent (Multivector.largestCoordinate (α := ℚ) ⟨3, #[1, 0, 1, 3]⟩) = 3 := by
    decide +kernel
  have hsquare : turnedSpace.scalarSquare? ⟨3, #[1, 0, 1, 3]⟩ = none := by decide +kernel
  obtain ⟨hexp, -, hcircular, hhalves⟩ := taylorSums_of_ofConfig ofConfig_turnedSpace hx 3
  rw [hk] at hexp
  obtain ⟨hsin, hcos⟩ := hcircular hsquare
  exact ⟨ofConfig_turnedSpace, hx, hk, hexp, hsquare, hsin, hcos, (hhalves 1 (by decide)).1⟩

end Clifford

end GeometricAlgebra
