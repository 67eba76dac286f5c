/-
  GeometricAlgebra.Proofs.Multivector.Series

  The exponential family beyond the closed forms, in exact arithmetic with any elementary functions.
  Both Taylor loops carry the last term along with the sum; after `n` steps the term is the `n`-th
  power divided by the factorial, and the sum weighs the terms so far.  A weight of one parity keeps
  the powers of that parity, so the sine is odd and the cosine is even.

    * `Clifford.value_taylorLoop`: the term and the sum of a Taylor loop.
    * `Clifford.value_taylorExp`, `value_alternatingSeries`: the two Taylor polynomials.
    * `Clifford.exponentials_of_ofConfig`: the exponential is a sum of an even and an odd function,
      in every accepted algebra and on every path.
-/

import Mathlib.Data.Nat.Factorial.Basic
import GeometricAlgebra.Proofs.Multivector.ClosedForms
import GeometricAlgebra.Proofs.Multivector.Duality

namespace GeometricAlgebra

namespace Clifford

open Nat (factorial)

/-! ## Taylor loops -/

section Definitions

/-- A Taylor loop: every step computes the next term and passes it to the sum. -/
def taylorLoop {α : Type} [Elementary α] (A : Clifford α) (x : Multivector α)
    (f : Multivector α → Multivector α → Nat → Multivector α) (s : Multivector α) (order : Nat) :
    Multivector α × Multivector α :=
  (List.range' 1 order).foldl
    (fun p i => (f p.1 (A.nextTerm x p.2 i) i, A.nextTerm x p.2 i)) (s, .scalar 1)

/-- What the alternating series does with a term. -/
def alternate {α : Type} [Scalar α] (A : Clifford α) (parity : Nat) (s t : Multivector α)
    (i : Nat) : Multivector α :=
  if i % 2 ≠ parity then s else if i / 2 % 2 = 0 then A.add s t else A.subtract s t

variable {K : Type} [Field K] [LinearOrder K]

/-- The weight of a term of the alternating series. -/
def alternatingWeight (parity i : Nat) : K := if i % 2 = parity then (-1) ^ (i / 2) else 0

/-- A step of a Taylor loop adds a multiple of the term to the sum. -/
structure AddsTerms (A : Clifford K) (f : Multivector K → Multivector K → Nat → Multivector K)
    (w : Nat → K) : Prop where
  wellFormed : ∀ {s t : Multivector K} (i : Nat), s.WellFormed A → t.WellFormed A →
    (f s t i).WellFormed A
  value_eq : ∀ {s t : Multivector K} (i : Nat), s.WellFormed A → t.WellFormed A →
    value A.geometricRule A (f s t i) =
      value A.geometricRule A s + w i • value A.geometricRule A t

end Definitions

section Steps

variable {K : Type} [Field K] [LinearOrder K] {A : Clifford K} (hT : A.table.Lawful)
include hT

theorem addsTerms_add : A.AddsTerms (fun s t _ => A.add s t) fun _ => 1 where
  wellFormed _ hs ht := wellFormed_add hs ht
  value_eq _ hs ht := by rw [value_add hT hs ht, one_smul]

theorem addsTerms_alternate (parity : Nat) :
    A.AddsTerms (A.alternate parity) (alternatingWeight parity) where
  wellFormed i hs ht := by
    unfold alternate
    split
    · exact hs
    · split
      · exact wellFormed_add hs ht
      · exact wellFormed_subtract hs ht
  value_eq i hs ht := by
    unfold alternate alternatingWeight
    by_cases hparity : i % 2 = parity
    · rw [if_neg (not_not.mpr hparity), if_pos hparity]
      -- the sign of a term that is kept has the parity of half its degree
      by_cases heven : i / 2 % 2 = 0
      · rw [if_pos heven, (Nat.even_iff.mpr heven).neg_one_pow, one_smul, value_add hT hs ht]
      · have hodd : i / 2 % 2 = 1 := by omega
        rw [if_neg heven, (Nat.odd_iff.mpr hodd).neg_one_pow, neg_one_smul,
          value_subtract hT hs ht, sub_eq_add_neg]
    · rw [if_pos hparity, if_neg hparity, zero_smul, add_zero]

end Steps

variable {K : Type} [Field K] [LinearOrder K] [IsStrictOrderedRing K] [Elementary.Functions K]
  {A : Clifford K} {R : BladeRule K} {x : Multivector K}

section Loop

variable (hT : A.table.Lawful)
include hT

theorem value_nextTerm (hx : x.WellFormed A) {t : Multivector K} (ht : t.WellFormed A) (i : Nat) :
    value A.geometricRule A (A.nextTerm x t i) =
      (i : K)⁻¹ • (value A.geometricRule A t * value A.geometricRule A x) := by
  rw [nextTerm, value_scale hT (wellFormed_gp hT t x), value_gp hT ht hx, one_div]

/-- The term after `order` steps is a power divided by a factorial, and the sum weighs the terms. -/
theorem value_taylorLoop {f : Multivector K → Multivector K → Nat → Multivector K} {w : Nat → K}
    (hf : A.AddsTerms f w) (hx : x.WellFormed A) {s : Multivector K} (hs : s.WellFormed A)
    (order : Nat) :
    let p := A.taylorLoop x f s order
    p.1.WellFormed A ∧ p.2.WellFormed A ∧
      value A.geometricRule A p.2 =
        (factorial order : K)⁻¹ • value A.geometricRule A x ^ order ∧
      value A.geometricRule A p.1 = value A.geometricRule A s +
        ∑ i ∈ Finset.range order, (w (i + 1) * (factorial (i + 1) : K)⁻¹) •
          value A.geometricRule A x ^ (i + 1) := by
  induction order with
  | zero =>
    refine ⟨hs, Multivector.wellFormed_scalar hT 1, ?_, ?_⟩
    · rw [Nat.factorial_zero, Nat.cast_one, inv_one, pow_zero]
      exact value_scalar hT 1
    · rw [Finset.range_zero, Finset.sum_empty, add_zero]
      rfl
  | succ n ih =>
    obtain ⟨hsum, hterm, hvterm, hvsum⟩ := ih
    have hstep : A.taylorLoop x f s (n + 1) =
        (f (A.taylorLoop x f s n).1 (A.nextTerm x (A.taylorLoop x f s n).2 (n + 1)) (n + 1),
          A.nextTerm x (A.taylorLoop x f s n).2 (n + 1)) := by
      rw [taylorLoop, List.range'_concat, List.foldl_append, Nat.one_mul, Nat.add_comm 1 n]
      rfl
    have hnext := wellFormed_nextTerm hT x (A.taylorLoop x f s n).2 (n + 1)
    have hvnext : value A.geometricRule A (A.nextTerm x (A.taylorLoop x f s n).2 (n + 1)) =
        (factorial (n + 1) : K)⁻¹ • value A.geometricRule A x ^ (n + 1) := by
      rw [value_nextTerm hT hx hterm, hvterm, smul_mul_assoc, smul_smul, ← pow_succ,
        Nat.factorial_succ, Nat.cast_mul, mul_inv]
    rw [hstep]
    refine ⟨hf.wellFormed _ hsum hnext, hnext, hvnext, ?_⟩
    rw [hf.value_eq _ hsum hnext, hvsum, hvnext, smul_smul, Finset.sum_range_succ, add_assoc]

end Loop

/-! ## Taylor polynomials -/

section Polynomials

variable (hT : A.table.Lawful)
include hT

/-- The Taylor polynomial of the exponential. -/
theorem value_taylorExp (hx : x.WellFormed A) (order : Nat) :
    value A.geometricRule A (A.taylorExp x order) = ∑ i ∈ Finset.range (order + 1),
      (factorial i : K)⁻¹ • value A.geometricRule A x ^ i := by
  have hone := Multivector.wellFormed_scalar (A := A) hT (1 : K)
  obtain ⟨-, -, -, hsum⟩ := value_taylorLoop hT (addsTerms_add hT) hx hone order
  have hloop : A.taylorExp x order =
      (A.taylorLoop x (fun s t _ => A.add s t) (.scalar 1) order).1 := rfl
  rw [hloop, hsum, Finset.sum_range_succ', add_comm, value_scalar hT]
  simp

/-- The Taylor polynomials of the sine and the cosine. -/
theorem value_alternatingSeries (hx : x.WellFormed A) (order parity : Nat) :
    value A.geometricRule A (A.alternatingSeries x order parity) =
      ∑ i ∈ Finset.range (order + 1),
        (alternatingWeight parity i * (factorial i : K)⁻¹) • value A.geometricRule A x ^ i := by
  have hstart : (if parity = 0 then .scalar 1 else .zero : Multivector K).WellFormed A := by
    split
    · exact Multivector.wellFormed_scalar hT 1
    · exact Multivector.wellFormed_zero
  obtain ⟨-, -, -, hsum⟩ := value_taylorLoop hT (addsTerms_alternate hT parity) hx hstart order
  have hloop : A.alternatingSeries x order parity =
      (A.taylorLoop x (A.alternate parity) (if parity = 0 then .scalar 1 else .zero) order).1 := by
    rw [alternatingSeries, taylorLoop]
    congr 2
    funext ⟨s, t⟩ i
    simp only [alternate]
    split
    · rfl
    · split <;> rfl
  rw [hloop, hsum, Finset.sum_range_succ', add_comm]
  congr 1
  -- the first sum is the term of degree zero
  by_cases hparity : parity = 0
  · rw [if_pos hparity, value_scalar hT, hparity]
    simp [alternatingWeight]
  · rw [if_neg hparity, value_zero, alternatingWeight, if_neg (Ne.symm hparity), zero_mul,
      zero_smul]

/-- The series keeps powers of one parity, so it has that parity itself. -/
theorem value_alternatingSeries_negate (hx : x.WellFormed A) (order parity : Nat) :
    value A.geometricRule A (A.alternatingSeries x.negate order parity) =
      (-1 : K) ^ parity • value A.geometricRule A (A.alternatingSeries x order parity) := by
  rw [value_alternatingSeries hT (wellFormed_negate hx), value_alternatingSeries hT hx,
    value_negate hT hx, Finset.smul_sum]
  refine Finset.sum_congr rfl fun i _ => ?_
  rw [smul_comm]
  by_cases hparity : i % 2 = parity
  · congr 1
    rcases Nat.mod_two_eq_zero_or_one i with heven | hodd
    · rw [← hparity, heven, (Nat.even_iff.mpr heven).neg_pow, pow_zero, one_smul]
    · rw [← hparity, hodd, (Nat.odd_iff.mpr hodd).neg_pow, pow_one, neg_one_smul]
  · rw [alternatingWeight, if_neg hparity, zero_mul, zero_smul, zero_smul]

end Polynomials

/-! ## Parities -/

theorem half_add_half : (half + half : K) = 1 := by
  rw [half, Nat.cast_ofNat]
  norm_num

omit [IsStrictOrderedRing K] in
/-- Beyond the closed forms the circular functions are their series. -/
theorem sin_of_not_square (h : A.scalarSquare? x = none) (order : Nat) :
    A.sin x order = A.alternatingSeries x order 1 := by
  rw [sin, h]
  rfl

omit [IsStrictOrderedRing K] in
theorem cos_of_not_square (h : A.scalarSquare? x = none) (order : Nat) :
    A.cos x order = A.alternatingSeries x order 0 := by
  rw [cos, h]
  rfl

section Parities

variable (hT : A.table.Lawful) (hx : x.WellFormed A) (order : Nat)
include hT hx

/-- Beyond the closed forms, the hyperbolic functions are halves of exponentials. -/
theorem value_sinh_of_not_square (h : A.scalarSquare? x = none) :
    value R A (A.sinh x order) =
      (half : K) • (value R A (A.exp x order) - value R A (A.exp x.negate order)) := by
  have hexp := wellFormed_exp hT hx order
  have hexp' := wellFormed_exp hT (wellFormed_negate hx) order
  rw [sinh, h, ← value_subtract hT hexp hexp']
  exact value_scale hT (wellFormed_subtract hexp hexp') half

theorem value_cosh_of_not_square (h : A.scalarSquare? x = none) :
    value R A (A.cosh x order) =
      (half : K) • (value R A (A.exp x order) + value R A (A.exp x.negate order)) := by
  have hexp := wellFormed_exp hT hx order
  have hexp' := wellFormed_exp hT (wellFormed_negate hx) order
  rw [cosh, h, ← value_add hT hexp hexp']
  exact value_scale hT (wellFormed_add hexp hexp') half

/-- The exponential is the sum of the hyperbolic functions. -/
theorem agree_exp : A.Agree (A.exp x order) (A.add (A.cosh x order) (A.sinh x order)) := by
  rw [agree_iff (R := A.geometricRule),
    value_add hT (wellFormed_cosh hT hx order) (wellFormed_sinh hT hx order)]
  cases hsquare : A.scalarSquare? x with
  | some s =>
    rw [value_exp_of_square hsquare order hT hx, cosh_of_square hsquare, value_scalar hT,
      value_sinh_of_square hsquare order hT hx, add_comm]
  | none =>
    rw [value_cosh_of_not_square hT hx order hsquare, value_sinh_of_not_square hT hx order hsquare,
      ← smul_add, add_add_sub_cancel, ← two_smul K, smul_smul, mul_two, half_add_half, one_smul]

theorem agree_sinh_negate : A.Agree (A.sinh x.negate order) (A.sinh x order).negate := by
  have hnegate := wellFormed_negate hx
  rw [agree_iff (R := A.geometricRule), value_negate hT (wellFormed_sinh hT hx order)]
  have hsame := scalarSquare?_negate hT hx
  cases hsquare : A.scalarSquare? x with
  | some s =>
    rw [value_sinh_of_square (hsame.trans hsquare) order hT hnegate,
      value_sinh_of_square hsquare order hT hx, value_negate hT hx, smul_neg]
  | none =>
    rw [value_sinh_of_not_square hT hnegate order (hsame.trans hsquare),
      value_sinh_of_not_square hT hx order hsquare, Multivector.negate_negate, ← smul_neg, neg_sub]

theorem agree_cosh_negate : A.Agree (A.cosh x.negate order) (A.cosh x order) := by
  have hnegate := wellFormed_negate hx
  have hsame := scalarSquare?_negate hT hx
  cases hsquare : A.scalarSquare? x with
  | some s =>
    rw [cosh_of_square (hsame.trans hsquare), cosh_of_square hsquare]
    exact .of_eq rfl
  | none =>
    rw [agree_iff (R := A.geometricRule),
      value_cosh_of_not_square hT hnegate order (hsame.trans hsquare),
      value_cosh_of_not_square hT hx order hsquare, Multivector.negate_negate, add_comm]

theorem agree_sin_negate : A.Agree (A.sin x.negate order) (A.sin x order).negate := by
  have hnegate := wellFormed_negate hx
  rw [agree_iff (R := A.geometricRule), value_negate hT (wellFormed_sin hT hx order)]
  have hsame := scalarSquare?_negate hT hx
  cases hsquare : A.scalarSquare? x with
  | some s =>
    rw [value_sin_of_square (hsame.trans hsquare) order hT hnegate,
      value_sin_of_square hsquare order hT hx, value_negate hT hx, smul_neg]
  | none =>
    rw [sin_of_not_square (hsame.trans hsquare), sin_of_not_square hsquare,
      value_alternatingSeries_negate hT hx, pow_one, neg_one_smul]

theorem agree_cos_negate : A.Agree (A.cos x.negate order) (A.cos x order) := by
  have hsame := scalarSquare?_negate hT hx
  cases hsquare : A.scalarSquare? x with
  | some s =>
    rw [cos_of_square (hsame.trans hsquare), cos_of_square hsquare]
    exact .of_eq rfl
  | none =>
    rw [cos_of_not_square (hsame.trans hsquare), cos_of_not_square hsquare,
      agree_iff (R := A.geometricRule), value_alternatingSeries_negate hT hx, pow_zero, one_smul]

end Parities

/-- In exact arithmetic, in every accepted algebra, whatever the elementary functions are: for every
    multivector, whether its square counts as a scalar or not, and every order, the exponential is
    the sum of the hyperbolic cosine and the hyperbolic sine; the sines are odd, and the cosines are
    even. -/
theorem exponentials_of_ofConfig {c : Config K} (h : ofConfig c = .ok A) (hx : x.WellFormed A)
    (order : Nat) :
    A.Agree (A.exp x order) (A.add (A.cosh x order) (A.sinh x order)) ∧
      A.Agree (A.sinh x.negate order) (A.sinh x order).negate ∧
      A.Agree (A.sin x.negate order) (A.sin x order).negate ∧
      A.Agree (A.cosh x.negate order) (A.cosh x order) ∧
      A.Agree (A.cos x.negate order) (A.cos x order) := by
  have hT := lawful_of_ofConfig h
  exact ⟨agree_exp hT hx order, agree_sinh_negate hT hx order, agree_sin_negate hT hx order,
    agree_cosh_negate hT hx order, agree_cos_negate hT hx order⟩

/-- Rational numbers in place of the values of the elementary functions. -/
@[reducible] def roughFunctions : Elementary.Functions ℚ where
  sqrt t := (1 + t) / 2
  sin t := t
  cos t := 1 - t ^ 2 / 2
  sinh t := t + t ^ 3 / 6
  cosh t := 1 + t ^ 2 / 2
  atan2 y x := y / x
  pi := 22 / 7
  log2 t := Nat.log2 ⌊t⌋₊
  trunc t := if 0 ≤ t then ⌊t⌋ else ⌈t⌉
  floor t := ⌊t⌋
  toNat t := ⌊t⌋₊

/-- A vector, whose square is a scalar, and a scalar plus a vector, whose square is not. -/
theorem exponentials_turnedSpace :
    let _ := roughFunctions
    ofConfig (.hyperbolicSpace (some Config.turnedBlades)) = .ok turnedSpace ∧
      let v := turnedSpace.vector #[1, 2, 0]
      let x : Multivector ℚ := ⟨3, #[1, 0, 1, 3]⟩
      turnedSpace.scalarSquare? v = some 9 ∧ turnedSpace.scalarSquare? x = none ∧
        turnedSpace.Agree (turnedSpace.exp v 3)
          (turnedSpace.add (turnedSpace.cosh v 3) (turnedSpace.sinh v 3)) ∧
        turnedSpace.Agree (turnedSpace.exp x 3)
          (turnedSpace.add (turnedSpace.cosh x 3) (turnedSpace.sinh x 3)) ∧
        turnedSpace.Agree (turnedSpace.sinh x.negate 3) (turnedSpace.sinh x 3).negate ∧
        turnedSpace.Agree (turnedSpace.sin x.negate 3) (turnedSpace.sin x 3).negate ∧
        turnedSpace.Agree (turnedSpace.cosh x.negate 3) (turnedSpace.cosh x 3) ∧
        turnedSpace.Agree (turnedSpace.cos x.negate 3) (turnedSpace.cos x 3) ∧
        turnedSpace.cos x 3 ≠ .scalar 1 := by
  let _ := roughFunctions
  have hA := ofConfig_turnedSpace
  have hv := wellFormed_vector (lawful_of_ofConfig hA) (dimension_pos_of_ofConfig hA) #[1, 2, 0]
  have hx := wellFormed_ofCoords (show turnedSpace.ofCoords 3 #[1, 0, 1, 3] =
    .ok ⟨3, #[1, 0, 1, 3]⟩ by decide +kernel)
  obtain ⟨hexp, hsinh, hsin, hcosh, hcos⟩ := exponentials_of_ofConfig hA hx 3
  exact ⟨hA, by decide +kernel, by decide +kernel, (exponentials_of_ofConfig hA hv 3).1, hexp,
    hsinh, hsin, hcosh, hcos, by decide +kernel⟩

end Clifford

end GeometricAlgebra
