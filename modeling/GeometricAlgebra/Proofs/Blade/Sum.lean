/-
  GeometricAlgebra.Proofs.Blade.Sum

  Sums of canonical blades with coefficients in an ordered field.  A rule gives the factor with
  which two blades multiply; under it the sums are an algebra, and reversing the vectors of every
  blade reverses the order of a product.

    * `BladeRule`: the factors of a product, a cocycle that agrees with reversal.
    * `BladeSum.convolve`: the bilinear map that multiplies blades with given factors, and when two
      such maps in a row agree with two others.
    * `BladeSum.signed`: the map that gives every grade a sign, and when it respects such a map.
    * `BladeSum R`: the algebra of the rule `R`.
    * `BladeSum.mul_apply`: a product, coefficient by coefficient.
    * `BladeSum.reverse_mul`: the reverse of a product.
    * `BladeSum.HasGrades`: only blades of certain grades have a coefficient.
-/

import Mathlib.Algebra.Algebra.Basic
import Mathlib.LinearAlgebra.Finsupp.LinearCombination
import Mathlib.Tactic.LinearCombination
import GeometricAlgebra.Proofs.Blade.Reversal

namespace GeometricAlgebra

open Blade (grade reverseSign)

/-- A rule by which canonical blades multiply: the product of `a` and `b` is a factor times
    `a ^^^ b`. -/
@[ext] structure BladeRule (K : Type) [Field K] [LinearOrder K] where
  factor : Blade → Blade → K
  -- The scalar blade is the unit.
  factor_zero_left : ∀ b, factor 0 b = 1
  factor_zero_right : ∀ a, factor a 0 = 1
  -- Three blades have the same product in both orders of multiplication.
  factor_cocycle : ∀ a b c : Nat, factor a b * factor (a ^^^ b) c = factor b c * factor a (b ^^^ c)
  -- The reverse of a product is the product of the reverses in the opposite order.
  factor_reverse : ∀ a b : Nat, (reverseSign (grade (a ^^^ b))).toScalar * factor a b =
    (reverseSign (grade a)).toScalar * (reverseSign (grade b)).toScalar * factor b a

/-- Sums of canonical blades with coefficients, to be multiplied by a rule. -/
def BladeSum {K : Type} [Field K] [LinearOrder K] (_R : BladeRule K) : Type := Blade →₀ K

namespace BladeSum

variable {K : Type} [Field K] [LinearOrder K] {R : BladeRule K} {x y : BladeSum R}

noncomputable instance : AddCommGroup (BladeSum R) := inferInstanceAs (AddCommGroup (Blade →₀ K))

noncomputable instance : Module K (BladeSum R) := inferInstanceAs (Module K (Blade →₀ K))

instance : FunLike (BladeSum R) Blade K := inferInstanceAs (FunLike (Blade →₀ K) Blade K)

/-- A multiple of a blade. -/
noncomputable def single (b : Blade) (s : K) : BladeSum R := Finsupp.single b s

/-! ## Coefficients -/

@[ext] theorem ext (h : ∀ b, x b = y b) : x = y := DFunLike.ext x y h

@[simp] theorem zero_apply (b : Blade) : (0 : BladeSum R) b = 0 := rfl

@[simp] theorem add_apply (x y : BladeSum R) (b : Blade) : (x + y) b = x b + y b := rfl

@[simp] theorem sub_apply (x y : BladeSum R) (b : Blade) : (x - y) b = x b - y b := rfl

@[simp] theorem smul_apply (s : K) (x : BladeSum R) (b : Blade) : (s • x) b = s * x b := rfl

theorem single_apply (a b : Blade) (s : K) : (single a s : BladeSum R) b = if a = b then s else 0 :=
  Finsupp.single_apply

theorem smul_single (s t : K) (b : Blade) : s • (single b t : BladeSum R) = single b (s * t) :=
  Finsupp.smul_single' s b t

theorem single_eq_smul (b : Blade) (s : K) : (single b s : BladeSum R) = s • single b 1 := by
  rw [smul_single, mul_one]

@[simp] theorem single_zero (b : Blade) : (single b 0 : BladeSum R) = 0 := Finsupp.single_zero b

theorem single_add (b : Blade) (s t : K) :
    (single b (s + t) : BladeSum R) = single b s + single b t :=
  Finsupp.single_add b s t

@[simp] theorem sum_apply {ι : Type} (s : Finset ι) (f : ι → BladeSum R) (b : Blade) :
    (∑ i ∈ s, f i) b = ∑ i ∈ s, f i b :=
  map_sum (Finsupp.applyAddHom b) f s

/-- A sum of blades is the sum of its terms, over any set of blades that holds them all. -/
theorem sum_single {s : Finset Nat} (hs : ∀ b, x b ≠ 0 → b ∈ s) :
    ∑ b ∈ s, single b (x b) = x := by
  ext d
  simp only [sum_apply, single_apply, Finset.sum_ite_eq']
  by_cases hd : d ∈ s
  · rw [if_pos hd]
  · rw [if_neg hd]
    exact (not_not.mp fun h => hd (hs d h)).symm

/-- What holds of multiples of blades and passes to sums holds of all sums. -/
theorem induction {p : BladeSum R → Prop} (x : BladeSum R) (zero : p 0)
    (add : ∀ x y, p x → p y → p (x + y)) (single : ∀ b s, p (single b s)) : p x :=
  Finsupp.induction_linear x zero add single

/-- The linear map with the given images of the blades. -/
noncomputable def extend {M : Type} [AddCommGroup M] [Module K M] (f : Blade → M) :
    BladeSum R →ₗ[K] M :=
  Finsupp.linearCombination K f

@[simp] theorem extend_single {M : Type} [AddCommGroup M] [Module K M] (f : Blade → M) (b : Blade)
    (s : K) : extend f (single b s : BladeSum R) = s • f b :=
  Finsupp.linearCombination_single K s b

/-- Only the images of the blades with a coefficient matter. -/
theorem extend_congr {M : Type} [AddCommGroup M] [Module K M] {f g : Blade → M}
    (h : ∀ b, x b ≠ 0 → f b = g b) : extend f x = extend g x := by
  rw [← sum_single (s := Finsupp.support x) fun b hb => Finsupp.mem_support_iff.mpr hb,
    map_sum, map_sum]
  refine Finset.sum_congr rfl fun b hb => ?_
  rw [extend_single, extend_single, h b (Finsupp.mem_support_iff.mp hb)]

/-! ## Convolutions -/

/-- The bilinear map that takes two blades to their symmetric difference, with a factor. -/
noncomputable def convolve (f : Blade → Blade → K) :
    BladeSum R →ₗ[K] BladeSum R →ₗ[K] BladeSum R :=
  extend fun a => extend fun b => single (a ^^^ b) (f a b)

section Convolve

variable {f g f' g' : Blade → Blade → K}

theorem convolve_single (a b : Blade) (s t : K) :
    convolve f (single a s : BladeSum R) (single b t) = single (a ^^^ b) (s * t * f a b) := by
  rw [convolve, extend_single, LinearMap.smul_apply, extend_single, smul_single, smul_single,
    mul_assoc]

theorem convolve_single_apply (a : Blade) (s : K) (y : BladeSum R) (d : Blade) :
    convolve f (single a s) y d = f a (a ^^^ d) * s * y (a ^^^ d) := by
  induction y using induction with
  | zero => simp
  | add y y' hy hy' => rw [map_add, add_apply, hy, hy', add_apply, mul_add]
  | single b t =>
    rw [convolve_single, single_apply, single_apply]
    simp only [xor_eq_iff]
    by_cases hb : b = a ^^^ d
    · rw [if_pos hb, if_pos hb, ← hb]
      ring
    · rw [if_neg hb, if_neg hb, mul_zero]

theorem convolve_apply {s : Finset Nat} (hs : ∀ b, x b ≠ 0 → b ∈ s) (y : BladeSum R) (d : Blade) :
    convolve f x y d = ∑ a ∈ s, f a (a ^^^ d) * x a * y (a ^^^ d) := by
  calc convolve f x y d = convolve f (∑ a ∈ s, single a (x a)) y d := by rw [sum_single hs]
    _ = ∑ a ∈ s, f a (a ^^^ d) * x a * y (a ^^^ d) := by
        rw [map_sum, LinearMap.sum_apply, sum_apply]
        exact Finset.sum_congr rfl fun a _ => convolve_single_apply a (x a) y d

/-- Only factors of blades that both operands have matter. -/
theorem convolve_congr (h : ∀ a b, x a ≠ 0 → y b ≠ 0 → f a b = g a b) :
    convolve f x y = convolve g x y := by
  ext d
  have hs : ∀ b, x b ≠ 0 → b ∈ Finsupp.support x := fun b hb => Finsupp.mem_support_iff.mpr hb
  rw [convolve_apply hs, convolve_apply hs]
  refine Finset.sum_congr rfl fun a ha => ?_
  by_cases hb : y (a ^^^ d) = 0
  · rw [hb, mul_zero, mul_zero]
  · rw [h a _ (Finsupp.mem_support_iff.mp ha) hb]

theorem convolve_add (x y : BladeSum R) :
    convolve (fun a b => f a b + g a b) x y = convolve f x y + convolve g x y := by
  induction x using induction with
  | zero => simp
  | add x x' hx hx' => rw [map_add, map_add, map_add, LinearMap.add_apply, LinearMap.add_apply,
      LinearMap.add_apply, hx, hx', add_add_add_comm]
  | single a s =>
    ext d
    simp only [add_apply, convolve_single_apply]
    ring

theorem convolve_flip (x y : BladeSum R) : convolve (fun a b => f b a) x y = convolve f y x := by
  induction x using induction with
  | zero => simp
  | add x x' hx hx' => simp [hx, hx']
  | single a s =>
    induction y using induction with
    | zero => simp
    | add y y' hy hy' => simp [hy, hy']
    | single b t => rw [convolve_single, convolve_single, Nat.xor_comm, mul_comm s]

theorem convolve_apply_single (x : BladeSum R) (b : Blade) (s : K) (d : Blade) :
    convolve f x (single b s) d = f (b ^^^ d) b * x (b ^^^ d) * s := by
  rw [← convolve_flip, convolve_single_apply, mul_right_comm]

/-- Two convolutions in a row agree with two others if they do on blades. -/
theorem convolve_convolve
    (h : ∀ a b c : Nat, f a b * g (a ^^^ b) c = f' b c * g' a (b ^^^ c)) (x y z : BladeSum R) :
    convolve g (convolve f x y) z = convolve g' x (convolve f' y z) := by
  -- both sides are linear in each operand, so three blades decide
  induction x using induction with
  | zero => simp
  | add x x' hx hx' => simp [hx, hx']
  | single a s =>
    induction y using induction with
    | zero => simp
    | add y y' hy hy' => simp [hy, hy']
    | single b t =>
      induction z using induction with
      | zero => simp
      | add z z' hz hz' => simp [hz, hz']
      | single c u =>
        simp only [convolve_single, Nat.xor_assoc]
        congr 1
        linear_combination (s * t * u) * h a b c

end Convolve

/-! ## Signs of grades -/

/-- Gives every blade the sign of its grade. -/
noncomputable def signed (σ : Nat → Sign) : BladeSum R →ₗ[K] BladeSum R :=
  extend fun b => single b (σ (grade b)).toScalar

section Signed

variable {σ τ : Nat → Sign}

theorem signed_single (b : Blade) (s : K) :
    signed σ (single b s : BladeSum R) = single b ((σ (grade b)).toScalar * s) := by
  rw [signed, extend_single, smul_single, mul_comm]

@[simp] theorem signed_apply (x : BladeSum R) (b : Blade) :
    signed σ x b = (σ (grade b)).toScalar * x b := by
  induction x using induction with
  | zero => simp
  | add x x' hx hx' => simp [hx, hx', mul_add]
  | single a s =>
    rw [signed_single, single_apply, single_apply]
    by_cases hab : a = b
    · rw [if_pos hab, if_pos hab, hab]
    · rw [if_neg hab, if_neg hab, mul_zero]

@[simp] theorem signed_signed (x : BladeSum R) :
    signed σ (signed τ x) = signed (fun g => σ g * τ g) x := by
  ext b
  rw [signed_apply, signed_apply, signed_apply, Sign.toScalar_mul, mul_assoc]

/-- Signs of grades respect a convolution if they do so on blades. -/
theorem signed_convolve {f g : Blade → Blade → K}
    (h : ∀ a b : Nat, (σ (grade (a ^^^ b))).toScalar * f a b =
      (σ (grade a)).toScalar * (σ (grade b)).toScalar * g a b) (x y : BladeSum R) :
    signed σ (convolve f x y) = convolve g (signed σ x) (signed σ y) := by
  induction x using induction with
  | zero => simp
  | add x x' hx hx' => simp [hx, hx']
  | single a s =>
    induction y using induction with
    | zero => simp
    | add y y' hy hy' => simp [hy, hy']
    | single b t =>
      simp only [convolve_single, signed_single]
      congr 1
      linear_combination (s * t) * h a b

end Signed

/-! ## Products -/

noncomputable instance : Mul (BladeSum R) := ⟨fun x y => convolve R.factor x y⟩

noncomputable instance : One (BladeSum R) := ⟨single 0 1⟩

theorem mul_def (x y : BladeSum R) : x * y = convolve R.factor x y := rfl

theorem one_def : (1 : BladeSum R) = single 0 1 := rfl

theorem one_apply (b : Blade) : (1 : BladeSum R) b = if b = 0 then 1 else 0 := by
  rw [one_def, single_apply]
  exact if_congr eq_comm rfl rfl

@[simp] theorem single_mul_single (a b : Blade) (s t : K) :
    (single a s * single b t : BladeSum R) = single (a ^^^ b) (s * t * R.factor a b) :=
  convolve_single a b s t

protected theorem mul_assoc (x y z : BladeSum R) : x * y * z = x * (y * z) :=
  convolve_convolve R.factor_cocycle x y z

protected theorem one_mul (x : BladeSum R) : 1 * x = x := by
  simp only [mul_def]
  induction x using induction with
  | zero => simp
  | add x x' hx hx' => simp [hx, hx']
  | single a s => simp [← mul_def, one_def, R.factor_zero_left]

protected theorem mul_one (x : BladeSum R) : x * 1 = x := by
  simp only [mul_def]
  induction x using induction with
  | zero => simp
  | add x x' hx hx' => simp [hx, hx']
  | single a s => simp [← mul_def, one_def, R.factor_zero_right]

noncomputable instance : Ring (BladeSum R) where
  __ := (inferInstance : AddCommGroup (BladeSum R))
  mul_assoc := BladeSum.mul_assoc
  one_mul := BladeSum.one_mul
  mul_one := BladeSum.mul_one
  left_distrib x y z := by simp [mul_def]
  right_distrib x y z := by simp [mul_def]
  zero_mul x := by simp [mul_def]
  mul_zero x := by simp [mul_def]

noncomputable instance : Algebra K (BladeSum R) :=
  Algebra.ofModule (fun s x y => by simp [mul_def]) fun s x y => by simp [mul_def]

/-- A product is a convolution over symmetric differences. -/
theorem mul_apply {s : Finset Nat} (hs : ∀ b, x b ≠ 0 → b ∈ s) (y : BladeSum R) (d : Blade) :
    (x * y) d = ∑ a ∈ s, R.factor a (a ^^^ d) * x a * y (a ^^^ d) :=
  convolve_apply hs y d

/-- A blade of a product is the product of a blade of each factor. -/
theorem exists_of_mul_ne_zero {d : Blade} (h : (x * y) d ≠ 0) :
    ∃ a b : Nat, x a ≠ 0 ∧ y b ≠ 0 ∧ R.factor a b ≠ 0 ∧ a ^^^ b = d := by
  rw [mul_apply (s := Finsupp.support x) (fun b hb => Finsupp.mem_support_iff.mpr hb)] at h
  obtain ⟨a, -, ha⟩ := Finset.exists_ne_zero_of_sum_ne_zero h
  exact ⟨a, a ^^^ d, right_ne_zero_of_mul (left_ne_zero_of_mul ha), right_ne_zero_of_mul ha,
    left_ne_zero_of_mul (left_ne_zero_of_mul ha), Nat.xor_xor_cancel_left a d⟩

/-! ## Reversal -/

/-- Reverses the vectors of every blade. -/
noncomputable def reverse : BladeSum R →ₗ[K] BladeSum R := signed reverseSign

theorem reverse_single (b : Blade) (s : K) :
    reverse (single b s : BladeSum R) = single b ((reverseSign (grade b)).toScalar * s) :=
  signed_single b s

@[simp] theorem reverse_apply (x : BladeSum R) (b : Blade) :
    reverse x b = (reverseSign (grade b)).toScalar * x b :=
  signed_apply x b

@[simp] theorem reverse_reverse (x : BladeSum R) : reverse (reverse x) = x := by
  ext b
  rw [reverse_apply, reverse_apply, ← mul_assoc, Sign.toScalar_mul_self, one_mul]

/-- The reverse of a product is the product of the reverses in the opposite order. -/
theorem reverse_mul (x y : BladeSum R) : reverse (x * y) = reverse y * reverse x := by
  rw [reverse, mul_def, signed_convolve R.factor_reverse, convolve_flip, mul_def]

@[simp] theorem reverse_one : reverse (1 : BladeSum R) = 1 := by
  rw [one_def, reverse_single, Blade.grade_zero, mul_one]
  rfl

/-! ## Grades -/

/-- Only blades of certain grades have a coefficient. -/
def HasGrades (p : Nat → Prop) (x : BladeSum R) : Prop := ∀ b, x b ≠ 0 → p (grade b)

theorem HasGrades.add {p : Nat → Prop} (hx : HasGrades p x) (hy : HasGrades p y) :
    HasGrades p (x + y) := by
  intro b hb
  by_cases hxb : x b = 0
  · exact hy b fun hyb => hb (by rw [add_apply, hxb, hyb, add_zero])
  · exact hx b hxb

theorem hasGrades_single {b : Blade} {s : K} :
    HasGrades (· = grade b) (single b s : BladeSum R) := by
  intro d hd
  rw [single_apply] at hd
  by_cases hbd : b = d
  · rw [hbd]
  · exact absurd (if_neg hbd) hd

/-- What holds of multiples of blades of certain grades and passes to sums holds of all sums of
    such blades. -/
theorem HasGrades.induction {p : Nat → Prop} {q : BladeSum R → Prop} (hx : HasGrades p x)
    (zero : q 0) (add : ∀ x y, q x → q y → q (x + y))
    (single : ∀ b s, p (grade b) → q (BladeSum.single b s)) : q x := by
  rw [← sum_single (s := Finsupp.support x) fun b hb => Finsupp.mem_support_iff.mpr hb]
  apply Finset.sum_induction _ q add zero
  intro b hb
  exact single b _ (hx b (Finsupp.mem_support_iff.mp hb))

/-- A convolution with vectors is a derivation of another one, up to signs of grades, if it is one
    on blades. -/
theorem HasGrades.convolve_derivation {f g : Blade → Blade → K} {σ : Nat → Sign} {v : BladeSum R}
    (hv : HasGrades (· = 1) v)
    (h : ∀ u a b : Nat, grade u = 1 → f a b * g u (a ^^^ b) =
      g u a * f (u ^^^ a) b + (σ (grade a)).toScalar * (g u b * f a (u ^^^ b))) (x y : BladeSum R) :
    convolve g v (convolve f x y) =
      convolve f (convolve g v x) y + convolve f (signed σ x) (convolve g v y) := by
  apply hv.induction
  · simp
  · intro v v' hv hv'
    simp only [map_add, LinearMap.add_apply, hv, hv']
    exact add_add_add_comm _ _ _ _
  · intro u s hu
    induction x using BladeSum.induction with
    | zero => simp
    | add x x' hx hx' =>
      simp only [map_add, LinearMap.add_apply, hx, hx']
      exact add_add_add_comm _ _ _ _
    | single a t =>
      induction y using BladeSum.induction with
      | zero => simp
      | add y y' hy hy' =>
        simp only [map_add, hy, hy']
        exact add_add_add_comm _ _ _ _
      | single b r =>
        have hright : a ^^^ (u ^^^ b) = u ^^^ (a ^^^ b) := by
          rw [← Nat.xor_assoc, Nat.xor_comm a u, Nat.xor_assoc]
        simp only [convolve_single, signed_single, Nat.xor_assoc, hright, ← single_add]
        congr 1
        linear_combination (s * t * r) * h u a b hu

/-- Reversing vectors changes no vector. -/
theorem HasGrades.reverse_vector (h : HasGrades (· = 1) x) : reverse x = x := by
  ext b
  by_cases hb : x b = 0
  · rw [reverse_apply, hb, mul_zero]
  · rw [reverse_apply, h b hb]
    exact one_mul _

end BladeSum

end GeometricAlgebra
