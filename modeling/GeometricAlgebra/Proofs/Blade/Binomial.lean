/-
  GeometricAlgebra.Proofs.Blade.Binomial

  `Blade.binomial` counts sets of vectors: after `i` factors its running value is
  `n.choose i`, so every division on the way is exact.  On words of 64 bits the
  count is the same as long as no product leaves the word.

    * `foldl_binomial`: the running value.
    * `binomial_eq_choose`: the count.
    * `binomial64`: the count on words; `toNat_running64`: its running value.
    * `binomial_exact`: both counts, their divisions, symmetry and Pascal's rule.
-/

import GeometricAlgebra.Blade
import Mathlib

namespace GeometricAlgebra.Blade

/-- The running value after `i` factors. -/
theorem foldl_binomial (n i : Nat) :
    (List.range i).foldl (fun r i => r * (n - i) / (i + 1)) 1 = n.choose i := by
  induction i with
  | zero => simp
  | succ i ih =>
    rw [List.range_succ, List.foldl_append, ih, List.foldl_cons, List.foldl_nil,
      ← Nat.choose_succ_right_eq, Nat.mul_div_cancel _ (Nat.succ_pos i)]

theorem binomial_eq_choose (n k : Nat) : binomial n k = n.choose k := by
  unfold binomial
  by_cases h : n < k
  · rw [if_pos h, Nat.choose_eq_zero_of_lt h]
  · have hk : k ≤ n := Nat.not_lt.mp h
    rw [if_neg h, foldl_binomial]
    -- there are `min k (n - k)` factors, and both counts choose equally many sets
    rcases Nat.le_total k (n - k) with hle | hle
    · rw [Nat.min_eq_left hle]
    · rw [Nat.min_eq_right hle, Nat.choose_symm hk]

/-- The next division of the running value is exact. -/
theorem dvd_choose_mul (n i : Nat) : i + 1 ∣ n.choose i * (n - i) :=
  ⟨n.choose (i + 1), by rw [← Nat.choose_succ_right_eq, Nat.mul_comm]⟩

/-! ## Words of 64 bits -/

/-- The running value on words after `i` factors; products wrap around. -/
def running64 (n : UInt64) (i : Nat) : UInt64 :=
  (List.range i).foldl (fun r i => r * (n - .ofNat i) / (.ofNat i + 1)) 1

/-- The number of blades of grade `k` in dimension `n`, counted on words. -/
def binomial64 (n k : UInt64) : UInt64 :=
  if n < k then 0 else running64 n (min k.toNat (n - k).toNat)

/-- No product on the way to the count leaves the word. -/
def FitsWord (n k : UInt64) : Prop :=
  ∀ i < min k.toNat (n.toNat - k.toNat), (running64 n i).toNat * (n.toNat - i) ≤ 2 ^ 64 - 1

instance (n k : UInt64) : Decidable (FitsWord n k) :=
  inferInstanceAs (Decidable (∀ i < min k.toNat (n.toNat - k.toNat), _ ≤ _))

theorem running64_succ (n : UInt64) (i : Nat) :
    running64 n (i + 1) = running64 n i * (n - .ofNat i) / (.ofNat i + 1) := by
  rw [running64, List.range_succ, List.foldl_append]
  rfl

/-- As long as the products fit, the running value on words is that of the count. -/
theorem toNat_running64 {n : UInt64} {j : Nat} (hj : j ≤ n.toNat)
    (h : ∀ i < j, (running64 n i).toNat * (n.toNat - i) ≤ 2 ^ 64 - 1) :
    (running64 n j).toNat = n.toNat.choose j := by
  induction j with
  | zero => rw [Nat.choose_zero_right, running64, List.range_zero, List.foldl_nil, UInt64.toNat_one]
  | succ j ih =>
    have hword : n.toNat < 2 ^ 64 := n.toNat_lt
    have hproduct := h j (Nat.lt_succ_self j)
    rw [ih (by omega) fun i hi => h i (by omega)] at hproduct
    -- neither the index nor the factor wraps around
    have hindex : (UInt64.ofNat j).toNat = j :=
      UInt64.toNat_ofNat_of_lt' (show j < 2 ^ 64 by omega)
    have hfactor : (n - UInt64.ofNat j).toNat = n.toNat - j := by
      rw [UInt64.toNat_sub_of_le _ _ (UInt64.le_iff_toNat_le.mpr (by omega)), hindex]
    have hdivisor : (UInt64.ofNat j + 1).toNat = j + 1 := by
      rw [UInt64.toNat_add, hindex, UInt64.toNat_one, Nat.mod_eq_of_lt (by omega)]
    rw [running64_succ, UInt64.toNat_div, UInt64.toNat_mul, hfactor, hdivisor,
      ih (by omega) fun i hi => h i (by omega), Nat.mod_eq_of_lt (by omega),
      ← Nat.choose_succ_right_eq, Nat.mul_div_cancel _ (Nat.succ_pos j)]

theorem toNat_binomial64 {n k : UInt64} (h : FitsWord n k) :
    (binomial64 n k).toNat = binomial n.toNat k.toNat := by
  by_cases hlt : n < k
  · rw [binomial64, binomial, if_pos hlt, if_pos (UInt64.lt_iff_toNat_lt.mp hlt), UInt64.toNat_zero]
  · have hle : k ≤ n := UInt64.not_lt.mp hlt
    rw [binomial64, binomial, if_neg hlt, if_neg (fun h => hlt (UInt64.lt_iff_toNat_lt.mpr h)),
      foldl_binomial, UInt64.toNat_sub_of_le _ _ hle, toNat_running64 (by omega) h]

/-! ## Both counts -/

/-- Counting is exact: on words of 64 bits as long as no product leaves the word, and on numbers
    without a bound, where the count is symmetric and follows Pascal's rule.  No division on the way
    leaves a remainder. -/
theorem binomial_exact :
    (∀ n k : UInt64, FitsWord n k → (binomial64 n k).toNat = n.toNat.choose k.toNat ∧
      ∀ i < min k.toNat (n.toNat - k.toNat), i + 1 ∣ (running64 n i).toNat * (n.toNat - i)) ∧
    ∀ n k : Nat, binomial n k = n.choose k ∧ (n < k → binomial n k = 0) ∧
      (∀ i, i + 1 ∣ (List.range i).foldl (fun r i => r * (n - i) / (i + 1)) 1 * (n - i)) ∧
      (k ≤ n → binomial n k = binomial n (n - k)) ∧
      binomial (n + 1) (k + 1) = binomial n k + binomial n (k + 1) := by
  refine ⟨fun n k hfits => ⟨?_, fun i hi => ?_⟩, fun n k => ⟨binomial_eq_choose n k, fun hlt => ?_,
    fun i => ?_, fun hk => ?_, ?_⟩⟩
  · rw [toNat_binomial64 hfits, binomial_eq_choose]
  · rw [toNat_running64 (by omega) fun j hj => hfits j (by omega)]
    exact dvd_choose_mul n.toNat i
  · rw [binomial_eq_choose, Nat.choose_eq_zero_of_lt hlt]
  · rw [foldl_binomial]
    exact dvd_choose_mul n i
  · rw [binomial_eq_choose, binomial_eq_choose, Nat.choose_symm hk]
  · rw [binomial_eq_choose, binomial_eq_choose, binomial_eq_choose, Nat.choose_succ_succ]

/-- The largest count in the middle of a row that fits: the last product is above `2 ^ 63`. -/
theorem binomial_exact_62_31 : FitsWord 62 31 ∧ (binomial64 62 31).toNat = Nat.choose 62 31 := by
  have hfits : FitsWord 62 31 := by decide +kernel
  exact ⟨hfits, (binomial_exact.1 62 31 hfits).1⟩

end GeometricAlgebra.Blade
