/-
  GeometricAlgebra.Proofs.Blade.Orientation

  The orientation of a wedge of basis vectors.  Each appended vector moves past
  the vectors of higher index, so the swaps of a whole wedge are the inversions
  of its list, and their parity is the sign of the permutation that sorts it.

    * `wedge?_eq`: a wedge is `none` when a vector repeats; otherwise it is the
      blade of its vectors with the sign of its inversions.
    * `sign_sort`: the sign of the sorting permutation is the parity of the
      inversions.
-/

import GeometricAlgebra.Proofs.Blade.Vectors
import Mathlib.Data.Fin.Tuple.Sort
import Mathlib.Data.ZMod.IntUnitsPower
import Mathlib.GroupTheory.Perm.Fin

namespace GeometricAlgebra

/-! ## Signs as units -/

/-- The sign as a unit of the integers. -/
def Sign.toUnits : Sign → ℤˣ
  | .plus => 1
  | .minus => -1

theorem Sign.toUnits_ofSwaps (k : Nat) : (Sign.ofSwaps k).toUnits = (-1) ^ k := by
  unfold Sign.ofSwaps
  rcases Nat.mod_two_eq_zero_or_one k with h | h
  · rw [if_pos h, (Nat.even_iff.mpr h).neg_one_pow]
    rfl
  · rw [if_neg (by omega), (Nat.odd_iff.mpr h).neg_one_pow]
    rfl

namespace Blade

/-! ## Inversions -/

/-- The number of pairs of a list that stand in the wrong order. -/
def inversions : List Nat → Nat
  | [] => 0
  | v :: vs => vs.countP (· < v) + inversions vs

theorem inversions_append_singleton (vs : List Nat) (v : Nat) :
    inversions (vs ++ [v]) = inversions vs + vs.countP (v < ·) := by
  induction vs with
  | nil => rfl
  | cons u us ih =>
    simp only [List.cons_append, inversions, ih, List.countP_append, List.countP_cons,
      List.countP_nil]
    omega

/-! ## Wedges -/

theorem wedge?_append_singleton (vs : List Nat) (v : Nat) :
    wedge? (vs ++ [v]) = (wedge? vs).bind (append? · v) := by
  simp [wedge?, List.foldlM_append]

/-- A wedge of distinct vectors is their blade, with the parity of the inversions; a wedge with
    a repeated vector is zero. -/
theorem wedge?_eq (vs : List Nat) :
    wedge? vs = if vs.Nodup then some (.ofSwaps (inversions vs), ofVectors vs) else none := by
  induction vs using List.reverseRecOn with
  | nil => rfl
  | append_singleton vs v ih =>
    -- the wedge is folded from the left, so the last vector comes on top of the wedge before it
    rw [wedge?_append_singleton, ih]
    have hsplit : (vs ++ [v]).Nodup ↔ vs.Nodup ∧ v ∉ vs := by
      rw [List.nodup_append_comm]
      exact List.nodup_cons.trans and_comm
    by_cases hvs : vs.Nodup
    · rw [if_pos hvs, Option.bind_some]
      by_cases hv : v ∈ vs
      · have hbit : (ofVectors vs).testBit v = true := testBit_ofVectors.mpr hv
        rw [if_neg (fun h => (hsplit.mp h).2 hv), append?, if_pos hbit]
      · have hbit : ¬ (ofVectors vs).testBit v = true := fun h => hv (testBit_ofVectors.mp h)
        -- the vectors above `v` in the blade are those of the list
        have hpassed : grade (ofVectors vs >>> (v + 1)) = vs.countP (v < ·) := by
          rw [grade_shiftRight, (perm_vectors_ofVectors hvs).countP_eq]
          rfl
        rw [if_pos (hsplit.mpr ⟨hvs, hv⟩), append?, if_neg hbit, hpassed, ← Sign.ofSwaps_add,
          ← inversions_append_singleton, ofVectors_append_singleton]
    · rw [if_neg hvs, if_neg (fun h => hvs (hsplit.mp h).1), Option.bind_none]

theorem wedge?_of_nodup {vs : List Nat} (h : vs.Nodup) :
    wedge? vs = some (.ofSwaps (inversions vs), ofVectors vs) := by
  rw [wedge?_eq, if_pos h]

theorem wedge?_eq_none_iff {vs : List Nat} : wedge? vs = none ↔ ¬ vs.Nodup := by
  rw [wedge?_eq]
  by_cases h : vs.Nodup <;> simp [h]

/-! ## The sorting permutation -/

/-- One factor `-1` for each vector that has to pass `v`. -/
theorem prod_map_lt {v : Nat} {vs : List Nat} (hv : v ∉ vs) :
    (vs.map fun u => if v < u then (1 : ℤˣ) else -1).prod = (-1) ^ vs.countP (· < v) := by
  induction vs with
  | nil => rfl
  | cons u us ih =>
    rw [List.mem_cons, not_or] at hv
    rw [List.map_cons, List.prod_cons, ih hv.2, List.countP_cons]
    rcases Nat.lt_or_gt_of_ne hv.1 with h | h
    · rw [if_pos h, if_neg (by simpa using Nat.le_of_lt h), one_mul, Nat.add_zero]
    · rw [if_neg (Nat.not_lt.mpr (Nat.le_of_lt h)), if_pos (by simpa using h), pow_succ, mul_comm]

/-- The inversions of a list, as a product over the pairs of its places. -/
theorem prod_Ioi_get {vs : List Nat} (h : vs.Nodup) :
    (∏ i : Fin vs.length, ∏ j ∈ Finset.Ioi i, if vs.get i < vs.get j then (1 : ℤˣ) else -1) =
      (-1) ^ inversions vs := by
  induction vs with
  | nil => rfl
  | cons v vs ih =>
    rw [List.nodup_cons] at h
    -- the pairs with the first place, then those among the others
    have hfirst : (∏ j : Fin vs.length, if v < vs.get j then (1 : ℤˣ) else -1) =
        (-1) ^ vs.countP (· < v) := by
      rw [← prod_map_lt h.1]
      exact Fin.prod_univ_fun_getElem vs fun u => if v < u then (1 : ℤˣ) else -1
    rw [inversions, pow_add, ← hfirst, ← ih h.2]
    exact (Fin.prod_univ_succ _).trans (congrArg₂ _ (Fin.prod_Ioi_zero _)
      (Finset.prod_congr rfl fun i _ => Fin.prod_Ioi_succ _ i))

/-- The place of an entry in sorted order is decided by its value. -/
theorem sort_inv_lt_iff {vs : List Nat} (h : vs.Nodup) (i j : Fin vs.length) :
    (Tuple.sort vs.get)⁻¹ i < (Tuple.sort vs.get)⁻¹ j ↔ vs.get i < vs.get j := by
  -- without repetitions the sorted list ascends strictly, so places compare as values do
  have hinj : Function.Injective vs.get := List.nodup_iff_injective_get.mp h
  have hmono : StrictMono (vs.get ∘ Tuple.sort vs.get) :=
    (Tuple.monotone_sort vs.get).strictMono_of_injective
      (hinj.comp (Tuple.sort vs.get).injective)
  rw [← hmono.lt_iff_lt]
  simp [Function.comp]

/-- The sign of the permutation that sorts a list is the parity of its inversions. -/
theorem sign_sort {vs : List Nat} (h : vs.Nodup) :
    Equiv.Perm.sign (Tuple.sort vs.get) = (-1) ^ inversions vs := by
  -- the inverse has the same sign, and it takes each place to its place in sorted order
  rw [← Equiv.Perm.sign_inv, Equiv.Perm.sign_eq_prod_prod_Ioi, ← prod_Ioi_get h]
  exact Finset.prod_congr rfl fun i _ => Finset.prod_congr rfl fun j _ =>
    if_congr (sort_inv_lt_iff h i j) rfl rfl

end Blade

end GeometricAlgebra
