/-
  GeometricAlgebra.Proofs.BasisOrder

  Complete basis orders: every blade of a dimension once, in some orientation, by
  ascending grade.  Nothing counts the blades of a grade; that grade `g` takes the
  `n.choose g` places behind the lower grades follows from the total number.

    * `Complete.length_getElem_lt_iff`: the blades below grade `g` stand before
      the sum of `n.choose h` over `h < g`.
    * `complete_standard`: the standard order is complete.
-/

import GeometricAlgebra.BasisOrder
import GeometricAlgebra.Proofs.Blade.Orientation
import Mathlib.Algebra.BigOperators.Group.Finset.Basic
import Mathlib.Data.List.Sublists
import Mathlib.Data.Nat.Choose.Sum

namespace GeometricAlgebra.BasisOrder

open Blade (ofVectors)

/-- Every blade of dimension `n` once, in some orientation, by ascending grade. -/
structure Complete (n : Nat) (order : BasisOrder) : Prop where
  nodup : ∀ vs ∈ order, vs.Nodup
  lt : ∀ vs ∈ order, ∀ v ∈ vs, v < n
  graded : (order.map List.length).Pairwise (· ≤ ·)
  distinct : (order.map ofVectors).Nodup
  length_eq : order.length = 2 ^ n

/-! ## Places of the grades -/

/-- In an ascending list the entries below `g` are the first ones. -/
theorem getElem_lt_iff_lt_countP {ls : List Nat} (h : ls.Pairwise (· ≤ ·)) (g : Nat) {i : Nat}
    (hi : i < ls.length) : ls[i] < g ↔ i < ls.countP (· < g) := by
  induction ls generalizing i with
  | nil => simp at hi
  | cons l ls ih =>
    rw [List.pairwise_cons] at h
    rw [List.countP_cons]
    cases i with
    | zero =>
      simp only [List.getElem_cons_zero]
      by_cases hl : l < g
      · simp [hl]
      · -- nothing behind the head is smaller than it
        have hnone : ls.countP (· < g) = 0 := by
          rw [List.countP_eq_zero]
          intro k hk
          have := h.1 k hk
          simp only [decide_eq_true_eq]
          omega
        simp [hl, hnone]
    | succ i =>
      simp only [List.getElem_cons_succ]
      have hi' : i < ls.length := by simpa using hi
      rw [ih h.2 hi']
      by_cases hl : l < g
      · simp [hl]
      · have hge : ¬ ls[i] < g := by
          have := h.1 ls[i] (List.getElem_mem hi')
          omega
        rw [ih h.2 hi'] at hge
        simp only [hl, decide_false, Bool.false_eq_true, if_false, Nat.add_zero]
        omega

namespace Complete

variable {n : Nat} {order : BasisOrder}

/-- The listed blades are the blades of the dimension. -/
theorem perm_range (h : Complete n order) : (order.map ofVectors).Perm (List.range (2 ^ n)) := by
  have hsub : order.map ofVectors ⊆ List.range (2 ^ n) := by
    intro b hb
    obtain ⟨vs, hvs, rfl⟩ := List.mem_map.mp hb
    exact List.mem_range.mpr (Blade.ofVectors_lt (h.lt vs hvs))
  -- `2 ^ n` distinct numbers below `2 ^ n` leave none out
  refine (h.distinct.subperm hsub).perm_of_length_le ?_
  rw [List.length_range, List.length_map, h.length_eq]

/-- As many blades of each grade are listed as the dimension has. -/
theorem count_length (h : Complete n order) (g : Nat) :
    (order.map List.length).count g = n.choose g := by
  -- counting the listed lengths counts the grades of all blades
  have hgrade : order.map List.length = (order.map ofVectors).map Blade.grade := by
    rw [List.map_map]
    exact List.map_congr_left fun vs hvs => (Blade.grade_ofVectors (h.nodup vs hvs)).symm
  rw [hgrade, (h.perm_range.map Blade.grade).count_eq, ← Blade.card_filter_grade n g,
    List.count_eq_countP, List.countP_map, List.countP_eq_length_filter]
  rw [← List.toFinset_card_of_nodup ((List.nodup_range).filter _)]
  congr 1
  ext b
  simp

theorem countP_length_lt (h : Complete n order) (g : Nat) :
    (order.map List.length).countP (· < g) = ∑ k ∈ Finset.range g, n.choose k := by
  induction g with
  | zero => simp
  | succ g ih =>
    rw [Finset.sum_range_succ, ← ih, ← h.count_length g, List.count_eq_countP]
    -- an entry below `g + 1` is below `g` or `g` itself
    generalize order.map List.length = ls
    induction ls with
    | nil => rfl
    | cons l ls ihl =>
      simp only [List.countP_cons, ihl, decide_eq_true_eq, beq_iff_eq]
      split_ifs <;> omega

/-- The blades below grade `g` come first, and their number is that of the dimension. -/
theorem length_getElem_lt_iff (h : Complete n order) (g : Nat) {i : Nat} (hi : i < order.length) :
    order[i].length < g ↔ i < ∑ k ∈ Finset.range g, n.choose k := by
  have hi' : i < (order.map List.length).length := by rwa [List.length_map]
  rw [← h.countP_length_lt g, ← getElem_lt_iff_lt_countP h.graded g hi', List.getElem_map]

end Complete

/-! ## The standard order -/

/-- Sublists by length, as the standard library enumerates them. -/
theorem perm_choose {β : Type} (k : Nat) (xs : List β) : (choose k xs).Perm (xs.sublistsLen k) := by
  induction xs generalizing k with
  | nil => cases k <;> simp [choose]
  | cons x xs ih =>
    cases k with
    | zero => simp [choose]
    | succ k =>
      rw [choose, List.sublistsLen_succ_cons]
      exact (((ih k).map _).append (ih (k + 1))).trans List.perm_append_comm

theorem mem_choose {β : Type} {k : Nat} {xs vs : List β} :
    vs ∈ choose k xs ↔ vs.Sublist xs ∧ vs.length = k := by
  rw [(perm_choose k xs).mem_iff, List.mem_sublistsLen]

theorem length_choose {β : Type} (k : Nat) (xs : List β) :
    (choose k xs).length = xs.length.choose k := by
  rw [(perm_choose k xs).length_eq, List.length_sublistsLen]

theorem nodup_choose {β : Type} (k : Nat) {xs : List β} (h : xs.Nodup) : (choose k xs).Nodup :=
  (perm_choose k xs).nodup_iff.mpr (List.nodup_sublistsLen k h)

theorem mem_standard {n : Nat} {vs : List Nat} : vs ∈ standard n ↔ vs.Sublist (List.range n) := by
  simp only [standard, List.mem_flatMap, List.mem_range, mem_choose]
  constructor
  · rintro ⟨_, _, h, _⟩
    exact h
  · intro h
    exact ⟨vs.length, by simpa [Nat.lt_succ_iff] using h.length_le, h, rfl⟩

theorem length_standard (n : Nat) : (standard n).length = 2 ^ n := by
  rw [standard, List.length_flatMap, ← Nat.sum_range_choose]
  simp only [length_choose, List.length_range]
  rfl

/-- Two ascending lists of the same vectors are the same. -/
theorem eq_of_ofVectors_eq {us vs : List Nat} (hu : us.Pairwise (· < ·)) (hv : vs.Pairwise (· < ·))
    (h : ofVectors us = ofVectors vs) : us = vs := by
  refine List.Perm.eq_of_pairwise (fun a b _ _ hab hba => absurd hab (Nat.lt_asymm hba)) hu hv ?_
  rw [List.perm_ext_iff_of_nodup (hu.imp Nat.ne_of_lt) (hv.imp Nat.ne_of_lt)]
  intro v
  rw [← Blade.testBit_ofVectors, h, Blade.testBit_ofVectors]

theorem complete_standard (n : Nat) : Complete n (standard n) where
  nodup vs hvs := (mem_standard.mp hvs).nodup List.nodup_range
  lt vs hvs v hv := List.mem_range.mp ((mem_standard.mp hvs).mem hv)
  graded := by
    rw [standard, List.map_flatMap, List.pairwise_flatMap]
    -- the lengths of one grade agree, those of two grades ascend
    refine ⟨fun g _ => ?_, List.pairwise_lt_range.imp fun {g g'} hlt => ?_⟩
    · rw [List.pairwise_map]
      refine List.pairwise_of_forall_mem_list fun us hus vs hvs => ?_
      rw [(mem_choose.mp hus).2, (mem_choose.mp hvs).2]
    · intro a ha b hb
      obtain ⟨us, hus, rfl⟩ := List.mem_map.mp ha
      obtain ⟨vs, hvs, rfl⟩ := List.mem_map.mp hb
      rw [(mem_choose.mp hus).2, (mem_choose.mp hvs).2]
      exact Nat.le_of_lt hlt
  distinct := by
    -- no list occurs twice, and an ascending list is determined by its blade
    have hnodup : (standard n).Nodup := by
      rw [standard, List.nodup_flatMap]
      refine ⟨fun g _ => nodup_choose g List.nodup_range, List.pairwise_lt_range.imp ?_⟩
      intro g g' hlt vs hvs hvs'
      have := (mem_choose.mp hvs).2
      have := (mem_choose.mp hvs').2
      omega
    refine hnodup.map_on fun us hus vs hvs h => eq_of_ofVectors_eq ?_ ?_ h
    · exact List.pairwise_lt_range.sublist (mem_standard.mp hus)
    · exact List.pairwise_lt_range.sublist (mem_standard.mp hvs)
  length_eq := length_standard n

end GeometricAlgebra.BasisOrder
