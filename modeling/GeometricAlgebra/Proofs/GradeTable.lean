/-
  GeometricAlgebra.Proofs.GradeTable

  The table of a complete basis order.  `GradeTable.Lawful` collects what every
  index computation relies on: the extents of the arrays and groups, the two
  directions of the numbering, and the wedge behind every stored blade.

    * `lawful_ofOrder`: the table of a complete order is lawful.
    * `Lawful.gradeOf_eq_iff`: group `g` holds exactly the blades of grade `g`.
    * `Lawful.offset_eq`: the offset of a group is the size of the groups of the
      set below it.
-/

import GeometricAlgebra.Proofs.Blade.Binomial
import GeometricAlgebra.Proofs.Config

namespace GeometricAlgebra

/-! ## Grade sets -/

namespace GradeSet

@[simp] theorem has_zero (k : Nat) : has 0 k = false := Nat.zero_testBit k

@[simp] theorem has_insert (s : GradeSet) (g k : Nat) :
    (s.insert g).has k = (s.has k || decide (k = g)) := by
  simp [insert, has, Nat.one_shiftLeft, Nat.testBit_two_pow, eq_comm]

@[simp] theorem has_below (s : GradeSet) (g k : Nat) :
    (s.below g).has k = (decide (k < g) && s.has k) := by
  simp [below, has, Nat.one_shiftLeft, Nat.testBit_mod_two_pow]

@[simp] theorem has_full (n k : Nat) : (full n).has k = decide (k ≤ n) := by
  simp [full, has, Nat.one_shiftLeft, Nat.testBit_two_pow_sub_one]

@[simp] theorem has_and (s t : GradeSet) (k : Nat) : has (s &&& t) k = (s.has k && t.has k) :=
  Nat.testBit_and s t k

@[simp] theorem has_or (s t : GradeSet) (k : Nat) : has (s ||| t) k = (s.has k || t.has k) :=
  Nat.testBit_or s t k

/-- Grades with a property are inserted, one after the other. -/
theorem has_foldl_insert (p : Nat → Bool) (gs : List Nat) (s : GradeSet) (k : Nat) :
    (gs.foldl (fun s g => if p g then s.insert g else s) s).has k =
      (s.has k || (decide (k ∈ gs) && p k)) := by
  induction gs generalizing s with
  | nil => simp
  | cons g gs ih =>
    rw [List.foldl_cons, ih]
    by_cases hkg : k = g
    · subst hkg
      cases hp : p k <;> simp
    · cases hp : p g <;> simp [hkg]

theorem ext_has {s t : GradeSet} (h : ∀ k, s.has k = t.has k) : s = t := Nat.eq_of_testBit_eq h

end GradeSet

namespace GradeTable

open Blade (ofVectors inversions)

/-- What the numbering of the blades of a dimension promises. -/
structure Lawful (T : GradeTable) : Prop where
  size_sizes : T.sizes.size = T.dimension + 1
  size_starts : T.starts.size = T.dimension + 1
  size_blades : T.blades.size = 2 ^ T.dimension
  size_indices : T.indices.size = 2 ^ T.dimension
  size_signs : T.signs.size = 2 ^ T.dimension
  size_vectorLists : T.vectorLists.size = 2 ^ T.dimension
  -- A group has one place for each blade of its grade.
  groupSize_eq : ∀ g, T.groupSize g = T.dimension.choose g
  -- A group starts behind the groups of lower grade.
  denseStart_eq : ∀ g ≤ T.dimension,
    T.denseStart g = ∑ k ∈ Finset.range g, T.dimension.choose k
  -- A stored blade is the wedge of its vectors.
  wedge?_vectors : ∀ i < 2 ^ T.dimension, Blade.wedge? (T.vectors i) = some (T.sign i, T.blade i)
  blade_lt : ∀ i < 2 ^ T.dimension, T.blade i < 2 ^ T.dimension
  index_lt : ∀ b < 2 ^ T.dimension, T.index b < 2 ^ T.dimension
  index_blade : ∀ i < 2 ^ T.dimension, T.index (T.blade i) = i
  blade_index : ∀ b < 2 ^ T.dimension, T.blade (T.index b) = b
  -- The blades below grade `g` come first.
  gradeOf_lt_iff : ∀ g, ∀ i < 2 ^ T.dimension,
    T.gradeOf i < g ↔ i < ∑ k ∈ Finset.range g, T.dimension.choose k

/-! ## Writing a list of keys -/

/-- What is written to the keys leaves the other places alone. -/
theorem getD_foldl_setIfInBounds_of_notMem {keys : List Nat} {b : Nat} (h : b ∉ keys) (start : Nat)
    (ix : Array Nat) :
    ((keys.zipIdx start).foldl (fun ix p => ix.setIfInBounds p.1 p.2) ix).getD b 0 = ix.getD b 0 := by
  induction keys generalizing start ix with
  | nil => rfl
  | cons k ks ih =>
    rw [List.mem_cons, not_or] at h
    rw [List.zipIdx_cons, List.foldl_cons, ih h.2]
    simp [Array.getD_eq_getD_getElem?, Ne.symm h.1]

/-- With distinct keys, each key holds its own place. -/
theorem getD_foldl_setIfInBounds {keys : List Nat} (h : keys.Nodup) (start : Nat) (ix : Array Nat)
    (hlt : ∀ k ∈ keys, k < ix.size) {i : Nat} (hi : i < keys.length) :
    ((keys.zipIdx start).foldl (fun ix p => ix.setIfInBounds p.1 p.2) ix).getD keys[i] 0 =
      start + i := by
  induction keys generalizing start ix i with
  | nil => simp at hi
  | cons k ks ih =>
    rw [List.nodup_cons] at h
    rw [List.zipIdx_cons, List.foldl_cons]
    cases i with
    | zero =>
      -- no later key is the first one, so what is written there stays
      have hk : k < ix.size := hlt k List.mem_cons_self
      rw [List.getElem_cons_zero, getD_foldl_setIfInBounds_of_notMem h.1]
      simp [Array.getD_eq_getD_getElem?, hk]
    | succ i =>
      rw [List.getElem_cons_succ, ih h.2 (start + 1) _ _ (by simpa using hi)]
      · omega
      · intro k' hk'
        rw [Array.size_setIfInBounds]
        exact hlt k' (List.mem_cons_of_mem k hk')

theorem size_foldl_setIfInBounds (keys : List Nat) (start : Nat) (ix : Array Nat) :
    ((keys.zipIdx start).foldl (fun ix p => ix.setIfInBounds p.1 p.2) ix).size = ix.size := by
  induction keys generalizing start ix with
  | nil => rfl
  | cons k ks ih => rw [List.zipIdx_cons, List.foldl_cons, ih, Array.size_setIfInBounds]

/-! ## The table of a complete order -/

section OfOrder

variable {n : Nat} {order : BasisOrder}

theorem indices_ofOrder (n : Nat) (h : order.Complete n) :
    (ofOrder n order).indices =
      ((order.map ofVectors).zipIdx).foldl (fun ix p => ix.setIfInBounds p.1 p.2)
        (Array.replicate (2 ^ n) 0) := by
  have hplaced : (order.map fun vs => (Blade.wedge? vs).getD (.plus, 0)) =
      order.map fun vs => (Sign.ofSwaps (inversions vs), ofVectors vs) :=
    List.map_congr_left fun vs hvs => by rw [Blade.wedge?_of_nodup (h.nodup vs hvs)]; rfl
  simp only [ofOrder, hplaced, Nat.one_shiftLeft, List.zipIdx_map, List.foldl_map, Prod.map]

theorem vectors_ofOrder (n : Nat) {i : Nat} (hi : i < order.length) :
    (ofOrder n order).vectors i = order[i] := by
  simp [ofOrder, vectors, Array.getD_eq_getD_getElem?, hi]

variable (h : order.Complete n) {i : Nat} (hi : i < order.length)
include h hi

theorem blade_ofOrder : (ofOrder n order).blade i = ofVectors order[i] := by
  have hnodup := h.nodup order[i] (List.getElem_mem hi)
  simp [ofOrder, blade, Array.getD_eq_getD_getElem?, hi, Blade.wedge?_of_nodup hnodup]

theorem sign_ofOrder : (ofOrder n order).sign i = .ofSwaps (inversions order[i]) := by
  have hnodup := h.nodup order[i] (List.getElem_mem hi)
  simp [ofOrder, sign, Array.getD_eq_getD_getElem?, hi, Blade.wedge?_of_nodup hnodup]

theorem index_ofOrder : (ofOrder n order).index (ofVectors order[i]) = i := by
  have hi' : i < (order.map ofVectors).length := by rwa [List.length_map]
  have hlt : ∀ k ∈ order.map ofVectors, k < (Array.replicate (2 ^ n) 0).size := by
    intro k hk
    simpa using h.perm_range.subset hk
  rw [index, indices_ofOrder n h, ← List.getElem_map (h := hi') ofVectors,
    getD_foldl_setIfInBounds h.distinct 0 _ hlt hi', Nat.zero_add]

end OfOrder

theorem groupSize_ofOrder (n : Nat) (order : BasisOrder) (g : Nat) :
    (ofOrder n order).groupSize g = n.choose g := by
  simp only [ofOrder, groupSize, gradeCounts, Array.getD_eq_getD_getElem?, List.getElem?_toArray,
    List.getElem?_map]
  by_cases hg : g < n + 1
  · simp [List.getElem?_range hg, Blade.binomial_eq_choose]
  · have hnone : (List.range (n + 1))[g]? = none := by simpa using hg
    rw [hnone, Nat.choose_eq_zero_of_lt (by omega)]
    rfl

theorem denseStart_ofOrder (n : Nat) (order : BasisOrder) {g : Nat} (hg : g ≤ n) :
    (ofOrder n order).denseStart g = ∑ k ∈ Finset.range g, n.choose k := by
  have htake : (gradeCounts n).take g = (List.range g).map n.choose := by
    rw [gradeCounts, ← List.map_take, List.take_range, Nat.min_eq_left (by omega)]
    exact List.map_congr_left fun k _ => Blade.binomial_eq_choose n k
  simp only [ofOrder, denseStart, Array.getD_eq_getD_getElem?, List.getElem?_toArray,
    List.getElem?_map, List.getElem?_range (Nat.lt_succ_of_le hg), Option.map_some,
    Option.getD_some, htake]
  rfl

theorem lawful_ofOrder {n : Nat} {order : BasisOrder} (h : order.Complete n) :
    (ofOrder n order).Lawful := by
  have hlen := h.length_eq
  -- every blade of the dimension is listed at some place
  have hplace : ∀ b < 2 ^ n, ∃ i, ∃ hi : i < order.length, ofVectors order[i] = b := by
    intro b hb
    obtain ⟨vs, hvs, rfl⟩ := List.mem_map.mp (h.perm_range.mem_iff.mpr (List.mem_range.mpr hb))
    obtain ⟨i, hi, rfl⟩ := List.getElem_of_mem hvs
    exact ⟨i, hi, rfl⟩
  exact {
    size_sizes := by simp [ofOrder, gradeCounts]
    size_starts := by simp [ofOrder]
    size_blades := by simp [ofOrder, hlen]
    size_indices := by
      rw [indices_ofOrder n h, size_foldl_setIfInBounds, Array.size_replicate]
      rfl
    size_signs := by simp [ofOrder, hlen]
    size_vectorLists := by simp [ofOrder, hlen]
    groupSize_eq := groupSize_ofOrder n order
    denseStart_eq := fun g hg => denseStart_ofOrder n order hg
    wedge?_vectors := fun i hi => by
      have hi' : i < order.length := hlen ▸ hi
      rw [vectors_ofOrder n hi', sign_ofOrder h hi', blade_ofOrder h hi',
        Blade.wedge?_of_nodup (h.nodup _ (List.getElem_mem hi'))]
    blade_lt := fun i hi => by
      have hi' : i < order.length := hlen ▸ hi
      rw [blade_ofOrder h hi']
      exact Blade.ofVectors_lt (h.lt _ (List.getElem_mem hi'))
    index_lt := fun b hb => by
      obtain ⟨i, hi, rfl⟩ := hplace b hb
      rw [index_ofOrder h hi]
      exact hlen ▸ hi
    index_blade := fun i hi => by
      have hi' : i < order.length := hlen ▸ hi
      rw [blade_ofOrder h hi', index_ofOrder h hi']
    blade_index := fun b hb => by
      obtain ⟨i, hi, rfl⟩ := hplace b hb
      rw [index_ofOrder h hi, blade_ofOrder h hi]
    gradeOf_lt_iff := fun g i hi => by
      have hi' : i < order.length := hlen ▸ hi
      rw [gradeOf, blade_ofOrder h hi', Blade.grade_ofVectors (h.nodup _ (List.getElem_mem hi'))]
      exact h.length_getElem_lt_iff g hi' }

/-! ## Groups of a lawful table -/

namespace Lawful

variable {T : GradeTable} (h : T.Lawful)
include h

theorem sum_groupSize : ∑ g ∈ Finset.range T.numGroups, T.groupSize g = 2 ^ T.dimension := by
  rw [← Nat.sum_range_choose]
  exact Finset.sum_congr rfl fun g _ => h.groupSize_eq g

theorem denseSize_eq : T.denseSize = 2 ^ T.dimension := h.size_blades

theorem groupSize_eq_zero {g : Nat} (hg : T.dimension < g) : T.groupSize g = 0 := by
  rw [h.groupSize_eq, Nat.choose_eq_zero_of_lt hg]

theorem denseStart_add_groupSize_le {g : Nat} (hg : g ≤ T.dimension) :
    T.denseStart g + T.groupSize g ≤ 2 ^ T.dimension := by
  rw [h.denseStart_eq g hg, h.groupSize_eq, ← Finset.sum_range_succ, ← Nat.sum_range_choose]
  exact Finset.sum_le_sum_of_subset
    (Finset.range_subset_range.mpr (Nat.succ_le_succ hg))

theorem gradeOf_le {i : Nat} (hi : i < 2 ^ T.dimension) : T.gradeOf i ≤ T.dimension :=
  Blade.grade_le (h.blade_lt i hi)

/-- Group `g` holds exactly the blades of grade `g`. -/
theorem gradeOf_eq_iff {i : Nat} (hi : i < 2 ^ T.dimension) {g : Nat} :
    T.gradeOf i = g ↔ T.denseStart g ≤ i ∧ i < T.denseStart g + T.groupSize g := by
  by_cases hg : g ≤ T.dimension
  · -- grade `g` is below `g + 1` and not below `g`
    have hbelow := h.gradeOf_lt_iff g i hi
    have hupto := h.gradeOf_lt_iff (g + 1) i hi
    rw [Finset.sum_range_succ, ← h.groupSize_eq, ← h.denseStart_eq g hg] at hupto
    rw [← h.denseStart_eq g hg] at hbelow
    omega
  · have := h.gradeOf_le hi
    rw [h.groupSize_eq_zero (Nat.not_le.mp hg)]
    omega

/-- The place of a blade lies in the group of its grade. -/
theorem denseStart_le_index {b : Nat} (hb : b < 2 ^ T.dimension) :
    T.denseStart (Blade.grade b) ≤ T.index b ∧
      T.index b < T.denseStart (Blade.grade b) + T.groupSize (Blade.grade b) := by
  rw [← h.gradeOf_eq_iff (h.index_lt b hb), gradeOf, h.blade_index b hb]

theorem denseStart_add_lt {g k : Nat} (hg : g ≤ T.dimension) (hk : k < T.groupSize g) :
    T.denseStart g + k < 2 ^ T.dimension := by
  have hle := h.denseStart_add_groupSize_le hg
  omega

theorem gradeOf_add {g k : Nat} (hg : g ≤ T.dimension) (hk : k < T.groupSize g) :
    T.gradeOf (T.denseStart g + k) = g := by
  rw [h.gradeOf_eq_iff (h.denseStart_add_lt hg hk)]
  omega

/-! ## Stored vectors -/

theorem nodup_vectors {i : Nat} (hi : i < 2 ^ T.dimension) : (T.vectors i).Nodup := by
  by_contra hdup
  have := h.wedge?_vectors i hi
  rw [Blade.wedge?_eq_none_iff.mpr hdup] at this
  exact absurd this (by simp)

theorem blade_eq {i : Nat} (hi : i < 2 ^ T.dimension) : T.blade i = ofVectors (T.vectors i) := by
  have hw := h.wedge?_vectors i hi
  rw [Blade.wedge?_of_nodup (h.nodup_vectors hi), Option.some.injEq, Prod.mk.injEq] at hw
  exact hw.2.symm

theorem sign_eq {i : Nat} (hi : i < 2 ^ T.dimension) :
    T.sign i = .ofSwaps (inversions (T.vectors i)) := by
  have hw := h.wedge?_vectors i hi
  rw [Blade.wedge?_of_nodup (h.nodup_vectors hi), Option.some.injEq, Prod.mk.injEq] at hw
  exact hw.1.symm

theorem mem_vectors {i : Nat} (hi : i < 2 ^ T.dimension) {v : Nat} :
    v ∈ T.vectors i ↔ (T.blade i).testBit v = true := by
  rw [h.blade_eq hi, Blade.testBit_ofVectors]

theorem length_vectors {i : Nat} (hi : i < 2 ^ T.dimension) :
    (T.vectors i).length = T.gradeOf i := by
  rw [gradeOf, h.blade_eq hi, Blade.grade_ofVectors (h.nodup_vectors hi)]

theorem lt_of_mem_vectors {i : Nat} (hi : i < 2 ^ T.dimension) {v : Nat} (hv : v ∈ T.vectors i) :
    v < T.dimension :=
  Blade.lt_of_testBit (h.blade_lt i hi) ((h.mem_vectors hi).mp hv)

end Lawful

/-! ## Sizes and offsets -/

theorem sum_filter_range (p : Nat → Bool) (f : Nat → Nat) (m : Nat) :
    (((List.range m).filter p).map f).foldr (· + ·) 0 =
      ∑ k ∈ (Finset.range m).filter (p · = true), f k := by
  induction m with
  | zero => rfl
  | succ m ih =>
    have hsum : ∀ (l : List Nat) (k : Nat),
        (l ++ [k]).foldr (· + ·) 0 = l.foldr (· + ·) 0 + k := by
      intro l k
      induction l with
      | nil => simp
      | cons a l ihl => simp only [List.cons_append, List.foldr_cons, ihl, Nat.add_assoc]
    rw [List.range_succ, List.filter_append, List.map_append, Finset.range_add_one,
      Finset.filter_insert]
    by_cases hm : p m = true
    · rw [if_pos hm, Finset.sum_insert (by simp), ← ih, List.filter_singleton, hm]
      exact (hsum _ _).trans (Nat.add_comm _ _)
    · rw [if_neg hm, ← ih]
      simp [hm]

theorem size_eq (T : GradeTable) (s : GradeSet) :
    T.size s = ∑ k ∈ (Finset.range T.numGroups).filter (s.has · = true), T.groupSize k :=
  sum_filter_range s.has T.groupSize T.numGroups

/-- A group of a sparse buffer stands behind the stored groups of lower grade. -/
theorem Lawful.offset_eq {T : GradeTable} (h : T.Lawful) (s : GradeSet) (g : Nat) :
    T.offset s g = ∑ k ∈ (Finset.range g).filter (s.has · = true), T.groupSize k := by
  rw [offset, size_eq]
  simp only [GradeSet.has_below, Bool.and_eq_true, decide_eq_true_eq]
  -- the groups beyond the dimension are empty
  have hempty : ∀ k, T.groupSize k ≠ 0 → k < T.numGroups := by
    intro k hk
    by_contra hlt
    exact hk (h.groupSize_eq_zero (Nat.lt_of_succ_le (Nat.not_lt.mp hlt)))
  apply Finset.sum_subset_zero_on_sdiff
  · intro k hk
    simp only [Finset.mem_filter, Finset.mem_range] at hk ⊢
    exact hk.2
  · intro k hk
    simp only [Finset.mem_sdiff, Finset.mem_filter, Finset.mem_range] at hk
    by_contra hne
    exact hk.2 ⟨hempty k hne, hk.1.1, hk.1.2⟩
  · exact fun _ _ => rfl

end GradeTable

end GeometricAlgebra
