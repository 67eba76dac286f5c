/-
  GeometricAlgebra.Proofs.Layout

  Coordinate buffers as groups one after the other.  `GradeTable.assemble s f` is the buffer of
  the grades `s` with group `f g` for each of them; every operation that builds coordinates
  group by group builds such a buffer.

    * `offset_succ`: a stored group moves the offset of the next one by its size.
    * `extract_assemble`: the slice at the offset of a group is that group.
    * `assemble_extract`: a buffer of the right size is assembled from its own slices.
-/

import GeometricAlgebra.Coordinates
import GeometricAlgebra.Proofs.GradeTable

namespace GeometricAlgebra

theorem Coordinates.getD_zeros {α : Type} [Scalar α] (n i : Nat) :
    (zeros n : Coordinates α).getD i 0 = 0 := by
  rw [zeros, Array.getD_eq_getD_getElem?, Array.getElem?_replicate]
  split <;> rfl

theorem Coordinates.isZero_eq_false_iff {α : Type} [Scalar α] {xs : Coordinates α} {eps : α} :
    xs.isZero eps = false ↔ ∃ a < xs.size, ¬ Scalar.abs (xs.getD a 0) ≤ eps := by
  rw [isZero, Array.all_eq_false]
  refine exists_congr fun a => ?_
  rw [← exists_prop]
  refine exists_congr fun ha => ?_
  rw [isNegligible, decide_eq_true_iff, Array.getElem_eq_getD (h := ha) 0]

/-- Steps that keep the size of a buffer keep it over a whole list. -/
theorem Coordinates.size_foldl {α β : Type} {step : Coordinates α → β → Coordinates α}
    (hstep : ∀ d b, (step d b).size = d.size) (bs : List β) (d : Coordinates α) :
    (bs.foldl step d).size = d.size := by
  induction bs generalizing d with
  | nil => rfl
  | cons b bs ih => rw [List.foldl_cons, ih, hstep]

namespace GradeTable

variable {α : Type} {T : GradeTable}

/-- The groups of the grades `s`, one after the other. -/
def assemble (T : GradeTable) (s : GradeSet) (f : Nat → Coordinates α) : Coordinates α :=
  (T.groups.filter s.has).foldl (fun cs g => cs ++ f g) #[]

/-! ## Offsets -/

theorem mem_groups {g : Nat} : g ∈ T.groups ↔ g ≤ T.dimension := by
  rw [groups, List.mem_range, numGroups, Nat.lt_succ_iff]

theorem has_fullSet {g : Nat} : T.fullSet.has g = true ↔ g ≤ T.dimension := by
  rw [fullSet, GradeSet.has_full, decide_eq_true_eq]

theorem filter_fullSet : T.groups.filter T.fullSet.has = T.groups :=
  List.filter_eq_self.mpr fun _ hg => has_fullSet.mpr (mem_groups.mp hg)

theorem filter_below (s : GradeSet) {m : Nat} (hm : m ≤ T.numGroups) :
    T.groups.filter (s.below m).has = (List.range m).filter s.has := by
  obtain ⟨k, hk⟩ := Nat.exists_eq_add_of_le hm
  -- from `m` on nothing is kept, and below `m` the set is unchanged
  have htail : ((List.range k).map (m + ·)).filter (s.below m).has = [] := by
    simp [List.filter_eq_nil_iff]
  rw [groups, hk, List.range_add, List.filter_append, htail, List.append_nil]
  exact List.filter_congr fun g hg => by simp [List.mem_range.mp hg]

/-- The groups are those below a grade, then that grade, then those above. -/
theorem groups_split {g : Nat} (hg : g ≤ T.dimension) :
    ∃ above, T.groups = List.range g ++ g :: above ∧ ∀ k ∈ above, g < k := by
  obtain ⟨k, hk⟩ : ∃ k, T.numGroups = g + 1 + k :=
    Nat.exists_eq_add_of_le (Nat.succ_le_succ hg)
  refine ⟨(List.range k).map (g + 1 + ·), ?_, ?_⟩
  · rw [groups, hk, List.range_add, List.range_succ, List.append_assoc]
    rfl
  · intro j hj
    obtain ⟨i, _, rfl⟩ := List.mem_map.mp hj
    omega

theorem offset_zero (s : GradeSet) : T.offset s 0 = 0 := by
  rw [offset, size, filter_below s (Nat.zero_le _)]
  rfl

/-- A stored group moves the offset of the next one by its size. -/
theorem offset_succ (s : GradeSet) {g : Nat} (hg : g ≤ T.dimension) :
    T.offset s (g + 1) = T.offset s g + if s.has g then T.groupSize g else 0 := by
  simp only [offset, size, filter_below s (Nat.succ_le_succ hg),
    filter_below s (Nat.le_succ_of_le hg)]
  rw [List.range_succ, List.filter_append, List.map_append]
  simp only [← List.sum_eq_foldr, List.sum_append]
  by_cases hs : s.has g = true
  · simp [hs]
  · simp [hs]

theorem offset_numGroups (s : GradeSet) : T.offset s T.numGroups = T.size s := by
  rw [offset, size, filter_below s (Nat.le_refl _)]
  rfl

theorem offset_mono (s : GradeSet) {g m : Nat} (hgm : g ≤ m) (hm : m ≤ T.numGroups) :
    T.offset s g ≤ T.offset s m := by
  induction m, hgm using Nat.le_induction with
  | base => exact Nat.le_refl _
  | succ m _ ih =>
    have hstep := T.offset_succ s (Nat.le_of_lt_succ hm)
    have := ih (Nat.le_of_succ_le hm)
    omega

theorem offset_le_size (s : GradeSet) {g : Nat} (hg : g ≤ T.dimension) :
    T.offset s g ≤ T.size s := by
  rw [← offset_numGroups]
  exact offset_mono s (Nat.le_succ_of_le hg) (Nat.le_refl _)

/-- A stored group ends before the offset of every later one. -/
theorem offset_add_le_offset {s : GradeSet} {g m : Nat} (hs : s.has g = true) (hgm : g < m)
    (hm : m ≤ T.numGroups) : T.offset s g + T.groupSize g ≤ T.offset s m := by
  have hstep := T.offset_succ s (Nat.le_of_lt_succ (Nat.lt_of_lt_of_le hgm hm))
  rw [if_pos hs] at hstep
  rw [← hstep]
  exact offset_mono s hgm hm

theorem offset_add_groupSize_le (s : GradeSet) {g : Nat} (hg : g ≤ T.dimension)
    (hs : s.has g = true) : T.offset s g + T.groupSize g ≤ T.size s := by
  rw [← offset_numGroups]
  exact offset_add_le_offset hs (Nat.lt_succ_of_le hg) (Nat.le_refl _)

theorem Lawful.offset_fullSet (hT : T.Lawful) {g : Nat} (hg : g ≤ T.dimension) :
    T.offset T.fullSet g = T.denseStart g := by
  rw [hT.offset_eq, hT.denseStart_eq g hg]
  have hall : (Finset.range g).filter (T.fullSet.has · = true) = Finset.range g :=
    Finset.filter_true_of_mem fun k hk =>
      has_fullSet.mpr (by have := Finset.mem_range.mp hk; omega)
  rw [hall]
  exact Finset.sum_congr rfl fun k _ => hT.groupSize_eq k

theorem Lawful.size_fullSet (hT : T.Lawful) : T.size T.fullSet = T.denseSize := by
  rw [size_eq, hT.denseSize_eq, ← hT.sum_groupSize]
  congr 1
  exact Finset.filter_true_of_mem fun k hk =>
    has_fullSet.mpr (Nat.lt_succ_iff.mp (Finset.mem_range.mp hk))

/-! ## Buffers of groups -/

section Assemble

variable {s : GradeSet} {f : Nat → Coordinates α}

theorem toList_assemble : (T.assemble s f).toList =
    (T.groups.filter s.has).flatMap fun g => (f g).toList := by
  have hfold : ∀ (gs : List Nat) (cs : Coordinates α),
      (gs.foldl (fun cs g => cs ++ f g) cs).toList =
        cs.toList ++ gs.flatMap fun g => (f g).toList := by
    intro gs
    induction gs with
    | nil => simp
    | cons g gs ih =>
      intro cs
      rw [List.foldl_cons, ih, List.flatMap_cons, Array.toList_append, List.append_assoc]
  rw [assemble, hfold]
  rfl

theorem assemble_congr {f' : Nat → Coordinates α}
    (h : ∀ g ≤ T.dimension, s.has g = true → f g = f' g) : T.assemble s f = T.assemble s f' := by
  apply Array.toList_inj.mp
  rw [toList_assemble, toList_assemble]
  apply List.flatMap_congr
  intro g hg
  obtain ⟨hg, hs⟩ := List.mem_filter.mp hg
  rw [h g (mem_groups.mp hg) hs]

variable (hf : ∀ g ≤ T.dimension, s.has g = true → (f g).size = T.groupSize g)
include hf

/-- The groups below a grade fill the buffer up to its offset. -/
theorem length_flatMap_filter {m : Nat} (hm : m ≤ T.numGroups) :
    (((List.range m).filter s.has).flatMap fun g => (f g).toList).length = T.offset s m := by
  induction m with
  | zero => rw [offset_zero]; rfl
  | succ m ih =>
    have hm' : m ≤ T.dimension := Nat.le_of_lt_succ hm
    rw [List.range_succ, List.filter_append, List.flatMap_append, List.length_append,
      ih (Nat.le_of_succ_le hm), offset_succ s hm']
    by_cases hs : s.has m = true
    · simp [hs, hf m hm' hs]
    · simp [hs]

theorem size_assemble : (T.assemble s f).size = T.size s := by
  rw [← Array.length_toList, toList_assemble, ← offset_numGroups]
  exact length_flatMap_filter hf (Nat.le_refl _)

/-- The slice at the offset of a group is that group. -/
theorem extract_assemble {g : Nat} (hg : g ≤ T.dimension) (hs : s.has g = true) :
    (T.assemble s f).extract (T.offset s g) (T.offset s g + T.groupSize g) = f g := by
  -- the groups below `g` fill the buffer up to the offset, and `f g` is as long as the slice
  have hbelow := length_flatMap_filter hf (Nat.le_succ_of_le hg)
  obtain ⟨above, hsplit, -⟩ := groups_split hg
  apply Array.toList_inj.mp
  rw [Array.toList_extract, toList_assemble, hsplit, List.filter_append,
    List.filter_cons_of_pos hs, List.flatMap_append, List.flatMap_cons,
    List.extract_eq_take_drop, ← hbelow, List.drop_left, Nat.add_sub_cancel_left,
    ← hf g hg hs, ← Array.length_toList, List.take_left]

/-- A new group goes between the groups below it and those above it. -/
theorem assemble_insert {g : Nat} (hg : g ≤ T.dimension) (hs : s.has g = false) :
    T.assemble (s.insert g) f = (T.assemble s f).extract 0 (T.offset s g) ++ f g ++
      (T.assemble s f).extract (T.offset s g) (T.assemble s f).size := by
  have hbelow := length_flatMap_filter hf (Nat.le_succ_of_le hg)
  obtain ⟨above, hsplit, habove⟩ := groups_split hg
  -- the new grade leaves what is kept on either side of it as it is
  have hkeepBelow : (List.range g).filter (s.insert g).has = (List.range g).filter s.has :=
    List.filter_congr fun k hk => by simp [Nat.ne_of_lt (List.mem_range.mp hk)]
  have hkeepAbove : above.filter (s.insert g).has = above.filter s.has :=
    List.filter_congr fun k hk => by simp [Nat.ne_of_gt (habove k hk)]
  have hold : (T.assemble s f).toList =
      ((List.range g).filter s.has).flatMap (fun g => (f g).toList) ++
        (above.filter s.has).flatMap fun g => (f g).toList := by
    rw [toList_assemble, hsplit, List.filter_append,
      List.filter_cons_of_neg (by simp [hs]), List.flatMap_append]
  apply Array.toList_inj.mp
  rw [toList_assemble, hsplit, List.filter_append, List.filter_cons_of_pos (by simp),
    hkeepBelow, hkeepAbove, List.flatMap_append, List.flatMap_cons, Array.toList_append,
    Array.toList_append, Array.toList_extract, Array.toList_extract, hold,
    List.extract_eq_take_drop, List.extract_eq_take_drop, ← hbelow, Nat.sub_zero, List.drop_zero,
    List.take_left, List.drop_left, ← Array.length_toList, hold, List.length_append,
    Nat.add_sub_cancel_left, List.take_length, List.append_assoc]

end Assemble

/-- A buffer of the right size is assembled from its own slices. -/
theorem assemble_extract {s : GradeSet} {cs : Coordinates α} (hsize : cs.size = T.size s) :
    T.assemble s (fun g => cs.extract (T.offset s g) (T.offset s g + T.groupSize g)) = cs := by
  -- the slices below grade `m` are the buffer up to the offset of `m`
  have htake : ∀ m ≤ T.numGroups, (((List.range m).filter s.has).flatMap fun g =>
      (cs.extract (T.offset s g) (T.offset s g + T.groupSize g)).toList) =
        cs.toList.take (T.offset s m) := by
    intro m hm
    induction m with
    | zero => simp [offset_zero]
    | succ m ih =>
      rw [List.range_succ, List.filter_append, List.flatMap_append, ih (Nat.le_of_succ_le hm),
        offset_succ s (Nat.le_of_lt_succ hm)]
      by_cases hs : s.has m = true
      · simp [hs, List.take_add, List.extract_eq_take_drop]
      · simp [hs]
  apply Array.toList_inj.mp
  have hall := htake T.numGroups (Nat.le_refl _)
  rw [offset_numGroups, ← hsize, ← Array.length_toList, List.take_length] at hall
  rw [toList_assemble]
  exact hall

end GradeTable

end GeometricAlgebra
