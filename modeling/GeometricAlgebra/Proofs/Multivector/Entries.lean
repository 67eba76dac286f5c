/-
  GeometricAlgebra.Proofs.Multivector.Entries

  Multivectors entry by entry in exact arithmetic.  `Clifford.entry` is the coordinate at a dense
  index, zero where no group is stored.

    * `filterMap_stored`: walking the stored coordinates meets the entries in order.
    * `has_grades_compress`, `entry_compress_eq`: the groups and entries that compressing keeps.
    * `entry_compress`: in exact arithmetic, compressing loses no entry.
    * `entry_add`, `entry_subtract`, `entry_scale`: the linear operations, entry by entry.
    * `Reduced`: exactly the groups with an entry that is not zero are stored.
    * `reduced_compress_mask`, `reduced_scale`: compressed buffers and multiples are reduced.
    * `Reduced.ext`: reduced multivectors with equal entries are equal.
-/

import GeometricAlgebra.Proofs.Exact
import GeometricAlgebra.Proofs.Multivector.Dense
import GeometricAlgebra.Proofs.Multivector.Gradewise

namespace GeometricAlgebra

theorem Coordinates.getD_extract {α : Type} {d : Coordinates α} {start n a : Nat} {v : α}
    (ha : a < n) (hd : start + n ≤ d.size) :
    (d.extract start (start + n)).getD a v = d.getD (start + a) v := by
  rw [Array.getD_eq_getD_getElem?, Array.getD_eq_getD_getElem?, Array.getElem?_extract,
    if_pos (by omega)]

/-- Every place of a dense buffer is a place of a group. -/
theorem GradeTable.Lawful.exists_place {T : GradeTable} (hT : T.Lawful) {r : Nat}
    (hr : r < 2 ^ T.dimension) : ∃ g ≤ T.dimension, ∃ a < T.groupSize g,
      T.gradeOf r = g ∧ r = T.denseStart g + a := by
  have hmem := (hT.gradeOf_eq_iff hr).mp rfl
  exact ⟨T.gradeOf r, hT.gradeOf_le hr, r - T.denseStart (T.gradeOf r), by omega, rfl, by omega⟩

namespace Clifford

variable {α : Type} [Scalar α] {A : Clifford α} {x y : Multivector α}

/-- The coordinate at a dense index, zero where no group is stored. -/
def entry (A : Clifford α) (x : Multivector α) (r : Nat) : α := (A.toDense x).getD r 0

section Places

variable (hT : A.table.Lawful)
include hT

/-- A group of a dense buffer starts at its dense start. -/
theorem getD_denseGroup {dense : Coordinates α} (hd : A.table.denseSize ≤ dense.size) {g a : Nat}
    (hg : g ≤ A.table.dimension) (ha : a < A.table.groupSize g) :
    (A.denseGroup dense g).getD a 0 = dense.getD (A.table.denseStart g + a) 0 := by
  have hle := hT.denseStart_add_groupSize_le hg
  rw [← hT.denseSize_eq] at hle
  exact Coordinates.getD_extract ha (hle.trans hd)

/-- The entry at a place of a group is that of the group. -/
theorem entry_place (hx : x.WellFormed A) {g a : Nat} (hg : g ≤ A.table.dimension)
    (ha : a < A.table.groupSize g) :
    A.entry x (A.table.denseStart g + a) = ((A.group? x g).getD #[]).getD a 0 := by
  rw [entry, ← getD_denseGroup hT (size_toDense hT hx).ge hg ha, denseGroup_toDense hT hx hg]
  cases A.group? x g with
  | some c => rfl
  | none => exact Coordinates.getD_zeros _ a

/-- Entries are the coordinates at the stored blades. -/
theorem entry_eq_coordinate (hx : x.WellFormed A) {r : Nat} (hr : r < 2 ^ A.table.dimension) :
    A.entry x r = A.coordinate x (A.table.blade r) := by
  obtain ⟨g, hg, a, ha, hgrade, hplace⟩ := hT.exists_place hr
  have hlocal : A.localIndex (A.table.blade r) = a := by
    rw [localIndex, hT.index_blade r hr, show Blade.grade (A.table.blade r) = g from hgrade]
    omega
  rw [hplace, entry_place hT hx hg ha, ← hplace, coordinate, hlocal,
    show Blade.grade (A.table.blade r) = g from hgrade]
  cases A.group? x g with
  | some c => rfl
  | none => rfl

theorem entry_of_not_has (hx : x.WellFormed A) {r : Nat} (hr : r < 2 ^ A.table.dimension)
    (hg : x.grades.has (A.table.gradeOf r) = false) : A.entry x r = 0 := by
  obtain ⟨g, hle, a, ha, rfl, hplace⟩ := hT.exists_place hr
  rw [hplace, entry_place hT hx hle ha, group?_of_not_has hg]
  rfl

theorem coordinate_eq_entry (hx : x.WellFormed A) {b : Nat} (hb : b < 2 ^ A.table.dimension) :
    A.coordinate x b = A.entry x (A.table.index b) := by
  rw [entry_eq_coordinate hT hx (hT.index_lt b hb), hT.blade_index b hb]

theorem has_of_entry_ne_zero (hx : x.WellFormed A) {r : Nat} (hr : r < 2 ^ A.table.dimension)
    (hne : A.entry x r ≠ 0) : x.grades.has (A.table.gradeOf r) = true := by
  by_contra hs
  exact hne (entry_of_not_has hT hx hr (Bool.eq_false_iff.mpr hs))

/-- Equal entries, equal dense buffers. -/
theorem toDense_eq_iff (hx : x.WellFormed A) (hy : y.WellFormed A) :
    A.toDense x = A.toDense y ↔ ∀ r < 2 ^ A.table.dimension, A.entry x r = A.entry y r := by
  have hsize : ∀ {z : Multivector α}, z.WellFormed A →
      (A.toDense z).size = 2 ^ A.table.dimension := fun hz => by
    rw [size_toDense hT hz, hT.denseSize_eq]
  constructor
  · intro h r _
    rw [entry, h, entry]
  · intro h
    refine Array.ext (by rw [hsize hx, hsize hy]) fun r hr hr' => ?_
    have hentry := h r (hsize hx ▸ hr)
    rwa [entry, entry, Array.getD_eq_getD_getElem?, Array.getD_eq_getD_getElem?,
      Array.getElem?_eq_getElem hr, Array.getElem?_eq_getElem hr'] at hentry

/-- Equal grades and equal entries, equal multivectors. -/
theorem ext_entry (hx : x.WellFormed A) (hy : y.WellFormed A) (hgrades : x.grades = y.grades)
    (h : ∀ r < 2 ^ A.table.dimension, A.entry x r = A.entry y r) : x = y := by
  refine hx.ext hy fun g hg => ?_
  cases hs : x.grades.has g with
  | false => rw [group?_of_not_has hs, group?_of_not_has (hgrades ▸ hs)]
  | true =>
    -- a stored group is a slice of the dense buffer
    have hxg := denseGroup_toDense hT hx hg
    have hyg := denseGroup_toDense hT hy hg
    rw [group?_of_has hs, Option.getD_some] at hxg
    rw [group?_of_has (hgrades ▸ hs), Option.getD_some] at hyg
    rw [group?_of_has hs, group?_of_has (hgrades ▸ hs), ← hxg, ← hyg,
      (toDense_eq_iff hT hx hy).mpr h]

end Places

/-! ## Stored coordinates -/

section Stored

variable (hT : A.table.Lawful) (hx : x.WellFormed A)
include hT hx

/-- The coordinates of a stored group are the entries at its places. -/
theorem zipIdx_group {g : Nat} (hg : g ≤ A.table.dimension) (hs : x.grades.has g = true) :
    ((A.group? x g).getD #[]).toList.zipIdx (A.table.denseStart g) =
      ((List.range (A.table.groupSize g)).map (A.table.denseStart g + ·)).map
        fun r => (A.entry x r, r) := by
  have hsize := hx.size_getD_group hs #[]
  apply List.ext_getElem
  · simp [hsize]
  · intro a ha _
    have ha' : a < A.table.groupSize g := by simpa [hsize] using ha
    have hentry := entry_place hT hx hg ha'
    have hget : a < ((A.group? x g).getD #[]).size := by rwa [hsize]
    rw [← Array.getElem_eq_getD (h := hget)] at hentry
    simp [hentry]

section Selection

variable {β : Type} {f : α × Nat → Option β} (hf : ∀ r, f (0, r) = none)
include hf

/-- A selection that skips zeros sees the entries of one group, stored or not. -/
theorem filterMap_group {g : Nat} (hg : g ≤ A.table.dimension) :
    ((List.range (A.table.groupSize g)).map (A.table.denseStart g + ·)).filterMap
        (fun r => f (A.entry x r, r)) =
      if x.grades.has g then
        (((A.group? x g).getD #[]).toList.zipIdx (A.table.denseStart g)).filterMap f
      else [] := by
  cases hs : x.grades.has g with
  | true =>
    rw [if_pos rfl, zipIdx_group hT hx hg hs]
    exact List.filterMap_map.symm
  | false =>
    rw [if_neg (by decide), List.filterMap_map, List.filterMap_eq_nil_iff]
    intro a ha
    have ha' := List.mem_range.mp ha
    have hzero := entry_of_not_has hT hx (hT.denseStart_add_lt hg ha')
      (by rwa [hT.gradeOf_add hg ha'])
    exact (congrArg (fun v => f (v, _)) hzero).trans (hf _)

/-- The stored groups below a grade, and the places below its start. -/
theorem filterMap_groups_below {m : Nat} (hm : m ≤ A.table.numGroups) :
    ((List.range m).filter x.grades.has).flatMap (fun g =>
        (((A.group? x g).getD #[]).toList.zipIdx (A.table.denseStart g)).filterMap f) =
      (List.range (∑ k ∈ Finset.range m, A.table.groupSize k)).filterMap
        fun r => f (A.entry x r, r) := by
  induction m with
  | zero => rfl
  | succ m ih =>
    have hg : m ≤ A.table.dimension := Nat.le_of_succ_le_succ hm
    have hstart : A.table.denseStart m = ∑ k ∈ Finset.range m, A.table.groupSize k := by
      rw [hT.denseStart_eq m hg]
      exact Finset.sum_congr rfl fun k _ => (hT.groupSize_eq k).symm
    rw [List.range_succ, List.filter_append, List.flatMap_append, ih (Nat.le_of_succ_le hm),
      Finset.sum_range_succ, List.range_add, List.filterMap_append, ← hstart,
      filterMap_group hT hx hf hg, List.filter_singleton]
    cases x.grades.has m with
    | true => rw [cond_true, if_pos rfl, List.flatMap_singleton]
    | false => rfl

/-- A selection that skips zeros sees the entries at all places in order. -/
theorem filterMap_stored : (A.stored x).filterMap f =
    (List.range (2 ^ A.table.dimension)).filterMap fun r => f (A.entry x r, r) := by
  have hall := filterMap_groups_below hT hx hf (Nat.le_refl A.table.numGroups)
  rw [hT.sum_groupSize] at hall
  rw [← hall, stored, storedGroups_eq, List.flatMap_map, List.filterMap_flatMap]
  rfl

end Selection

end Stored

/-! ## Compressed buffers -/

section Compress

variable (hT : A.table.Lawful) {dense : Coordinates α} (hd : dense.size = A.table.denseSize)
include hT hd

/-- A group of the mask is kept for a coordinate that is not within the bound of zero. -/
theorem has_grades_compress (eps : α) (mask : GradeSet) (g : Nat) :
    (A.compress dense eps mask).grades.has g = true ↔
      g ≤ A.dimension ∧ mask.has g = true ∧
        ∃ r < 2 ^ A.dimension, A.table.gradeOf r = g ∧ ¬ Scalar.abs (dense.getD r 0) ≤ eps := by
  rw [compress_eq, has_keptGrades, Bool.and_eq_true, Bool.and_eq_true, decide_eq_true_eq,
    Bool.not_eq_true', Coordinates.isZero_eq_false_iff]
  refine and_congr_right fun hg => and_congr_right fun _ => ⟨?_, ?_⟩
  · rintro ⟨a, ha, hne⟩
    rw [size_denseGroup hT hd.ge hg] at ha
    rw [getD_denseGroup hT hd.ge hg ha] at hne
    exact ⟨_, hT.denseStart_add_lt hg ha, hT.gradeOf_add hg ha, hne⟩
  · rintro ⟨r, hr, rfl, hne⟩
    obtain ⟨g, hg, a, ha, hgrade, hplace⟩ := hT.exists_place hr
    rw [hgrade, size_denseGroup hT hd.ge hg]
    refine ⟨a, ha, ?_⟩
    rwa [getD_denseGroup hT hd.ge hg ha, ← hplace]

/-- The entries of the kept groups stay, and the others become zero. -/
theorem entry_compress_eq (eps : α) (mask : GradeSet) {r : Nat} (hr : r < 2 ^ A.dimension) :
    A.entry (A.compress dense eps mask) r =
      if (A.compress dense eps mask).grades.has (A.table.gradeOf r) then dense.getD r 0 else 0 := by
  have hx := wellFormed_compress hT hd.ge eps mask
  by_cases hs : (A.compress dense eps mask).grades.has (A.table.gradeOf r) = true
  · obtain ⟨g, hg, a, ha, hgrade, hplace⟩ := hT.exists_place hr
    rw [if_pos hs, hplace, entry_place hT hx hg ha, ← getD_denseGroup hT hd.ge hg ha,
      group?_compress hT hd.ge, if_pos]
    · rfl
    · rwa [compress_eq, hgrade] at hs
  · rw [if_neg hs, entry_of_not_has hT hx hr (Bool.not_eq_true _ ▸ hs)]

end Compress

/-! ## Reduced multivectors -/

/-- Exactly the groups with an entry that is not zero are stored. -/
def Reduced (A : Clifford α) (x : Multivector α) : Prop :=
  ∀ g, x.grades.has g = true ↔
    ∃ r < 2 ^ A.table.dimension, A.table.gradeOf r = g ∧ A.entry x r ≠ 0

/-- Reduced multivectors with equal entries are equal. -/
theorem Reduced.ext (hT : A.table.Lawful) (hrx : A.Reduced x) (hry : A.Reduced y)
    (hx : x.WellFormed A) (hy : y.WellFormed A)
    (h : ∀ r < 2 ^ A.table.dimension, A.entry x r = A.entry y r) : x = y := by
  refine ext_entry hT hx hy (GradeSet.ext_has fun g => ?_) h
  rw [Bool.eq_iff_iff, hrx g, hry g]
  refine exists_congr fun r => and_congr_right fun hr => ?_
  rw [h r hr]

section Exact

variable {K : Type} [Field K] [LinearOrder K] {A : Clifford K} {x y : Multivector K}
  (hT : A.table.Lawful)
include hT

/-! ## Linear operations -/

theorem entry_map (hx : x.WellFormed A) {f : K → K} (hf : f 0 = 0) {r : Nat}
    (hr : r < 2 ^ A.table.dimension) : A.entry (x.map f) r = f (A.entry x r) := by
  obtain ⟨g, hg, a, ha, -, rfl⟩ := hT.exists_place hr
  rw [entry_place hT (hx.map f) hg ha, entry_place hT hx hg ha, group?_map]
  cases hc : A.group? x g with
  | none => simp [hf]
  | some c =>
    have hac : a < c.size := by rwa [hx.size_group hc]
    simp [Array.getD_eq_getD_getElem?, hac]

theorem entry_add (hx : x.WellFormed A) (hy : y.WellFormed A) {r : Nat}
    (hr : r < 2 ^ A.table.dimension) : A.entry (A.add x y) r = A.entry x r + A.entry y r := by
  obtain ⟨g, hg, a, ha, -, rfl⟩ := hT.exists_place hr
  rw [entry_place hT (wellFormed_add hx hy) hg ha, entry_place hT hx hg ha,
    entry_place hT hy hg ha, group?_add hx hy]
  cases hc : A.group? x g with
  | none =>
    cases hd : A.group? y g with
    | none => simp
    | some d => simp
  | some c =>
    cases hd : A.group? y g with
    | none => simp
    | some d =>
      have hac : a < c.size := by rwa [hx.size_group hc]
      have had : a < d.size := by rwa [hy.size_group hd]
      exact Coordinates.getD_zipWith (· + ·) hac had

theorem entry_subtract (hx : x.WellFormed A) (hy : y.WellFormed A) {r : Nat}
    (hr : r < 2 ^ A.table.dimension) :
    A.entry (A.subtract x y) r = A.entry x r - A.entry y r := by
  obtain ⟨g, hg, a, ha, -, rfl⟩ := hT.exists_place hr
  rw [entry_place hT (wellFormed_subtract hx hy) hg ha, entry_place hT hx hg ha,
    entry_place hT hy hg ha, group?_subtract hx hy]
  cases hc : A.group? x g with
  | none =>
    cases hd : A.group? y g with
    | none => simp
    | some d =>
      have had : a < d.size := by rwa [hy.size_group hd]
      simp [Coordinates.getD_negated had]
  | some c =>
    cases hd : A.group? y g with
    | none => simp
    | some d =>
      have hac : a < c.size := by rwa [hx.size_group hc]
      have had : a < d.size := by rwa [hy.size_group hd]
      exact Coordinates.getD_zipWith (· - ·) hac had

/-! ## Compressed buffers -/

variable [IsStrictOrderedRing K]

/-- Of the mask, the groups with an entry that is not zero are kept. -/
theorem has_grades_compress_zero {dense : Coordinates K} (hd : dense.size = A.table.denseSize)
    (mask : GradeSet) {g : Nat} : (A.compress dense 0 mask).grades.has g = true ↔
      mask.has g = true ∧
        ∃ r < 2 ^ A.table.dimension, A.table.gradeOf r = g ∧ dense.getD r 0 ≠ 0 := by
  have hnonzero : ∀ v : K, (¬ Scalar.abs v ≤ 0) ↔ v ≠ 0 := fun v => not_congr abs_nonpos_iff
  simp only [has_grades_compress hT hd, hnonzero]
  refine and_iff_right_of_imp ?_
  rintro ⟨-, r, hr, rfl, -⟩
  exact hT.gradeOf_le hr

/-- Compressing with a mask loses no entry if the others are zero. -/
theorem entry_compress_mask {dense : Coordinates K} (hd : dense.size = A.table.denseSize)
    {mask : GradeSet} {r : Nat} (hr : r < 2 ^ A.table.dimension)
    (hmask : dense.getD r 0 ≠ 0 → mask.has (A.table.gradeOf r) = true) :
    A.entry (A.compress dense 0 mask) r = dense.getD r 0 := by
  rw [entry_compress_eq hT hd 0 mask hr]
  refine ite_eq_left_iff.mpr fun hdropped => ?_
  -- a group that is not kept has zero entries only
  by_contra hne
  have hne' : dense.getD r 0 ≠ 0 := fun h => hne h.symm
  exact hdropped ((has_grades_compress_zero hT hd mask).mpr ⟨hmask hne', r, hr, rfl, hne'⟩)

/-- Compressing loses no entry. -/
theorem entry_compress {dense : Coordinates K} (hd : dense.size = A.table.denseSize) {r : Nat}
    (hr : r < 2 ^ A.table.dimension) :
    A.entry (A.compress dense 0 A.table.fullSet) r = dense.getD r 0 :=
  entry_compress_mask hT hd hr fun _ => GradeTable.has_fullSet.mpr (hT.gradeOf_le hr)

/-- Nor does it then keep a group for nothing. -/
theorem reduced_compress_mask {dense : Coordinates K} (hd : dense.size = A.table.denseSize)
    {mask : GradeSet} (hmask : ∀ r < 2 ^ A.table.dimension,
      dense.getD r 0 ≠ 0 → mask.has (A.table.gradeOf r) = true) :
    A.Reduced (A.compress dense 0 mask) := by
  intro g
  rw [has_grades_compress_zero hT hd]
  constructor
  · rintro ⟨-, r, hr, hgrade, hne⟩
    exact ⟨r, hr, hgrade, by rwa [entry_compress_mask hT hd hr (hmask r hr)]⟩
  · rintro ⟨r, hr, rfl, hne⟩
    rw [entry_compress_mask hT hd hr (hmask r hr)] at hne
    exact ⟨hmask r hr hne, r, hr, rfl, hne⟩

theorem reduced_compress {dense : Coordinates K} (hd : dense.size = A.table.denseSize) :
    A.Reduced (A.compress dense 0 A.table.fullSet) :=
  reduced_compress_mask hT hd fun _ hr _ => GradeTable.has_fullSet.mpr (hT.gradeOf_le hr)

section Scale

-- the mask of a multiple is the stored grades: elsewhere the entries are zero already
variable (hx : x.WellFormed A) (s : K)
include hx

/-- A multiple, entry by entry; the groups that become zero are dropped. -/
theorem entry_scale {r : Nat} (hr : r < 2 ^ A.table.dimension) :
    A.entry (A.scale x s) r = A.entry x r * s := by
  have hmap : (x.map (· * s)).WellFormed A := hx.map _
  calc A.entry (A.scale x s) r = A.entry (x.map (· * s)) r :=
        entry_compress_mask hT (size_toDense hT hmap) hr (has_of_entry_ne_zero hT hmap hr)
    _ = A.entry x r * s := entry_map hT hx (zero_mul s) hr

theorem reduced_scale : A.Reduced (A.scale x s) := by
  have hmap : (x.map (· * s)).WellFormed A := hx.map _
  exact reduced_compress_mask hT (size_toDense hT hmap) fun _ => has_of_entry_ne_zero hT hmap

end Scale

end Exact

end Clifford

end GeometricAlgebra
