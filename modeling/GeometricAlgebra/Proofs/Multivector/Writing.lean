/-
  GeometricAlgebra.Proofs.Multivector.Writing

  Making multivectors and writing into them.

    * `Clifford.wellFormed_ofCoords`: a checked buffer is well formed.
    * `Clifford.reserve_eq`: a reserved grade goes between the groups below and above it.
    * `Clifford.setCoordinate_lt`: the coordinate written to lies in the buffer.
-/

import GeometricAlgebra.Proofs.Multivector.Groups

namespace GeometricAlgebra

variable {α : Type} {A : Clifford α} {x : Multivector α}

/-! ## One group -/

theorem GradeTable.size_insert_zero {T : GradeTable} {g : Nat} (hg : g ≤ T.dimension) :
    T.size (GradeSet.insert 0 g) = T.groupSize g := by
  have hone : (Finset.range T.numGroups).filter ((GradeSet.insert 0 g).has · = true) = {g} := by
    ext k
    simp only [Finset.mem_filter, Finset.mem_range, GradeSet.has_insert, GradeSet.has_zero,
      Bool.false_or, decide_eq_true_eq, Finset.mem_singleton]
    exact ⟨And.right, fun hk => ⟨hk ▸ Nat.lt_succ_of_le hg, hk⟩⟩
  rw [size_eq, hone, Finset.sum_singleton]

theorem wellFormed_singleton {g : Nat} (hg : g ≤ A.table.dimension) {c : Coordinates α}
    (hc : c.size = A.table.groupSize g) : Multivector.WellFormed A ⟨GradeSet.insert 0 g, c⟩ := by
  refine ⟨fun k hk => ?_, ?_⟩
  · rw [GradeSet.has_insert, GradeSet.has_zero, Bool.false_or, decide_eq_true_eq] at hk
    exact hk ▸ hg
  · rw [hc, GradeTable.size_insert_zero hg]

theorem GradeTable.Lawful.groupSize_zero {T : GradeTable} (hT : T.Lawful) : T.groupSize 0 = 1 := by
  rw [hT.groupSize_eq, Nat.choose_zero_right]

theorem GradeTable.Lawful.groupSize_one {T : GradeTable} (hT : T.Lawful) :
    T.groupSize 1 = T.dimension := by
  rw [hT.groupSize_eq, Nat.choose_one_right]

theorem Coordinates.size_store (old new : Coordinates α) : (store old new).size = old.size := by
  rw [store, Array.size_append, Array.size_extract, Array.size_extract]
  omega

namespace Multivector

theorem wellFormed_zero : (zero : Multivector α).WellFormed A := by
  have hnone : A.table.groups.filter (GradeSet.has 0) = [] := by simp [List.filter_eq_nil_iff]
  refine ⟨fun g hg => absurd hg (by simp [zero]), ?_⟩
  rw [zero, GradeTable.size, hnone]
  rfl

theorem wellFormed_scalar (hT : A.table.Lawful) (s : α) : (scalar s).WellFormed A :=
  wellFormed_singleton (Nat.zero_le _) hT.groupSize_zero.symm

/-- Only the number of coordinates counts. -/
theorem WellFormed.of_size (hx : x.WellFormed A) {cs : Coordinates α}
    (hsize : cs.size = x.coords.size) : Multivector.WellFormed A ⟨x.grades, cs⟩ :=
  ⟨hx.1, hsize.trans hx.2⟩

theorem WellFormed.map (hx : x.WellFormed A) (f : α → α) : (x.map f).WellFormed A :=
  hx.of_size Array.size_map

theorem WellFormed.overwrite (hx : x.WellFormed A) (i : Nat) (value : α) :
    (x.overwrite i value).WellFormed A :=
  hx.of_size Array.size_setIfInBounds

end Multivector

namespace Clifford

/-! ## Checked buffers -/

/-- A buffer is accepted for the grades of the algebra among those asked for, if it has the size
    of these. -/
theorem ofCoords_eq_ok_iff {s : GradeSet} {coords : Coordinates α} :
    A.ofCoords s coords = .ok x ↔
      x = ⟨s &&& A.table.fullSet, coords⟩ ∧ coords.size = A.table.size (s &&& A.table.fullSet) := by
  unfold ofCoords
  by_cases hsize : coords.size = A.table.size (s &&& A.table.fullSet)
  · simp [hsize, eq_comm]
  · simp [hsize]

theorem wellFormed_ofCoords {s : GradeSet} {coords : Coordinates α}
    (h : A.ofCoords s coords = .ok x) : x.WellFormed A := by
  obtain ⟨rfl, hsize⟩ := ofCoords_eq_ok_iff.mp h
  exact Multivector.wellFormed_iff.mpr ⟨by rw [Nat.and_assoc, Nat.and_self], hsize⟩

/-! ## Vectors -/

variable [Scalar α]

theorem wellFormed_vector (hT : A.table.Lawful) (hn : 0 < A.dimension)
    (components : Coordinates α) : (A.vector components).WellFormed A := by
  refine wellFormed_singleton hn ?_
  rw [Coordinates.size_store, Coordinates.zeros, Array.size_replicate, hT.groupSize_one]
  rfl

/-! ## Reserving a grade -/

theorem reserve_of_has {g : Nat} (hg : x.grades.has g = true) : A.reserve x g = x := by
  rw [reserve, if_pos hg]

/-- A reserved grade goes between the groups below and above it. -/
theorem reserve_eq (hx : x.WellFormed A) {g : Nat} (hle : g ≤ A.dimension)
    (hg : x.grades.has g = false) : A.reserve x g = ⟨x.grades.insert g,
      A.table.assemble (x.grades.insert g)
        fun k => (A.group? x k).getD (Coordinates.zeros (A.table.groupSize k))⟩ := by
  -- the old buffer is assembled from the same groups, with `g` left out
  have hgroups : x.coords = A.table.assemble x.grades
      fun k => (A.group? x k).getD (Coordinates.zeros (A.table.groupSize k)) := by
    refine hx.coords_eq.trans (GradeTable.assemble_congr fun k _ hk => ?_)
    rw [group?_of_has hk]
    rfl
  have hnew := GradeTable.assemble_insert (fun k _ hk => hx.size_getD_group hk
    (Coordinates.zeros (A.table.groupSize k))) hle hg
  rw [← hgroups, group?_of_not_has hg, Option.getD_none] at hnew
  rw [reserve, if_neg (by simp [hg]), hnew]

theorem size_getD_zeros (hx : x.WellFormed A) (k : Nat) :
    ((A.group? x k).getD (Coordinates.zeros (A.table.groupSize k))).size =
      A.table.groupSize k := by
  cases hk : x.grades.has k with
  | true => exact hx.size_getD_group hk _
  | false => rw [group?_of_not_has hk, Option.getD_none, Coordinates.zeros, Array.size_replicate]

theorem has_reserve (g k : Nat) :
    (A.reserve x g).grades.has k = (x.grades.has k || decide (k = g)) := by
  cases hg : x.grades.has g with
  | true =>
    rw [reserve_of_has hg]
    by_cases hk : k = g
    · simp [hk, hg]
    · simp [hk]
  | false => rw [reserve, if_neg (by simp [hg]), GradeSet.has_insert]

theorem wellFormed_reserve (hx : x.WellFormed A) {g : Nat} (hle : g ≤ A.dimension) :
    (A.reserve x g).WellFormed A := by
  cases hg : x.grades.has g with
  | true => rwa [reserve_of_has hg]
  | false =>
    rw [reserve_eq hx hle hg]
    refine wellFormed_assemble (fun k hk => ?_) fun k _ _ => size_getD_zeros hx k
    rw [GradeSet.has_insert, Bool.or_eq_true, decide_eq_true_eq] at hk
    rcases hk with hk | rfl
    · exact hx.le hk
    · exact hle

/-! ## Writing a coordinate -/

/-- The coordinate written to lies in the buffer. -/
theorem setCoordinate_lt (hT : A.table.Lawful) (hx : x.WellFormed A) {b : Nat}
    (hb : b < 2 ^ A.table.dimension) :
    A.table.offset (A.reserve x (Blade.grade b)).grades (Blade.grade b) + A.localIndex b <
      (A.reserve x (Blade.grade b)).coords.size := by
  have hlocal := localIndex_lt hT hb
  have hstored : (A.reserve x (Blade.grade b)).grades.has (Blade.grade b) = true := by
    simp [has_reserve]
  have := (wellFormed_reserve hx (Blade.grade_le hb)).offset_add_le hstored
  omega

theorem wellFormed_setCoordinate (hx : x.WellFormed A) {b : Nat}
    (hb : b < 2 ^ A.table.dimension) (value : α) : (A.setCoordinate x b value).WellFormed A :=
  (wellFormed_reserve hx (Blade.grade_le hb)).of_size Array.size_setIfInBounds

theorem wellFormed_basisVector {i : Nat} (hi : i < A.dimension) :
    (A.basisVector i).WellFormed A := by
  refine wellFormed_setCoordinate Multivector.wellFormed_zero ?_ 1
  rw [Blade.ofVector, Nat.one_shiftLeft]
  exact Nat.pow_lt_pow_right (by decide) hi

end Clifford

end GeometricAlgebra
