/-
  GeometricAlgebra.Proofs.Numbering

  The numbering of the blades of an accepted algebra, whether its basis order is
  declared or standard.

    * `Clifford.lawful_of_ofConfig`: the table of an accepted algebra is lawful.
    * `Clifford.numbering_of_ofConfig`: index and blade are inverse, groups are
      intervals of one grade, signs are sorting parities and offsets are sums.
-/

import GeometricAlgebra.Binary64
import GeometricAlgebra.Proofs.GradeTable

namespace GeometricAlgebra

namespace Clifford

variable {α : Type} [Scalar α] {c : Config α} {A : Clifford α}

theorem table_of_ofConfig (h : ofConfig c = .ok A) :
    ∃ order : BasisOrder, order.Complete c.dimension ∧ A.table = .ofOrder c.dimension order := by
  obtain ⟨order, horder, rfl⟩ := ofConfig_eq_ok_iff.mp h
  exact ⟨order, Config.complete_of_basisOrder horder, rfl⟩

theorem dimension_of_ofConfig (h : ofConfig c = .ok A) : A.dimension = c.dimension := by
  obtain ⟨order, _, rfl⟩ := ofConfig_eq_ok_iff.mp h
  rfl

theorem lawful_of_ofConfig (h : ofConfig c = .ok A) : A.table.Lawful := by
  obtain ⟨order, horder, htable⟩ := table_of_ofConfig h
  rw [htable]
  exact GradeTable.lawful_ofOrder horder

theorem size_metric_of_ofConfig (h : ofConfig c = .ok A) : A.metric.size = A.dimension := by
  obtain ⟨order, horder, rfl⟩ := ofConfig_eq_ok_iff.mp h
  exact List.size_toArray.trans
    (Config.length_metricDiagonal (Config.basisOrder_eq_ok_iff.mp horder).1)

theorem length_vectors_of_ofConfig (h : ofConfig c = .ok A) :
    A.config.vectors.length = A.dimension := by
  obtain ⟨order, _, rfl⟩ := ofConfig_eq_ok_iff.mp h
  rfl

theorem dimension_pos_of_ofConfig (h : ofConfig c = .ok A) : 0 < A.dimension := by
  obtain ⟨order, horder, rfl⟩ := ofConfig_eq_ok_iff.mp h
  have hvalid := Config.validate_eq_ok_iff.mp (Config.basisOrder_eq_ok_iff.mp horder).1
  exact Nat.pos_of_ne_zero hvalid.1

end Clifford

/-! ## Soundness of the numbering -/

/-- A table numbers the blades of dimension `n` grade by grade. -/
structure GradeTable.Numbers (T : GradeTable) (n : Nat) : Prop where
  -- Every dense index has a blade of the dimension, which leads back to it.
  index_blade : ∀ i < 2 ^ n, T.blade i < 2 ^ n ∧ T.index (T.blade i) = i
  -- Every blade of the dimension has a dense index, which leads back to it.
  blade_index : ∀ b < 2 ^ n, T.index b < 2 ^ n ∧ T.blade (T.index b) = b
  -- A group is an interval of dense indices: those of the blades of its grade.
  mem_group_iff : ∀ i < 2 ^ n, ∀ g,
    (T.denseStart g ≤ i ∧ i < T.denseStart g + T.groupSize g) ↔ Blade.grade (T.blade i) = g
  -- The groups `0` to `n` fill a dense buffer.
  sum_groupSize : ∑ g ∈ Finset.range (n + 1), T.groupSize g = 2 ^ n ∧ T.denseSize = 2 ^ n
  -- The stored vectors are those of the blade, without repetition.
  vectors : ∀ i < 2 ^ n, (T.vectors i).Nodup ∧ ∀ v, v ∈ T.vectors i ↔ (T.blade i).testBit v = true
  -- The orientation of a stored blade is the parity of the permutation that sorts its vectors.
  sign : ∀ i < 2 ^ n, (T.sign i).toUnits = Equiv.Perm.sign (Tuple.sort (T.vectors i).get)
  -- The offset of a group in a sparse buffer is the size of the stored groups below it.
  offset : ∀ s : GradeSet, (∀ g, s.has g = true → T.fullSet.has g = true) → ∀ g,
    T.offset s g = ∑ k ∈ (Finset.range g).filter (s.has · = true), T.groupSize k

/-- On coordinates, an orientation is the factor `1` or `-1`. -/
theorem Sign.toScalar_eq_one_or {α : Type} [Scalar α] (s : Sign) :
    s.toScalar = (1 : α) ∧ s.toUnits = 1 ∨ s.toScalar = (-1 : α) ∧ s.toUnits = -1 := by
  cases s with
  | plus => exact .inl ⟨rfl, rfl⟩
  | minus => exact .inr ⟨rfl, rfl⟩

namespace Clifford

/-- The table of an accepted algebra numbers the blades of its dimension, and its orientations act
    on coordinates as the factors `1` and `-1`. -/
theorem numbering_of_ofConfig {α : Type} [Scalar α] {c : Config α} {A : Clifford α}
    (h : ofConfig c = .ok A) :
    A.table.Numbers c.dimension ∧ ∀ i,
      (A.table.sign i).toScalar = (1 : α) ∧ (A.table.sign i).toUnits = 1 ∨
        (A.table.sign i).toScalar = (-1 : α) ∧ (A.table.sign i).toUnits = -1 := by
  have hT := lawful_of_ofConfig h
  have hn : c.dimension = A.table.dimension := (dimension_of_ofConfig h).symm
  refine ⟨?_, fun i => (A.table.sign i).toScalar_eq_one_or⟩
  rw [hn]
  exact {
    index_blade := fun i hi => ⟨hT.blade_lt i hi, hT.index_blade i hi⟩
    blade_index := fun b hb => ⟨hT.index_lt b hb, hT.blade_index b hb⟩
    mem_group_iff := fun i hi g => (hT.gradeOf_eq_iff hi).symm
    sum_groupSize := ⟨hT.sum_groupSize, hT.size_blades⟩
    vectors := fun i hi => ⟨hT.nodup_vectors hi, fun v => hT.mem_vectors hi⟩
    sign := fun i hi => by
      rw [hT.sign_eq hi, Sign.toUnits_ofSwaps, Blade.sign_sort (hT.nodup_vectors hi)]
    offset := fun s _ g => hT.offset_eq s g }

/-- Space with the third bivector declared as `e3^e1`: its blade is stored against the canonical
    orientation. -/
theorem numbering_e3ga : ∃ A : Clifford Float, ofConfig Config.e3ga = .ok A ∧
    A.table.Numbers 3 ∧ A.table.vectors 6 = [2, 0] ∧ A.table.sign 6 = .minus := by
  have horder : (Config.e3ga : Config Float).basisOrder =
      .ok [[], [0], [1], [2], [0, 1], [1, 2], [2, 0], [0, 1, 2]] := by decide +kernel
  have hA := ofConfig_eq_ok_iff.mpr ⟨_, horder, rfl⟩
  exact ⟨_, hA, (numbering_of_ofConfig hA).1, by decide +kernel, by decide +kernel⟩

end Clifford

end GeometricAlgebra
