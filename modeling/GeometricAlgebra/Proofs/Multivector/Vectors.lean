/-
  GeometricAlgebra.Proofs.Multivector.Vectors

  Vectors, coordinate by coordinate.  The group of vectors stores them in the order in which their
  blades are declared, so the place of a vector in the group need not be its index.

    * `Clifford.vectorPlace`: the place of a basis vector in the group of vectors.
    * `Clifford.coordinate_vector`: a list of components is laid out by place.
    * `Clifford.value_basisVector`, `value_vector`: vectors as sums of blades.
    * `Clifford.vectorImage_eq`: the image of a basis vector under an outermorphism.
-/

import GeometricAlgebra.Proofs.Multivector.Outermorphism
import GeometricAlgebra.Proofs.Multivector.UnitBlades
import GeometricAlgebra.Proofs.Multivector.Versor

namespace GeometricAlgebra

/-- Stored components keep their places; missing ones are zero. -/
theorem Coordinates.getD_store_zeros {α : Type} [Scalar α] {n p : Nat} (hp : p < n)
    (xs : Coordinates α) : ((zeros n).store xs).getD p 0 = xs.getD p 0 := by
  rw [store, Array.getD_eq_getD_getElem?, Array.getD_eq_getD_getElem?, Array.getElem?_append]
  simp only [Array.size_extract, zeros, Array.size_replicate]
  by_cases hxs : p < xs.size
  · rw [if_pos (by omega), Array.getElem?_extract, if_pos (by omega), Nat.zero_add]
  · have hnone : xs[p]? = none := Array.getElem?_eq_none (by omega)
    rw [if_neg (by omega), Array.getElem?_extract, hnone]
    simp only [Array.getElem?_replicate]
    split
    · split <;> rfl
    · rfl

/-- A one among zeros. -/
theorem Coordinates.getD_setIfInBounds_zeros {α : Type} [Scalar α] {n p q : Nat} (hq : q < n) :
    ((zeros n).setIfInBounds p (1 : α)).getD q 0 = if q = p then 1 else 0 := by
  rw [Array.getD_eq_getD_getElem?, Array.getElem?_setIfInBounds]
  by_cases hpq : p = q
  · simp [hpq, hq, zeros]
  · simp [hpq, Ne.symm hpq, hq, zeros]

namespace Clifford

variable {α : Type} {A : Clifford α} {i j p : Nat}

/-! ## Places -/

/-- The place of a basis vector in the group of vectors. -/
def vectorPlace (A : Clifford α) (i : Nat) : Nat := A.localIndex (.ofVector i)

/-- Every vector is stored at the place of its index. -/
def VectorsInOrder (A : Clifford α) : Prop := ∀ i < A.dimension, A.vectorPlace i = i

instance (A : Clifford α) : Decidable A.VectorsInOrder :=
  inferInstanceAs (Decidable (∀ i < A.dimension, A.vectorPlace i = i))

section Places

variable (hT : A.table.Lawful)
include hT

theorem vectorPlace_lt (hi : i < A.dimension) : A.vectorPlace i < A.dimension := by
  have hlt := localIndex_lt hT (Blade.ofVector_lt hi)
  rwa [Blade.grade_ofVector, hT.groupSize_one] at hlt

theorem index_ofVector (hi : i < A.dimension) :
    A.table.index (.ofVector i) = A.table.denseStart 1 + A.vectorPlace i := by
  have hle := hT.denseStart_le_index (Blade.ofVector_lt hi)
  rw [Blade.grade_ofVector] at hle
  rw [vectorPlace, localIndex, Blade.grade_ofVector]
  omega

/-- No two vectors share a place. -/
theorem vectorPlace_inj (hi : i < A.dimension) (hj : j < A.dimension)
    (h : A.vectorPlace i = A.vectorPlace j) : i = j := by
  have hindex : A.table.index (.ofVector i) = A.table.index (.ofVector j) := by
    rw [index_ofVector hT hi, index_ofVector hT hj, h]
  refine Blade.ofVector_inj ?_
  rw [← hT.blade_index _ (Blade.ofVector_lt hi), hindex,
    hT.blade_index _ (Blade.ofVector_lt hj)]

/-! ## Coordinates -/

variable [Scalar α]

/-- What stores the vectors only, coordinate by coordinate. -/
theorem coordinate_vectorGroup {c : Coordinates α} (hc : c.size = A.dimension) (b : Blade) :
    A.coordinate ⟨GradeSet.insert 0 1, c⟩ b =
      if b.grade = 1 then c.getD (A.localIndex b) 0 else 0 := by
  by_cases hb : b.grade = 1
  · have hgroup : A.group? ⟨GradeSet.insert 0 1, c⟩ b.grade = some c := by
      rw [group?_of_has (by simp [hb]), hb, hT.offset_insert_zero, hT.groupSize_one, Nat.zero_add]
      exact congrArg some (Array.extract_eq_self_of_le hc.le)
    rw [if_pos hb, coordinate_of_group? hgroup]
  · rw [if_neg hb]
    exact coordinate_of_not_has (by simp [hb])

/-- The coordinates of a vector are its components, by place. -/
theorem coordinate_vector (components : Coordinates α) (hi : i < A.dimension) :
    A.coordinate (A.vector components) (.ofVector i) =
      components.getD (A.vectorPlace i) 0 := by
  have hsize : ((Coordinates.zeros A.dimension).store components).size = A.dimension := by
    rw [Coordinates.size_store, Coordinates.zeros, Array.size_replicate]
  rw [vector, coordinate_vectorGroup hT hsize, if_pos (Blade.grade_ofVector i)]
  exact Coordinates.getD_store_zeros (vectorPlace_lt hT hi) components

theorem coordinate_basisVector (hi : i < A.dimension) {b : Nat} (hb : b < 2 ^ A.dimension) :
    A.coordinate (A.basisVector i) b = if b = Blade.ofVector i then 1 else 0 := by
  have hsize : ((Coordinates.zeros A.dimension).setIfInBounds (A.vectorPlace i) (1 : α)).size =
      A.dimension := by
    rw [Array.size_setIfInBounds, Coordinates.zeros, Array.size_replicate]
  rw [basisVector_eq hT]
  refine (coordinate_vectorGroup hT hsize b).trans ?_
  by_cases hgrade : Blade.grade b = 1
  · obtain ⟨j, rfl⟩ := Blade.eq_ofVector_of_grade hgrade
    have hj : j < A.dimension := Blade.lt_of_ofVector_lt hb
    refine (if_pos hgrade).trans ?_
    refine (Coordinates.getD_setIfInBounds_zeros (vectorPlace_lt hT hj)).trans ?_
    -- equal places, equal vectors, equal blades
    refine if_congr ⟨fun h => ?_, fun h => ?_⟩ rfl rfl
    · rw [vectorPlace_inj hT hj hi h]
    · rw [Blade.ofVector_inj h]
  · have hne : b ≠ Blade.ofVector i := fun h => hgrade (h ▸ Blade.grade_ofVector i)
    rw [if_neg hgrade, if_neg hne]

end Places

/-! ## Values -/

section Values

variable {K : Type} [Field K] [LinearOrder K] {A : Clifford K} {R : BladeRule K}
  (hT : A.table.Lawful)
include hT

/-- Vectors are stored without a change of sign. -/
theorem coefficient_ofVector (x : Multivector K) {i : Nat} (hi : i < A.dimension) :
    A.coefficient x (.ofVector i) = A.coordinate x (.ofVector i) := by
  have hsign := hT.signOf_of_grade_le_one (Blade.ofVector_lt hi) (Blade.grade_ofVector i).le
  rw [coefficient, hsign, Sign.toScalar_plus, one_mul]

theorem value_basisVector {i : Nat} (hi : i < A.dimension) :
    value R A (A.basisVector i) = .single (.ofVector i) 1 := by
  ext b
  rw [BladeSum.single_apply, value_apply]
  by_cases hb : b < 2 ^ A.dimension
  · rw [if_pos hb]
    by_cases hbi : Blade.ofVector i = b
    · rw [if_pos hbi, ← hbi, coefficient_ofVector hT _ hi,
        coordinate_basisVector hT hi (Blade.ofVector_lt hi), if_pos rfl]
    · rw [if_neg hbi, coefficient, coordinate_basisVector hT hi hb, if_neg (Ne.symm hbi), mul_zero]
  · have hbi : Blade.ofVector i ≠ b := fun h => hb (h ▸ Blade.ofVector_lt hi)
    rw [if_neg hb, if_neg hbi]

/-- A vector is the sum of its basis vectors, each with the component at its place. -/
theorem value_vector (components : Coordinates K) : value R A (A.vector components) =
    ∑ i ∈ Finset.range A.dimension,
      .single (.ofVector i) (components.getD (A.vectorPlace i) 0) := by
  ext b
  rw [value_apply, BladeSum.sum_apply]
  simp only [BladeSum.single_apply]
  by_cases hgrade : Blade.grade b = 1
  · obtain ⟨j, rfl⟩ := Blade.eq_ofVector_of_grade hgrade
    by_cases hj : j < A.dimension
    · rw [if_pos (Blade.ofVector_lt hj), coefficient_ofVector hT _ hj,
        coordinate_vector hT components hj, Finset.sum_eq_single j]
      · rw [if_pos rfl]
      · exact fun i _ hij => if_neg fun h => hij (Blade.ofVector_inj h)
      · exact fun hmem => absurd (Finset.mem_range.mpr hj) hmem
    · rw [if_neg fun hb => hj (Blade.lt_of_ofVector_lt hb)]
      refine (Finset.sum_eq_zero fun i hi => if_neg fun h => hj ?_).symm
      exact Blade.ofVector_inj h ▸ Finset.mem_range.mp hi
  · have hcoordinate : A.coordinate (A.vector components) b = 0 :=
      coordinate_of_not_has (by simp [vector, hgrade])
    rw [coefficient, hcoordinate, mul_zero, ite_self]
    refine (Finset.sum_eq_zero fun i _ => if_neg fun h => hgrade ?_).symm
    rw [← h, Blade.grade_ofVector]

omit hT in
/-- Selecting the vectors of a vector loses nothing. -/
theorem IsVector.agree_extract {v : Multivector K} (hv : A.IsVector v) :
    A.Agree (A.extract v (GradeSet.insert 0 1)) v := by
  intro b hb
  refine (coordinate_extract hv.wellFormed _ b).trans ?_
  by_cases hgrade : Blade.grade b = 1
  · rw [if_pos (by simp [hgrade])]
  · rw [if_neg (by simp [hgrade]), hv.coordinate_eq_zero b hb hgrade]

theorem isVector_basisVector {i : Nat} (hi : i < A.dimension) :
    A.IsVector (A.basisVector i : Multivector K) where
  wellFormed := wellFormed_basisVector hi
  coordinate_eq_zero b hb hgrade := by
    rw [coordinate_basisVector hT hi hb, if_neg]
    rintro rfl
    exact hgrade (Blade.grade_ofVector i)

omit hT in
/-- An image that is a vector counts as a whole. -/
theorem vectorImage_eq {images : Array (Multivector K)} {i : Nat} {v : Multivector K}
    (hi : images[i]? = some v) (hv : A.IsVector v) :
    A.vectorImage images i = value A.outerRule A v := by
  have hpart : (A.vectorParts images).getD i .zero = A.extract v (GradeSet.insert 0 1) := by
    rw [Array.getD_eq_getD_getElem?, vectorParts, Array.getElem?_map, hi]
    rfl
  rw [vectorImage, hpart]
  exact agree_iff.mp hv.agree_extract

end Values

end Clifford

/-! ## Vectors out of order -/

/-- A plane that declares its second vector before its first one. -/
def Config.swappedPlane : Config ℚ where
  name := "s"
  vectors := ["a", "b"]
  blades := some [[], ["b"], ["a"], ["a", "b"]]

/-- The algebra of this plane. -/
def Clifford.swappedPlane : Clifford ℚ where
  config := .swappedPlane
  table := .ofOrder 2 [[], [1], [0], [0, 1]]
  metric := #[1, 1]

theorem Clifford.ofConfig_swappedPlane : ofConfig Config.swappedPlane = .ok swappedPlane :=
  ofConfig_eq_ok_iff.mpr ⟨_, by decide +kernel, rfl⟩

example : ¬ Clifford.swappedPlane.VectorsInOrder := by decide +kernel

end GeometricAlgebra
