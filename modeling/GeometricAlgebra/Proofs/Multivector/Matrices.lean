/-
  GeometricAlgebra.Proofs.Multivector.Matrices

  Outermorphisms of square matrices, in exact arithmetic.  A column is looked up by the index of a
  vector, its entries are laid out by place; the two conventions are one exactly if the algebra
  stores its vectors in the order of their indices.

    * `Clifford.coordinate_applyOutermorphism_basisVector`: the entry behind a coordinate of the
      image of a basis vector.
    * `Clifford.FollowsColumns`, `LeavesAll`, `Composes`: the matrix conventions.
    * `Clifford.outermorphismOfMatrix_of_ofConfig`: each of them holds exactly if the vectors are
      stored in order.
-/

import GeometricAlgebra.Proofs.Multivector.Vectors

namespace GeometricAlgebra

/-! ## Matrices -/

namespace Coordinates

variable {α : Type}

/-- The entries of a square matrix, row by row. -/
def rowMajor (n : Nat) (M : Nat → Nat → α) : Coordinates α :=
  ((List.range n).flatMap fun r => (List.range n).map (M r)).toArray

@[simp] theorem size_rowMajor (n : Nat) (M : Nat → Nat → α) : (rowMajor n M).size = n * n := by
  simp [rowMajor]

theorem rowMajor_congr {n : Nat} {M N : Nat → Nat → α} (h : ∀ r < n, ∀ i < n, M r i = N r i) :
    rowMajor n M = rowMajor n N := by
  refine congrArg List.toArray (List.flatMap_congr fun r hr => List.map_congr_left fun i hi => ?_)
  exact h r (List.mem_range.mp hr) i (List.mem_range.mp hi)

variable [Scalar α]

theorem getD_rowMajor {n r i : Nat} (M : Nat → Nat → α) (hr : r < n) (hi : i < n) :
    (rowMajor n M).getD (r * n + i) 0 = M r i := by
  rw [rowMajor, Array.getD_eq_getD_getElem?, List.getElem?_toArray,
    getElem?_flatMap_range (by simp) hr hi]
  simp [hi]

/-- The entry of the identity matrix. -/
def identityEntry (r i : Nat) : α := if r = i then 1 else 0

end Coordinates

open Coordinates (rowMajor identityEntry)

namespace Clifford

/-! ## Columns -/

section Columns

variable {α : Type} [Scalar α] {A : Clifford α} {matrix : Coordinates α} {f : Outermorphism α}

/-- The columns of a matrix as vectors. -/
def columnVectors (A : Clifford α) (matrix : Coordinates α) : Array (Multivector α) :=
  ((List.range A.dimension).map fun col => A.vector ((List.range A.dimension).map fun row =>
    matrix.getD (row * A.dimension + col) 0).toArray).toArray

/-- The outermorphism of a matrix has the columns as images. -/
theorem outermorphismOfMatrix_eq_ok_iff : A.outermorphismOfMatrix matrix = .ok f ↔
    matrix.size = A.dimension * A.dimension ∧
      A.outermorphismOfImages (A.columnVectors matrix) = .ok f := by
  unfold outermorphismOfMatrix
  by_cases hsize : matrix.size = A.dimension * A.dimension
  · simp [hsize, columnVectors]
  · simp [hsize]

theorem getElem?_columnVectors {i : Nat} (hi : i < A.dimension) : (A.columnVectors matrix)[i]? =
    some (A.vector
      ((List.range A.dimension).map fun row => matrix.getD (row * A.dimension + i) 0).toArray) := by
  simp [columnVectors, hi]

theorem wellFormed_of_mem_columnVectors (hT : A.table.Lawful) (hn : 0 < A.dimension) :
    ∀ v ∈ A.columnVectors matrix, v.WellFormed A := by
  intro v hv
  obtain ⟨i, -, rfl⟩ := List.mem_map.mp (List.mem_toArray.mp hv)
  exact wellFormed_vector hT hn _

end Columns

/-! ## Conventions -/

section Conventions

variable {α : Type} [Scalar α]

/-- Column `i` of a matrix holds the components of the image of vector `i`. -/
def FollowsColumns (A : Clifford α) : Prop :=
  ∀ matrix f, A.outermorphismOfMatrix matrix = .ok f →
    ∀ r < A.dimension, ∀ i < A.dimension,
      A.coordinate (A.applyOutermorphism f (A.basisVector i)) (Blade.ofVector r) =
        matrix.getD (r * A.dimension + i) 0

/-- The identity matrix leaves every multivector as it is. -/
def LeavesAll (A : Clifford α) : Prop :=
  ∀ f, A.outermorphismOfMatrix (rowMajor A.dimension identityEntry) = .ok f →
    ∀ x : Multivector α, x.WellFormed A → A.applyOutermorphism f x = x

end Conventions

variable {K : Type} [Field K] [LinearOrder K] {A : Clifford K} {matrix : Coordinates K}
  {f g fg : Outermorphism K} {x : Multivector K}

/-- The product of two matrices is the one outermorphism after the other. -/
def Composes (A : Clifford K) : Prop :=
  ∀ M N f g fg, A.outermorphismOfMatrix (rowMajor A.dimension M) = .ok f →
    A.outermorphismOfMatrix (rowMajor A.dimension N) = .ok g →
    A.outermorphismOfMatrix (rowMajor A.dimension
      fun r i => ∑ k ∈ Finset.range A.dimension, M r k * N k i) = .ok fg →
    ∀ x : Multivector K, x.WellFormed A → A.applyOutermorphism fg x =
      A.applyOutermorphism f (A.applyOutermorphism g x)

/-- A square matrix gives an outermorphism. -/
theorem exists_outermorphismOfMatrix (hsize : matrix.size = A.dimension * A.dimension) :
    ∃ f, A.outermorphismOfMatrix matrix = .ok f := by
  have hcolumns : (A.columnVectors matrix).size = A.dimension := by simp [columnVectors]
  obtain ⟨f, hf⟩ := exists_outermorphismOfImages hcolumns
  exact ⟨f, outermorphismOfMatrix_eq_ok_iff.mpr ⟨hsize, hf⟩⟩

section Exact

variable [IsStrictOrderedRing K] (hT : A.table.Lawful) (hn : 0 < A.dimension)
include hT hn

/-! ## Images of vectors -/

omit [IsStrictOrderedRing K] in
/-- The image of a basis vector, with the entries laid out by place. -/
theorem vectorImage_columnVectors {i : Nat} (hi : i < A.dimension) :
    A.vectorImage (A.columnVectors matrix) i = ∑ r ∈ Finset.range A.dimension,
      BladeSum.single (Blade.ofVector r)
        (matrix.getD (A.vectorPlace r * A.dimension + i) 0) := by
  rw [vectorImage_eq (getElem?_columnVectors hi) (isVector_vector hT hn _), value_vector hT]
  refine Finset.sum_congr rfl fun r hr => ?_
  have hplace := vectorPlace_lt hT (Finset.mem_range.mp hr)
  simp [Array.getD_eq_getD_getElem?, hplace]

section Apply

variable (hf : A.outermorphismOfMatrix matrix = .ok f)
include hf

theorem value_applyOutermorphism_matrix (hx : x.WellFormed A) :
    value A.outerRule A (A.applyOutermorphism f x) =
      BladeSum.extend (ascending (A.vectorImage (A.columnVectors matrix)))
        (value A.outerRule A x) :=
  value_applyOutermorphism hT (wellFormed_of_mem_columnVectors hT hn)
    (outermorphismOfMatrix_eq_ok_iff.mp hf).2 hx

theorem value_applyOutermorphism_basisVector {i : Nat} (hi : i < A.dimension) :
    value A.outerRule A (A.applyOutermorphism f (A.basisVector i)) =
      A.vectorImage (A.columnVectors matrix) i := by
  rw [value_applyOutermorphism_matrix hT hn hf (wellFormed_basisVector hi),
    value_basisVector hT hi, BladeSum.extend_single, one_smul, ascending_ofVector]

/-- The coordinate at vector `r` of the image of vector `i` is in column `i`, in the row of the
    place of `r`. -/
theorem coordinate_applyOutermorphism_basisVector {r i : Nat} (hr : r < A.dimension)
    (hi : i < A.dimension) :
    A.coordinate (A.applyOutermorphism f (A.basisVector i)) (Blade.ofVector r) =
      matrix.getD (A.vectorPlace r * A.dimension + i) 0 := by
  rw [← coefficient_ofVector hT _ hr, ← value_apply_of_lt (R := A.outerRule) (Blade.ofVector_lt hr),
    value_applyOutermorphism_basisVector hT hn hf hi, vectorImage_columnVectors hT hn hi,
    BladeSum.sum_apply, Finset.sum_eq_single_of_mem r (Finset.mem_range.mpr hr)]
  · rw [BladeSum.single_apply, if_pos rfl]
  · intro s _ hsr
    rw [BladeSum.single_apply, if_neg fun h => hsr (Blade.ofVector_inj h)]

end Apply

/-! ## Vectors in order -/

theorem followsColumns_iff : A.FollowsColumns ↔ A.VectorsInOrder := by
  constructor
  · intro h r hr
    -- a matrix whose entries are the indices of their rows
    obtain ⟨f, hf⟩ := exists_outermorphismOfMatrix (A := A)
      (Coordinates.size_rowMajor A.dimension fun r _ => (r : K))
    have hcoordinate := h _ f hf r hr r hr
    rw [coordinate_applyOutermorphism_basisVector hT hn hf hr hr,
      Coordinates.getD_rowMajor _ (vectorPlace_lt hT hr) hr, Coordinates.getD_rowMajor _ hr hr]
      at hcoordinate
    exact Nat.cast_injective hcoordinate
  · intro h matrix f hf r hr i hi
    rw [coordinate_applyOutermorphism_basisVector hT hn hf hr hi, h r hr]

omit [IsStrictOrderedRing K] in
/-- The identity matrix takes the vector whose index is a place to the vector at that place. -/
theorem vectorImage_identity {i : Nat} (hi : i < A.dimension) :
    A.vectorImage (A.columnVectors (rowMajor A.dimension identityEntry)) (A.vectorPlace i) =
      BladeSum.single (Blade.ofVector i) 1 := by
  have hplace := vectorPlace_lt hT hi
  have hentry : ∀ r < A.dimension, (rowMajor A.dimension identityEntry).getD
      (A.vectorPlace r * A.dimension + A.vectorPlace i) 0 = if r = i then (1 : K) else 0 := by
    intro r hr
    rw [Coordinates.getD_rowMajor _ (vectorPlace_lt hT hr) hplace, identityEntry]
    refine if_congr ⟨vectorPlace_inj hT hr hi, fun h => ?_⟩ rfl rfl
    rw [h]
  rw [vectorImage_columnVectors hT hn hplace,
    Finset.sum_eq_single_of_mem i (Finset.mem_range.mpr hi)]
  · rw [hentry i hi, if_pos rfl]
  · intro r hr hri
    rw [hentry r (Finset.mem_range.mp hr), if_neg hri, BladeSum.single_zero]

section InOrder

variable (h : A.VectorsInOrder)
include h

omit [IsStrictOrderedRing K] in
/-- With the vectors in order, the rows are laid out by index too. -/
theorem vectorImage_rowMajor (M : Nat → Nat → K) {i : Nat} (hi : i < A.dimension) :
    A.vectorImage (A.columnVectors (rowMajor A.dimension M)) i =
      ∑ r ∈ Finset.range A.dimension, M r i • BladeSum.single (Blade.ofVector r) 1 := by
  rw [vectorImage_columnVectors hT hn hi]
  refine Finset.sum_congr rfl fun r hr => ?_
  have hr := Finset.mem_range.mp hr
  rw [h r hr, Coordinates.getD_rowMajor M hr hi, BladeSum.single_eq_smul]

theorem leavesAll_of_vectorsInOrder : A.LeavesAll := by
  intro f hf x hx
  have himage : ∀ i < A.dimension,
      A.vectorImage (A.columnVectors (rowMajor A.dimension identityEntry)) i =
        BladeSum.single (Blade.ofVector i) 1 := by
    intro i hi
    rw [← vectorImage_identity hT hn hi, h i hi]
  refine applyOutermorphism_eq_of_value hT hx hx rfl ?_
  rw [value_applyOutermorphism_matrix hT hn hf hx,
    BladeSum.extend_ascending_congr (fun b hb => lt_of_value_ne_zero hb) himage,
    BladeSum.extend_ascending_single (isExterior_outerRule A)]

theorem composes_of_vectorsInOrder : A.Composes := by
  intro M N f g fg hf hg hfg x hx
  have hcolumns : ∀ v ∈ A.columnVectors (rowMajor A.dimension M), v.WellFormed A :=
    wellFormed_of_mem_columnVectors hT hn
  have hgx := wellFormed_applyOutermorphism hx g
  -- a column of the product is the image of a column
  have himage : ∀ i < A.dimension,
      A.vectorImage (A.columnVectors (rowMajor A.dimension
        fun r i => ∑ k ∈ Finset.range A.dimension, M r k * N k i)) i =
      BladeSum.extend (ascending (A.vectorImage (A.columnVectors (rowMajor A.dimension M))))
        (A.vectorImage (A.columnVectors (rowMajor A.dimension N)) i) := by
    intro i hi
    rw [vectorImage_rowMajor hT hn h N hi, vectorImage_rowMajor hT hn h _ hi, map_sum]
    simp only [map_smul, BladeSum.extend_single, ascending_ofVector, one_smul, Finset.sum_smul]
    rw [Finset.sum_comm]
    refine Finset.sum_congr rfl fun k hk => ?_
    rw [vectorImage_rowMajor hT hn h M (Finset.mem_range.mp hk), Finset.smul_sum]
    refine Finset.sum_congr rfl fun r _ => ?_
    rw [smul_smul, mul_comm]
  refine applyOutermorphism_eq_of_value hT hx (wellFormed_applyOutermorphism hgx f) ?_ ?_
  · rw [applyOutermorphism, applyOutermorphism, mapGroups_eq, mapGroups_eq]
  · rw [value_applyOutermorphism_matrix hT hn hfg hx, value_applyOutermorphism_matrix hT hn hf hgx,
      value_applyOutermorphism_matrix hT hn hg hx,
      BladeSum.extend_ascending_congr (fun b hb => lt_of_value_ne_zero hb) himage,
      BladeSum.extend_ascending_comp (isExterior_outerRule A) (alternating_vectorImage hcolumns)]

end InOrder

omit [IsStrictOrderedRing K] in
/-- If the identity matrix leaves the vectors as they are, they are stored in order. -/
theorem vectorsInOrder_of_vectorImage (h : ∀ i < A.dimension,
    A.vectorImage (A.columnVectors (rowMajor A.dimension identityEntry)) i =
      BladeSum.single (Blade.ofVector i) 1) : A.VectorsInOrder := by
  intro i hi
  have himage := vectorImage_identity hT hn hi
  rw [h _ (vectorPlace_lt hT hi)] at himage
  -- equal unit blades are equal vectors
  have hcoefficient := DFunLike.congr_fun himage (Blade.ofVector i)
  rw [BladeSum.single_apply, BladeSum.single_apply, if_pos rfl] at hcoefficient
  by_contra hne
  rw [if_neg fun hblade => hne (Blade.ofVector_inj hblade)] at hcoefficient
  exact zero_ne_one hcoefficient

theorem leavesAll_iff : A.LeavesAll ↔ A.VectorsInOrder := by
  refine ⟨fun h => vectorsInOrder_of_vectorImage hT hn fun i hi => ?_,
    leavesAll_of_vectorsInOrder hT hn⟩
  obtain ⟨f, hf⟩ := exists_outermorphismOfMatrix (A := A)
    (Coordinates.size_rowMajor A.dimension (identityEntry (α := K)))
  rw [← value_applyOutermorphism_basisVector hT hn hf hi, h f hf _ (wellFormed_basisVector hi),
    value_basisVector hT hi]

theorem composes_iff : A.Composes ↔ A.VectorsInOrder := by
  refine ⟨fun h => vectorsInOrder_of_vectorImage hT hn fun i hi => ?_,
    composes_of_vectorsInOrder hT hn⟩
  obtain ⟨f, hf⟩ := exists_outermorphismOfMatrix (A := A)
    (Coordinates.size_rowMajor A.dimension (identityEntry (α := K)))
  have hsquare : rowMajor A.dimension (fun r i => ∑ k ∈ Finset.range A.dimension,
      (identityEntry r k * identityEntry k i : K)) = rowMajor A.dimension identityEntry := by
    refine Coordinates.rowMajor_congr fun r hr i _ => ?_
    rw [Finset.sum_eq_single_of_mem r (Finset.mem_range.mpr hr)]
    · rw [identityEntry, if_pos rfl, one_mul]
    · intro k _ hkr
      rw [identityEntry, if_neg (Ne.symm hkr)]
      exact zero_mul _
  -- the identity matrix is its own square, so its outermorphism leaves what it gives: it gives
  -- vector `i` from the vector at the place of `i`
  have hplace := vectorPlace_lt hT hi
  have hbasis : (A.basisVector (A.vectorPlace i) : Multivector K).WellFormed A :=
    wellFormed_basisVector hplace
  have hvalue := value_applyOutermorphism_basisVector hT hn hf hplace
  have htwice := h identityEntry identityEntry f f f hf hf (by rwa [hsquare]) _ hbasis
  rw [htwice, value_applyOutermorphism_matrix hT hn hf (wellFormed_applyOutermorphism hbasis f),
    value_applyOutermorphism_basisVector hT hn hf hplace, vectorImage_identity hT hn hi,
    BladeSum.extend_single, one_smul, ascending_ofVector] at hvalue
  exact hvalue

end Exact

/-- In exact arithmetic, in every accepted algebra, every square matrix gives an outermorphism.  The
    coordinate at vector `r` of the image of vector `i` is the entry in column `i`, in the row of
    the place of `r` in the group of vectors.  So the matrix conventions hold exactly if every
    vector is stored at the place of its index: that column `i` holds the components of the image
    of vector `i`, that the identity matrix leaves every multivector as it is, and that a product
    of matrices is the one outermorphism after the other. -/
theorem outermorphismOfMatrix_of_ofConfig [IsStrictOrderedRing K] {c : Config K}
    (h : ofConfig c = .ok A) :
    (∀ matrix : Coordinates K, matrix.size = A.dimension * A.dimension →
      ∃ f, A.outermorphismOfMatrix matrix = .ok f ∧
        ∀ r < A.dimension, ∀ i < A.dimension,
          A.coordinate (A.applyOutermorphism f (A.basisVector i)) (Blade.ofVector r) =
            matrix.getD (A.vectorPlace r * A.dimension + i) 0) ∧
      (A.FollowsColumns ↔ A.VectorsInOrder) ∧ (A.LeavesAll ↔ A.VectorsInOrder) ∧
      (A.Composes ↔ A.VectorsInOrder) := by
  have hT := lawful_of_ofConfig h
  have hn := dimension_pos_of_ofConfig h
  refine ⟨fun matrix hsize => ?_, followsColumns_iff hT hn, leavesAll_iff hT hn,
    composes_iff hT hn⟩
  obtain ⟨f, hf⟩ := exists_outermorphismOfMatrix hsize
  exact ⟨f, hf, fun r hr i hi => coordinate_applyOutermorphism_basisVector hT hn hf hr hi⟩

/-- In the swapped plane the rows are swapped, and no matrix convention holds. -/
theorem outermorphismOfMatrix_swappedPlane :
    ofConfig Config.swappedPlane = .ok swappedPlane ∧
      (∃ f, swappedPlane.outermorphismOfMatrix #[1, 2, 3, 4] = .ok f ∧
        swappedPlane.coordinate (swappedPlane.applyOutermorphism f (swappedPlane.basisVector 0))
          (Blade.ofVector 0) = 3) ∧
      ¬ swappedPlane.FollowsColumns ∧ ¬ swappedPlane.LeavesAll ∧ ¬ swappedPlane.Composes := by
  have hA := ofConfig_swappedPlane
  obtain ⟨hentry, hfollows, hleaves, hcomposes⟩ := outermorphismOfMatrix_of_ofConfig hA
  have hswapped : ¬ swappedPlane.VectorsInOrder := by decide +kernel
  obtain ⟨f, hf, hcoordinate⟩ := hentry #[1, 2, 3, 4] rfl
  have hfirst := (hcoordinate 0 (by decide) 0 (by decide)).trans (c := 3) (by decide +kernel)
  exact ⟨hA, ⟨f, hf, hfirst⟩, mt hfollows.mp hswapped,
    mt hleaves.mp hswapped, mt hcomposes.mp hswapped⟩

/-- The identity matrix takes the first vector of the swapped plane to the second one. -/
theorem identity_swappedPlane :
    ofConfig Config.swappedPlane = .ok swappedPlane ∧
      ∃ f, swappedPlane.outermorphismOfMatrix #[1, 0, 0, 1] = .ok f ∧
        swappedPlane.coordinate (swappedPlane.applyOutermorphism f (swappedPlane.basisVector 0))
          (Blade.ofVector 0) ≠ 1 ∧
        swappedPlane.applyOutermorphism f (swappedPlane.basisVector 0) =
          swappedPlane.basisVector 1 :=
  ⟨ofConfig_swappedPlane, ⟨#[#[1], #[0, 1, 1, 0], #[-1]]⟩, by decide +kernel⟩

end Clifford

end GeometricAlgebra
