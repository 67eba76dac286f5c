/-
  GeometricAlgebra.Proofs.Multivector.Outermorphism

  Outermorphisms in exact arithmetic.  The matrices act group by group; together they are the
  extension of the vector images to all sums of blades, whatever the order and orientation of the
  stored blades.

    * `Clifford.entry_applyOutermorphism`: an image, entry by entry.
    * `Clifford.value_applyOutermorphism`: the value of an image.
    * `Clifford.outermorphism_of_ofConfig`: outermorphisms respect the outer product and compose.
-/

import GeometricAlgebra.Proofs.Blade.Exterior
import GeometricAlgebra.Proofs.Multivector.Value
import GeometricAlgebra.Outermorphism

namespace GeometricAlgebra

/-! ## Matrices row by row -/

/-- In rows of equal length, an entry is found by its row and its place there. -/
theorem getElem?_flatMap_range {β : Type} {f : Nat → List β} {n : Nat}
    (hf : ∀ i, (f i).length = n) {m row col : Nat} (hrow : row < m) (hcol : col < n) :
    ((List.range m).flatMap f)[row * n + col]? = (f row)[col]? := by
  have hlength : ∀ m, ((List.range m).flatMap f).length = m * n := by
    intro m
    induction m with
    | zero => simp
    | succ m ih => simp [List.range_succ, ih, hf, Nat.succ_mul]
  induction m with
  | zero => exact absurd hrow (Nat.not_lt_zero row)
  | succ m ih =>
    rw [List.range_succ, List.flatMap_append, List.flatMap_singleton]
    rcases Nat.lt_succ_iff_lt_or_eq.mp hrow with hlt | rfl
    · have hbefore : row * n + col < m * n := by
        calc row * n + col < (row + 1) * n := by rw [Nat.succ_mul]; omega
          _ ≤ m * n := Nat.mul_le_mul_right n hlt
      rw [List.getElem?_append_left (by rwa [hlength]), ih hlt]
    · rw [List.getElem?_append_right (by rw [hlength]; omega), hlength, Nat.add_sub_cancel_left]

/-! ## Vector parts -/

namespace Clifford

variable {α : Type} {A : Clifford α} {images : Array (Multivector α)}

/-- The vector parts of the images. -/
def vectorParts (A : Clifford α) (images : Array (Multivector α)) : Array (Multivector α) :=
  images.map fun v => A.extract v (GradeSet.insert 0 1)

theorem wellFormed_vectorParts (himages : ∀ v ∈ images, v.WellFormed A) (i : Nat) :
    ((A.vectorParts images).getD i .zero).WellFormed A := by
  rw [Array.getD_eq_getD_getElem?, vectorParts, Array.getElem?_map]
  cases hi : images[i]? with
  | none => exact Multivector.wellFormed_zero
  | some v => exact wellFormed_extract (himages v (Array.mem_of_getElem? hi)) _

theorem wedgeImages_append_singleton [Scalar α] (vectors : Array (Multivector α)) (vs : List Nat)
    (v : Nat) : A.wedgeImages vectors (vs ++ [v]) =
      A.op (A.wedgeImages vectors vs) (vectors.getD v .zero) := by
  rw [wedgeImages, List.foldl_append]
  rfl

/-- Selecting grades before or after makes no difference. -/
theorem extract_applyOutermorphism [Scalar α] {x : Multivector α} (hx : x.WellFormed A)
    (f : Outermorphism α) (mask : GradeSet) :
    A.extract (A.applyOutermorphism f x) mask = A.applyOutermorphism f (A.extract x mask) := by
  have hfx := wellFormed_applyOutermorphism hx f
  have hextract := wellFormed_extract hx mask
  refine (wellFormed_extract hfx mask).ext (wellFormed_applyOutermorphism hextract f) fun g _ => ?_
  rw [group?_extract hfx, applyOutermorphism, applyOutermorphism,
    group?_mapGroups (fun _ _ => by simp) hx, group?_mapGroups (fun _ _ => by simp) hextract,
    group?_extract hx]
  cases mask.has g with
  | false => rfl
  | true => rfl

end Clifford

section Exact

variable {K : Type} [Field K] [LinearOrder K]

/-- In exact arithmetic the zero that a sum starts from is zero. -/
theorem Scalar.sum_eq (xs : List K) : Scalar.sum xs = xs.sum := by
  have hfold : ∀ (xs : List K) (s : K), xs.foldl (· + ·) s = s + xs.sum := by
    intro xs
    induction xs with
    | nil => simp
    | cons x xs ih =>
      intro s
      rw [List.foldl_cons, ih, List.sum_cons, add_assoc]
  have hzero : (negZero : K) = 0 := neg_zero
  rw [Scalar.sum, hfold, hzero, zero_add]

namespace Clifford

/-- A row of a matrix times a column. -/
theorem rowTimes_eq {matrix column : Coordinates K} {row : Nat}
    (h : row * column.size + column.size ≤ matrix.size) : rowTimes matrix column row =
      ∑ k ∈ Finset.range column.size,
        matrix.getD (row * column.size + k) 0 * column.getD k 0 := by
  rw [rowTimes, Scalar.sum_eq, ← sum_map_range]
  congr 1
  apply List.ext_getElem
  · simp
    omega
  · intro k hk hk'
    have hcolumn : k < column.size := by simpa using hk'
    have hmatrix : row * column.size + k < matrix.size := by omega
    simp [Array.getD_eq_getD_getElem?, hcolumn, hmatrix]

variable {A : Clifford K} {images : Array (Multivector K)} {f : Outermorphism K}
  {x : Multivector K}

/-! ## Columns -/

/-- The matrix of a group, entry by entry. -/
theorem getD_outermorphismMatrix {g row col : Nat} (hrow : row < A.table.groupSize g)
    (hcol : col < A.table.groupSize g) :
    (A.outermorphismMatrix images g).getD (row * A.table.groupSize g + col) 0 =
      ((A.group? (A.wedgeImages images (A.table.vectors (A.table.denseStart g + col))) g).getD
        (Coordinates.zeros (A.table.groupSize g))).getD row 0 := by
  rw [outermorphismMatrix, Array.getD_eq_getD_getElem?, List.getElem?_toArray,
    getElem?_flatMap_range (by simp) hrow hcol]
  simp [hcol]

theorem size_outermorphismMatrix (images : Array (Multivector K)) (g : Nat) :
    (A.outermorphismMatrix images g).size = A.table.groupSize g * A.table.groupSize g := by
  simp [outermorphismMatrix]

theorem outermorphismOfImages_eq_ok_iff : A.outermorphismOfImages images = .ok f ↔
    images.size = A.dimension ∧
      f = ⟨(A.table.groups.map (A.outermorphismMatrix (A.vectorParts images))).toArray⟩ := by
  unfold outermorphismOfImages
  by_cases hsize : images.size = A.dimension
  · simp [hsize, vectorParts, eq_comm]
  · simp [hsize]

/-- One image for each basis vector is enough. -/
theorem exists_outermorphismOfImages (hsize : images.size = A.dimension) :
    ∃ f, A.outermorphismOfImages images = .ok f :=
  ⟨_, outermorphismOfImages_eq_ok_iff.mpr ⟨hsize, rfl⟩⟩

theorem matrix_of_outermorphismOfImages (hf : A.outermorphismOfImages images = .ok f) {g : Nat}
    (hg : g ≤ A.table.dimension) :
    f.matrix g = A.outermorphismMatrix (A.vectorParts images) g := by
  obtain ⟨-, rfl⟩ := outermorphismOfImages_eq_ok_iff.mp hf
  have hlt : g < A.table.numGroups := Nat.lt_succ_of_le hg
  simp [Outermorphism.matrix, GradeTable.groups, Array.getD_eq_getD_getElem?, hlt]

/-- The wedge of the images of the vectors of a stored blade. -/
def column (A : Clifford K) (images : Array (Multivector K)) (p : Nat) : Multivector K :=
  A.wedgeImages (A.vectorParts images) (A.table.vectors p)

/-- The value of the vector part of an image, zero beyond the dimension. -/
noncomputable def vectorImage (A : Clifford K) (images : Array (Multivector K)) (i : Nat) :
    BladeSum A.outerRule :=
  value A.outerRule A ((A.vectorParts images).getD i .zero)

theorem isExterior_outerRule (A : Clifford K) : A.outerRule.IsExterior where
  factor_of_disjoint a b h := by
    have hgrade := Blade.grade_xor a b
    rw [h, Blade.grade_zero] at hgrade
    rw [outerRule_factor, if_pos (by omega), Blade.coefficient_eq, Blade.metricFactor, h]
    exact mul_one _
  factor_of_shared a b h := by
    have hgrade := Blade.grade_xor a b
    have hshared : Blade.grade (a &&& b) ≠ 0 := fun hzero => h (Blade.grade_eq_zero.mp hzero)
    rw [outerRule_factor, if_neg (by omega)]

section Images

variable (himages : ∀ v ∈ images, v.WellFormed A)
include himages

theorem isVector_vectorImage (i : Nat) : (A.vectorImage images i).IsVector := by
  refine hasGrades_value_iff.mpr fun b _ hb => ?_
  rw [Array.getD_eq_getD_getElem?, vectorParts, Array.getElem?_map]
  cases hi : images[i]? with
  | none => exact coordinate_of_not_has (by simp [Multivector.zero])
  | some v =>
    have hv := himages v (Array.mem_of_getElem? hi)
    rw [Option.map_some, Option.getD_some, coordinate_extract hv, if_neg (by simpa using hb)]

variable [IsStrictOrderedRing K]

theorem alternating_vectorImage : Alternating (A.vectorImage images) :=
  BladeSum.alternating_of_isVector (isExterior_outerRule A) (isVector_vectorImage himages)

variable (hT : A.table.Lawful)
include hT

/-- The value of a wedge of images is the product of their values. -/
theorem value_wedgeImages (vs : List Nat) :
    (A.wedgeImages (A.vectorParts images) vs).WellFormed A ∧
      value A.outerRule A (A.wedgeImages (A.vectorParts images) vs) =
        (vs.map (A.vectorImage images)).prod := by
  induction vs using List.reverseRecOn with
  | nil =>
    refine ⟨Multivector.wellFormed_scalar hT 1, ?_⟩
    exact (value_scalar hT 1).trans (one_smul K 1)
  | append_singleton vs v ih =>
    have hv := wellFormed_vectorParts himages v
    rw [wedgeImages_append_singleton]
    refine ⟨wellFormed_op hT _ _, ?_⟩
    rw [value_op hT ih.1 hv, ih.2, List.map_append, List.prod_append, List.map_singleton,
      List.prod_singleton]
    rfl

theorem wellFormed_column (p : Nat) : (A.column images p).WellFormed A :=
  (value_wedgeImages himages hT _).1

/-- The wedge of the images of a stored blade, against the images of its vectors in ascending
    order: the orientation of the blade is the sign between them. -/
theorem value_column {b : Nat} (hb : b < 2 ^ A.table.dimension) :
    value A.outerRule A (A.column images (A.table.index b)) =
      ((A.table.signOf b).toScalar : K) • ascending (A.vectorImage images) b := by
  have halternating := alternating_vectorImage himages
  have hwedge := hT.wedge?_vectors _ (hT.index_lt b hb)
  rw [column, (value_wedgeImages himages hT _).2, halternating.prod_eq_wedge? (K := K), hwedge,
    hT.blade_index b hb]
  rfl

/-- A column has entries in its own group only. -/
theorem entry_column_of_ne {p r : Nat} (hp : p < 2 ^ A.table.dimension)
    (hr : r < 2 ^ A.table.dimension) (h : A.table.gradeOf r ≠ A.table.gradeOf p) :
    A.entry (A.column images p) r = 0 := by
  have hvectors : ∀ u ∈ (A.table.vectors p).map (A.vectorImage images), u.IsVector := by
    intro u hu
    obtain ⟨v, -, rfl⟩ := List.mem_map.mp hu
    exact isVector_vectorImage himages v
  have hgrades := BladeSum.hasGrades_prod (isExterior_outerRule A) hvectors
  rw [← (value_wedgeImages himages hT _).2, List.length_map, hT.length_vectors hp] at hgrades
  rw [entry_eq_coordinate hT (wellFormed_column himages hT p) hr]
  exact hasGrades_value_iff.mp hgrades _ (hT.blade_lt r hr) h

end Images

/-! ## Images of multivectors -/

/-- An image stores the grades of its argument, so its value determines it. -/
theorem applyOutermorphism_eq_of_value (hT : A.table.Lawful) {y : Multivector K}
    (hx : x.WellFormed A) (hy : y.WellFormed A) (hgrades : x.grades = y.grades)
    (h : value A.outerRule A (A.applyOutermorphism f x) = value A.outerRule A y) :
    A.applyOutermorphism f x = y := by
  have hfx := wellFormed_applyOutermorphism hx f
  have hstored : (A.applyOutermorphism f x).grades = y.grades := by
    rw [applyOutermorphism, mapGroups_eq, hgrades]
  refine ext_entry hT hfx hy hstored fun r hr => entry_eq_of_coefficient hT hfx hy ?_ hr
  intro b hb
  rw [← value_apply_of_lt (R := A.outerRule) hb, ← value_apply_of_lt (R := A.outerRule) hb, h]

section Apply

variable [IsStrictOrderedRing K] (hT : A.table.Lawful)
  (himages : ∀ v ∈ images, v.WellFormed A) (hf : A.outermorphismOfImages images = .ok f)
include hT himages hf

/-- The matrix of a group holds the columns of its blades. -/
theorem getD_matrix {g row col : Nat} (hg : g ≤ A.table.dimension)
    (hrow : row < A.table.groupSize g) (hcol : col < A.table.groupSize g) :
    (f.matrix g).getD (row * A.table.groupSize g + col) 0 =
      A.entry (A.column images (A.table.denseStart g + col)) (A.table.denseStart g + row) := by
  rw [matrix_of_outermorphismOfImages hf hg, getD_outermorphismMatrix hrow hcol,
    entry_place hT (wellFormed_column himages hT _) hg hrow, column]
  -- a column that does not store its group has zeros there
  cases A.group? (A.wedgeImages (A.vectorParts images) _) g with
  | some c => rfl
  | none => exact Coordinates.getD_zeros _ row

/-- A group of an image: the matrix of the group times the group. -/
theorem entry_applyOutermorphism_place (hx : x.WellFormed A) {g a : Nat}
    (hg : g ≤ A.table.dimension) (ha : a < A.table.groupSize g) :
    A.entry (A.applyOutermorphism f x) (A.table.denseStart g + a) =
      ∑ k ∈ Finset.range (A.table.groupSize g),
        A.entry (A.column images (A.table.denseStart g + k)) (A.table.denseStart g + a) *
          A.entry x (A.table.denseStart g + k) := by
  rw [entry_place hT (wellFormed_applyOutermorphism hx f) hg ha, applyOutermorphism,
    group?_mapGroups (fun _ _ => by simp) hx]
  cases hc : A.group? x g with
  | none =>
    -- a group that is not stored has zero entries
    symm
    refine Finset.sum_eq_zero fun k hk => ?_
    rw [entry_place hT hx hg (Finset.mem_range.mp hk), hc]
    exact mul_zero _
  | some c =>
    have hsize := hx.size_group hc
    have hrow : a * c.size + c.size ≤ (f.matrix g).size := by
      rw [matrix_of_outermorphismOfImages hf hg, size_outermorphismMatrix, hsize,
        ← Nat.succ_mul]
      exact Nat.mul_le_mul_right _ ha
    have hac : a < c.size := hsize ▸ ha
    have hget : ((List.range c.size).map (rowTimes (f.matrix g) c)).toArray.getD a 0 =
        rowTimes (f.matrix g) c a := by
      simp [Array.getD_eq_getD_getElem?, hac]
    rw [Option.map_some, Option.getD_some, hget, rowTimes_eq hrow, hsize]
    refine Finset.sum_congr rfl fun k hk => ?_
    have hk := Finset.mem_range.mp hk
    rw [getD_matrix hT himages hf hg ha hk, entry_place hT hx hg hk, hc]
    rfl

/-- An image, entry by entry, over all columns: those of other groups contribute nothing. -/
theorem entry_applyOutermorphism (hx : x.WellFormed A) {r : Nat}
    (hr : r < 2 ^ A.table.dimension) : A.entry (A.applyOutermorphism f x) r =
      ∑ p ∈ Finset.range (2 ^ A.table.dimension),
        A.entry (A.column images p) r * A.entry x p := by
  obtain ⟨g, hg, a, ha, hgrade, rfl⟩ := hT.exists_place hr
  have hmem : g ∈ Finset.range A.table.numGroups := Finset.mem_range.mpr (Nat.lt_succ_of_le hg)
  rw [entry_applyOutermorphism_place hT himages hf hx hg ha, hT.sum_dense,
    Finset.sum_eq_single_of_mem g hmem]
  intro j hj hne
  have hj : j ≤ A.table.dimension := Nat.lt_succ_iff.mp (Finset.mem_range.mp hj)
  refine Finset.sum_eq_zero fun k hk => ?_
  have hk := Finset.mem_range.mp hk
  have hother : A.table.gradeOf (A.table.denseStart g + a) ≠
      A.table.gradeOf (A.table.denseStart j + k) := by
    rw [hgrade, hT.gradeOf_add hj hk]
    exact hne.symm
  rw [entry_column_of_ne himages hT (hT.denseStart_add_lt hj hk) hr hother, zero_mul]

/-- The value of an image is the extension of the vector images, at the value. -/
theorem value_applyOutermorphism (hx : x.WellFormed A) :
    value A.outerRule A (A.applyOutermorphism f x) =
      BladeSum.extend (ascending (A.vectorImage images)) (value A.outerRule A x) := by
  have hfx := wellFormed_applyOutermorphism hx f
  -- blade by blade, an image is its column with the orientation taken out
  have hextend : BladeSum.extend (ascending (A.vectorImage images)) (value A.outerRule A x) =
      ∑ b ∈ Finset.range (2 ^ A.dimension), A.entry x (A.table.index b) •
        value A.outerRule A (A.column images (A.table.index b)) := by
    rw [value, map_sum]
    refine Finset.sum_congr rfl fun b hb => ?_
    have hb := Finset.mem_range.mp hb
    rw [BladeSum.extend_single, value_column himages hT hb, smul_smul, entry_index hT hx hb,
      mul_right_comm, Sign.toScalar_mul_self, one_mul]
  rw [hextend]
  ext d
  rw [BladeSum.sum_apply]
  by_cases hd : d < 2 ^ A.dimension
  · rw [value_apply_of_lt hd, coefficient, coordinate_eq_entry hT hfx hd,
      entry_applyOutermorphism hT himages hf hx (hT.index_lt d hd), hT.sum_index, Finset.mul_sum]
    refine Finset.sum_congr rfl fun b _ => ?_
    have hcolumn := wellFormed_column himages hT (A.table.index b)
    rw [BladeSum.smul_apply, value_apply_of_lt hd, coefficient,
      coordinate_eq_entry hT hcolumn hd]
    ring
  · rw [value_apply, if_neg hd]
    symm
    refine Finset.sum_eq_zero fun b _ => ?_
    rw [BladeSum.smul_apply, value_apply, if_neg hd, mul_zero]

end Apply

/-! ## Laws -/

section Laws

variable [IsStrictOrderedRing K] (hT : A.table.Lawful)
  (himages : ∀ v ∈ images, v.WellFormed A) (hf : A.outermorphismOfImages images = .ok f)
include hT himages hf

/-- The image of an outer product is the outer product of the images. -/
theorem agree_applyOutermorphism_op {y : Multivector K} (hx : x.WellFormed A)
    (hy : y.WellFormed A) : A.Agree (A.applyOutermorphism f (A.op x y))
      (A.op (A.applyOutermorphism f x) (A.applyOutermorphism f y)) := by
  have hfx := wellFormed_applyOutermorphism hx f
  have hfy := wellFormed_applyOutermorphism hy f
  rw [agree_iff (R := A.outerRule),
    value_applyOutermorphism hT himages hf (wellFormed_op hT x y), value_op hT hx hy,
    BladeSum.extend_ascending_mul (isExterior_outerRule A) (alternating_vectorImage himages),
    value_op hT hfx hfy, value_applyOutermorphism hT himages hf hx,
    value_applyOutermorphism hT himages hf hy]

theorem applyOutermorphism_scalar (s : K) : A.applyOutermorphism f (.scalar s) = .scalar s := by
  have hscalar := Multivector.wellFormed_scalar hT s
  refine applyOutermorphism_eq_of_value hT hscalar hscalar rfl ?_
  rw [value_applyOutermorphism hT himages hf hscalar, value_scalar hT, map_smul,
    BladeSum.extend_ascending_one]

/-- A basis vector goes to the vector part of its image. -/
theorem agree_applyOutermorphism_vector {i : Nat} (hi : i < images.size) (hx : x.WellFormed A)
    (hcoordinate : ∀ b < 2 ^ A.dimension,
      A.coordinate x b = if b = Blade.ofVector i then 1 else 0) :
    A.Agree (A.applyOutermorphism f x) (A.extract images[i] (GradeSet.insert 0 1)) := by
  have hsize := (outermorphismOfImages_eq_ok_iff.mp hf).1
  have hlt : Blade.ofVector i < 2 ^ A.dimension := Blade.ofVector_lt (hsize ▸ hi)
  have hgrade : Blade.grade (Blade.ofVector i) = 1 := Blade.grade_ofVector i
  have hvalue : value A.outerRule A x = BladeSum.single (Blade.ofVector i) 1 := by
    ext b
    rw [BladeSum.single_apply, value_apply]
    by_cases hb : Blade.ofVector i = b
    · have hsign := hT.signOf_of_grade_le_one hlt hgrade.le
      rw [if_pos hb, ← hb, if_pos hlt, coefficient, hcoordinate _ hlt, if_pos rfl, hsign]
      exact mul_one _
    · by_cases hblt : b < 2 ^ A.dimension
      · rw [if_neg hb, if_pos hblt, coefficient, hcoordinate b hblt, if_neg (Ne.symm hb), mul_zero]
      · rw [if_neg hb, if_neg hblt]
  rw [agree_iff (R := A.outerRule), value_applyOutermorphism hT himages hf hx, hvalue,
    BladeSum.extend_single, one_smul, ascending_ofVector, vectorImage, vectorParts]
  simp [Array.getD_eq_getD_getElem?, hi]

/-- The images under one outermorphism of the images of another are those of both together. -/
theorem vectorImage_map {images' : Array (Multivector K)}
    (himages' : ∀ v ∈ images', v.WellFormed A) (i : Nat) :
    A.vectorImage (images'.map (A.applyOutermorphism f)) i =
      BladeSum.extend (ascending (A.vectorImage images)) (A.vectorImage images' i) := by
  simp only [vectorImage, vectorParts, Array.getD_eq_getD_getElem?, Array.getElem?_map]
  cases hi : images'[i]? with
  | none => simp
  | some v =>
    have hv := himages' v (Array.mem_of_getElem? hi)
    simp only [Option.map_some, Option.getD_some]
    rw [extract_applyOutermorphism hv,
      value_applyOutermorphism hT himages hf (wellFormed_extract hv _)]

/-- One outermorphism after another is the outermorphism of the images taken twice. -/
theorem applyOutermorphism_comp {images' : Array (Multivector K)} {g fg : Outermorphism K}
    (himages' : ∀ v ∈ images', v.WellFormed A) (hg : A.outermorphismOfImages images' = .ok g)
    (hfg : A.outermorphismOfImages (images'.map (A.applyOutermorphism f)) = .ok fg)
    (hx : x.WellFormed A) : A.applyOutermorphism fg x =
      A.applyOutermorphism f (A.applyOutermorphism g x) := by
  have hgx := wellFormed_applyOutermorphism hx g
  have himagesf : ∀ v ∈ images'.map (A.applyOutermorphism f), v.WellFormed A := by
    intro v hv
    obtain ⟨w, hw, rfl⟩ := Array.mem_map.mp hv
    exact wellFormed_applyOutermorphism (himages' w hw) f
  have himage := funext (vectorImage_map hT himages hf himages')
  refine applyOutermorphism_eq_of_value hT hx (wellFormed_applyOutermorphism hgx f) ?_ ?_
  · rw [applyOutermorphism, applyOutermorphism, mapGroups_eq, mapGroups_eq]
  · rw [value_applyOutermorphism hT himagesf hfg hx, himage,
      BladeSum.extend_ascending_comp (isExterior_outerRule A)
        (alternating_vectorImage himages),
      value_applyOutermorphism hT himages hf hgx, value_applyOutermorphism hT himages' hg hx]

end Laws

/-- In exact arithmetic, in every accepted algebra, a list with one image for each basis vector
    gives an outermorphism.  It respects the outer product, leaves scalars alone, and takes each
    basis vector to the vector part of its image.  With a second list, the outermorphism of the
    images under the first is the first after the second. -/
theorem outermorphism_of_ofConfig [IsStrictOrderedRing K] {c : Config K} (h : ofConfig c = .ok A)
    (hsize : images.size = A.dimension) (himages : ∀ v ∈ images, v.WellFormed A) :
    ∃ f, A.outermorphismOfImages images = .ok f ∧
      (∀ x y : Multivector K, x.WellFormed A → y.WellFormed A →
        A.Agree (A.applyOutermorphism f (A.op x y))
          (A.op (A.applyOutermorphism f x) (A.applyOutermorphism f y))) ∧
      (∀ s : K, A.applyOutermorphism f (.scalar s) = .scalar s) ∧
      (∀ i, ∀ hi : i < images.size, ∀ x : Multivector K, x.WellFormed A →
        (∀ b < 2 ^ A.dimension, A.coordinate x b = if b = Blade.ofVector i then 1 else 0) →
          A.Agree (A.applyOutermorphism f x) (A.extract images[i] (GradeSet.insert 0 1))) ∧
      ∀ images' : Array (Multivector K), images'.size = A.dimension →
        (∀ v ∈ images', v.WellFormed A) →
        ∃ g fg, A.outermorphismOfImages images' = .ok g ∧
          A.outermorphismOfImages (images'.map (A.applyOutermorphism f)) = .ok fg ∧
          ∀ x : Multivector K, x.WellFormed A → A.applyOutermorphism fg x =
            A.applyOutermorphism f (A.applyOutermorphism g x) := by
  have hT := lawful_of_ofConfig h
  obtain ⟨f, hf⟩ := exists_outermorphismOfImages hsize
  refine ⟨f, hf, fun x y hx hy => ?_, fun s => ?_, fun i hi x hx hcoordinate => ?_, ?_⟩
  · exact agree_applyOutermorphism_op hT himages hf hx hy
  · exact applyOutermorphism_scalar hT himages hf s
  · exact agree_applyOutermorphism_vector hT himages hf hi hx hcoordinate
  · intro images' hsize' himages'
    have hsizef : (images'.map (A.applyOutermorphism f)).size = A.dimension :=
      Array.size_map.trans hsize'
    obtain ⟨g, hg⟩ := exists_outermorphismOfImages hsize'
    obtain ⟨fg, hfg⟩ := exists_outermorphismOfImages hsizef
    exact ⟨g, fg, hg, hfg, fun x hx => applyOutermorphism_comp hT himages hf himages' hg hfg hx⟩

/-- Images of the vectors of a degenerate plane, taken once and twice. -/
theorem outermorphism_degeneratePlane :
    let images := #[degeneratePlane.vector #[1, 1, 0], degeneratePlane.vector #[0, 2, 0],
      degeneratePlane.vector #[0, 0, 1]]
    let x := degeneratePlane.vector #[0, 1, 2]
    let y := degeneratePlane.gp x (degeneratePlane.vector #[3, 1])
    ∃ f, degeneratePlane.outermorphismOfImages images = .ok f ∧
      degeneratePlane.Agree (degeneratePlane.applyOutermorphism f (degeneratePlane.op x y))
        (degeneratePlane.op (degeneratePlane.applyOutermorphism f x)
          (degeneratePlane.applyOutermorphism f y)) ∧
      ∃ fg, degeneratePlane.outermorphismOfImages
          (images.map (degeneratePlane.applyOutermorphism f)) = .ok fg ∧
        degeneratePlane.applyOutermorphism fg y = degeneratePlane.applyOutermorphism f
          (degeneratePlane.applyOutermorphism f y) := by
  have hA := ofConfig_degeneratePlane
  have hT := lawful_of_ofConfig hA
  have hvector := wellFormed_vector hT (dimension_pos_of_ofConfig hA)
  have himages : ∀ v ∈ #[degeneratePlane.vector #[1, 1, 0], degeneratePlane.vector #[0, 2, 0],
      degeneratePlane.vector #[0, 0, 1]], v.WellFormed degeneratePlane := by
    simp [hvector]
  obtain ⟨f, hf, hop, -, -, hcomp⟩ := outermorphism_of_ofConfig hA rfl himages
  obtain ⟨g, fg, hg, hfg, happly⟩ := hcomp _ rfl himages
  have hgf : g = f := Except.ok.inj (hg.symm.trans hf)
  have hy := wellFormed_gp hT (degeneratePlane.vector #[0, 1, 2]) (degeneratePlane.vector #[3, 1])
  refine ⟨f, hf, hop _ _ (hvector _) hy, fg, hfg, ?_⟩
  rw [happly _ hy, hgf]

end Clifford

end Exact

end GeometricAlgebra
