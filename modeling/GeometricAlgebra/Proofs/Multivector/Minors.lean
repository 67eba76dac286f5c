/-
  GeometricAlgebra.Proofs.Multivector.Minors

  The matrices of an outermorphism, in exact arithmetic.  A coefficient of a product of vectors is
  a minor of their components, so the matrix of a group is the compound matrix of the components
  of the images.  Rows and columns are listed as the blades are stored: a blade stored in another
  order, or turned, lists its vectors so, and the sign of that order is the sign of the minor.

    * `Clifford.toScalar_mul_prod_apply`: the coefficients of a product of vectors.
    * `Clifford.getD_matrix_eq_minor`: the entries of the matrix of a group.
    * `Clifford.compound_of_ofConfig`: both ends of the list of matrices, in every accepted algebra.
-/

import GeometricAlgebra.Proofs.Multivector.Gram

namespace GeometricAlgebra

/-- A list of a given length, entry by entry. -/
theorem ofFn_getD {β : Type} {l : List β} {n : Nat} (h : l.length = n) (d : β) :
    (List.ofFn fun i : Fin n => l.getD i d) = l := by
  subst h
  apply List.ext_getElem
  · simp
  · intro i hi hi'
    simp

/-! ## Minors -/

section Minors

variable {K : Type} [CommRing K]

/-- The minor of a matrix at `k` rows and `k` columns, in the order in which they are listed. -/
def minor (F : Nat → Nat → K) (k : Nat) (rows cols : List Nat) : K :=
  (Matrix.of fun i j : Fin k => F (rows.getD i 0) (cols.getD j 0)).det

@[simp] theorem minor_zero (F : Nat → Nat → K) (rows cols : List Nat) : minor F 0 rows cols = 1 :=
  Matrix.det_fin_zero

/-- Rows and columns in one order, whatever it is: the sign of the order enters twice. -/
theorem minor_of_perm {n : Nat} {vs : List Nat} (h : vs.Perm (List.range n)) (F : Nat → Nat → K) :
    minor F n vs vs = (Matrix.of fun i j : Fin n => F i j).det := by
  have hlength : vs.length = n := by rw [h.length_eq, List.length_range]
  have hget : ∀ i : Fin n, vs.getD i 0 = vs[i] := fun i => List.getD_eq_getElem _ _ _
  have hlt : ∀ i : Fin n, vs.getD i 0 < n := fun i => by
    rw [hget]
    exact List.mem_range.mp (h.mem_iff.mp (List.getElem_mem _))
  have hinj : Function.Injective fun i : Fin n => (⟨vs.getD i 0, hlt i⟩ : Fin n) := by
    intro i j hij
    have hvs : vs[i] = vs[j] := by rw [← hget, ← hget]; exact Fin.mk.inj hij
    exact Fin.ext ((h.nodup_iff.mpr List.nodup_range).getElem_inj_iff.mp hvs)
  have hbijective := Finite.injective_iff_bijective.mp hinj
  exact Matrix.det_submatrix_equiv_self (Equiv.ofBijective _ hbijective)
    (Matrix.of fun i j : Fin n => F i j)

end Minors

/-! ## Vectors of stored blades -/

namespace GradeTable.Lawful

variable {T : GradeTable} (hT : T.Lawful)
include hT

theorem length_vectors_add {g k : Nat} (hg : g ≤ T.dimension) (hk : k < T.groupSize g) :
    (T.vectors (T.denseStart g + k)).length = g := by
  rw [hT.length_vectors (hT.denseStart_add_lt hg hk), hT.gradeOf_add hg hk]

theorem groupSize_dimension : T.groupSize T.dimension = 1 := by
  rw [hT.groupSize_eq, Nat.choose_self]

/-- The pseudoscalar has every vector once, in some order. -/
theorem perm_vectors_denseStart :
    (T.vectors (T.denseStart T.dimension)).Perm (List.range T.dimension) := by
  have hplace : 0 < T.groupSize T.dimension := by
    rw [hT.groupSize_dimension]
    exact Nat.one_pos
  have hlt := hT.denseStart_add_lt le_rfl hplace
  have hlength := hT.length_vectors_add le_rfl hplace
  rw [Nat.add_zero] at hlt hlength
  have hsubset : T.vectors (T.denseStart T.dimension) ⊆ List.range T.dimension :=
    fun v hv => List.mem_range.mpr (hT.lt_of_mem_vectors hlt hv)
  refine (List.subperm_of_subset (hT.nodup_vectors hlt) hsubset).perm_of_length_le ?_
  rw [hlength, List.length_range]

end GradeTable.Lawful

namespace Clifford

open Blade (grade ofVector wedge?)

variable {K : Type} [Field K] [LinearOrder K] {A : Clifford K} {R : BladeRule K}

/-! ## Vectors of square one -/

/-- The same blades, made of vectors of square one. -/
def orthonormal (A : Clifford K) : Clifford K := { A with metric := #[] }

theorem coefficient_orthonormal (A : Clifford K) (b : Nat) :
    Blade.coefficient A.orthonormal.metric b b = (Blade.reverseSign (grade b)).toScalar := by
  have hsquare : Blade.metricFactor A.orthonormal.metric b b = 1 := by
    rw [Blade.metricFactor, List.prod_eq_one]
    intro s hs
    obtain ⟨i, -, rfl⟩ := List.mem_map.mp hs
    rfl
  rw [Blade.coefficient_eq, Blade.reorderingSign_self, hsquare, mul_one]

section Sums

variable {x y : BladeSum R}

theorem pairing_single (b : Blade) (s : K) (y : BladeSum R) :
    A.pairing (BladeSum.single b s) y = Blade.coefficient A.metric b b * s * y b := by
  rw [pairing_eq, BladeSum.convolve_single_apply, Nat.xor_zero, twist_scalar, if_pos rfl]

/-- A blade, paired with its reverse, is read off. -/
theorem pairing_orthonormal_reverse (b : Blade) (s : K) (y : BladeSum R) :
    A.orthonormal.pairing (BladeSum.single b s).reverse y = s * y b := by
  rw [BladeSum.reverse_single, pairing_single, coefficient_orthonormal, ← mul_assoc,
    Sign.toScalar_mul_self, one_mul]

theorem pairing_orthonormal_vector (v : Nat) (y : BladeSum R) :
    A.orthonormal.pairing (BladeSum.single (ofVector v) 1) y = y (ofVector v) := by
  rw [pairing_single, coefficient_orthonormal, Blade.grade_ofVector, mul_one]
  exact one_mul _

theorem isVector_single (v : Nat) (s : K) :
    (BladeSum.single (ofVector v) s : BladeSum R).IsVector := by
  intro b hb
  rw [BladeSum.hasGrades_single b hb, Blade.grade_ofVector]

/-! ## Coefficients of products -/

/-- A coefficient of a product of vectors is the minor of their components at the vectors of the
    blade. -/
theorem toScalar_mul_prod_apply (hR : R.IsExterior) (A : Clifford K) {k : Nat} {r : Fin k → Nat}
    {s : Sign} {b : Blade} (hr : wedge? (List.ofFn r) = some (s, b)) {u : Fin k → BladeSum R}
    (hu : ∀ j, (u j).IsVector) : s.toScalar * (List.ofFn u).prod b =
      (Matrix.of fun i j => u j (ofVector (r i))).det := by
  have hrow : ∀ i, (BladeSum.single (ofVector (r i)) 1 : BladeSum R).IsVector :=
    fun i => isVector_single (r i) 1
  have hblade : (List.ofFn fun i => (BladeSum.single (ofVector (r i)) 1 : BladeSum R)).prod =
      BladeSum.single b s.toScalar := by
    have hprod := BladeSum.prod_vectors hR (List.ofFn r)
    rw [List.map_ofFn, hr] at hprod
    exact hprod
  calc s.toScalar * (List.ofFn u).prod b
      = A.orthonormal.pairing
          (List.ofFn fun i => (BladeSum.single (ofVector (r i)) 1 : BladeSum R)).reverse.prod
          (List.ofFn u).prod := by
        rw [← BladeSum.reverse_prod (List.forall_mem_ofFn_iff.mpr hrow), hblade,
          pairing_orthonormal_reverse]
    _ = (Matrix.of fun i j => u j (ofVector (r i))).det := by
        rw [pairing_prod hR hrow hu]
        simp only [pairing_orthonormal_vector]

end Sums

/-! ## Compound matrices -/

section Compound

variable {images : Array (Multivector K)} {f : Outermorphism K}

/-- The coordinate at basis vector `r` of the image of basis vector `c`. -/
def imageEntry (A : Clifford K) (images : Array (Multivector K)) (r c : Nat) : K :=
  A.coordinate (images.getD c .zero) (ofVector r)

variable (himages : ∀ v ∈ images, v.WellFormed A)
include himages

theorem vectorImage_ofVector (hT : A.table.Lawful) {r : Nat} (hr : r < A.dimension) (c : Nat) :
    A.vectorImage images c (ofVector r) = A.imageEntry images r c := by
  rw [vectorImage, value_apply_of_lt (Blade.ofVector_lt hr), coefficient_ofVector hT _ hr,
    imageEntry, Array.getD_eq_getD_getElem?, Array.getD_eq_getD_getElem?, vectorParts,
    Array.getElem?_map]
  cases hc : images[c]? with
  | none => rfl
  | some v =>
    have hv := himages v (Array.mem_of_getElem? hc)
    rw [Option.map_some, Option.getD_some, Option.getD_some, coordinate_extract hv,
      if_pos (by simp [Blade.grade_ofVector])]

variable [IsStrictOrderedRing K] (hT : A.table.Lawful)
include hT

/-- The columns of an outermorphism hold minors of the components of the images. -/
theorem entry_column {g p q : Nat} (hp : p < 2 ^ A.table.dimension)
    (hlp : (A.table.vectors p).length = g) (hlq : (A.table.vectors q).length = g) :
    A.entry (A.column images q) p =
      minor (A.imageEntry images) g (A.table.vectors p) (A.table.vectors q) := by
  obtain ⟨hwf, hvalue⟩ := value_wedgeImages himages hT (A.table.vectors q)
  have hfactors : (A.table.vectors q).map (A.vectorImage images) =
      List.ofFn fun j : Fin g => A.vectorImage images ((A.table.vectors q).getD j 0) := by
    conv_lhs => rw [← ofFn_getD hlq 0, List.map_ofFn]
    rfl
  have hrows : wedge? (List.ofFn fun i : Fin g => (A.table.vectors p).getD i 0) =
      some (A.table.sign p, A.table.blade p) := by
    rw [ofFn_getD hlp 0, hT.wedge?_vectors p hp]
  have hlt : ∀ i : Fin g, (A.table.vectors p).getD i 0 < A.dimension := by
    intro i
    have hi : (i : Nat) < (A.table.vectors p).length := hlp ▸ i.isLt
    rw [List.getD_eq_getElem _ _ hi]
    exact hT.lt_of_mem_vectors hp (List.getElem_mem hi)
  have hsign : A.table.signOf (A.table.blade p) = A.table.sign p := by
    rw [GradeTable.signOf, hT.index_blade p hp]
  have hminor := toScalar_mul_prod_apply (isExterior_outerRule A) A hrows
    fun j : Fin g => isVector_vectorImage himages ((A.table.vectors q).getD j 0)
  rw [column, entry_eq_coordinate hT hwf hp, coordinate_eq_coefficient,
    ← value_apply_of_lt (R := A.outerRule) (hT.blade_lt p hp), hvalue, hsign, hfactors, hminor,
    minor]
  congr 2
  funext i j
  exact vectorImage_ofVector himages hT (hlt i) _

/-- The matrix of a group is the compound matrix of the components of the images. -/
theorem getD_matrix_eq_minor (hf : A.outermorphismOfImages images = .ok f) {g row col : Nat}
    (hg : g ≤ A.dimension) (hrow : row < A.table.groupSize g) (hcol : col < A.table.groupSize g) :
    (f.matrix g).getD (row * A.table.groupSize g + col) 0 =
      minor (A.imageEntry images) g (A.table.vectors (A.table.denseStart g + row))
        (A.table.vectors (A.table.denseStart g + col)) := by
  rw [getD_matrix hT himages hf hg hrow hcol]
  exact entry_column himages hT (hT.denseStart_add_lt hg hrow) (hT.length_vectors_add hg hrow)
    (hT.length_vectors_add hg hcol)

/-- A group of one blade has a matrix of one entry. -/
theorem matrix_eq_singleton (hf : A.outermorphismOfImages images = .ok f) {g : Nat}
    (hg : g ≤ A.dimension) (hsize : A.table.groupSize g = 1) :
    f.matrix g = #[minor (A.imageEntry images) g (A.table.vectors (A.table.denseStart g))
      (A.table.vectors (A.table.denseStart g))] := by
  have hplace : 0 < A.table.groupSize g := by omega
  have hentry := getD_matrix_eq_minor himages hT hf hg hplace hplace
  have hmatrix : (f.matrix g).size = 1 := by
    rw [matrix_of_outermorphismOfImages hf hg, size_outermorphismMatrix, hsize]
  rw [Nat.zero_mul, Nat.add_zero, Nat.add_zero] at hentry
  rw [← hentry]
  refine Array.ext (by simp [hmatrix]) fun i hi _ => ?_
  obtain rfl : i = 0 := by omega
  simp [hmatrix]

end Compound

/-- In exact arithmetic, in every accepted algebra, whatever the order and orientation of its
    blades: a list with one image for each basis vector gives an outermorphism.  Entry `(row, col)`
    of its matrix for group `g` is the minor of the components of the images whose rows are the
    vectors of the stored blade `row` and whose columns are those of the stored blade `col`, in
    stored order.  The scalars are left alone, and the pseudoscalar is scaled by the determinant. -/
theorem compound_of_ofConfig [IsStrictOrderedRing K] {images : Array (Multivector K)} {c : Config K}
    (h : ofConfig c = .ok A) (hsize : images.size = A.dimension)
    (himages : ∀ v ∈ images, v.WellFormed A) :
    ∃ f, A.outermorphismOfImages images = .ok f ∧
      (∀ g ≤ A.dimension,
        (f.matrix g).size = A.table.groupSize g * A.table.groupSize g ∧
        ∀ row < A.table.groupSize g, ∀ col < A.table.groupSize g,
          let R := A.table.vectors (A.table.denseStart g + row)
          let C := A.table.vectors (A.table.denseStart g + col)
          R.length = g ∧ C.length = g ∧
            (f.matrix g).getD (row * A.table.groupSize g + col) 0 =
              minor (A.imageEntry images) g R C) ∧
      f.matrix 0 = #[1] ∧
      f.matrix A.dimension =
        #[(Matrix.of fun i j : Fin A.dimension => A.imageEntry images i j).det] := by
  have hT := lawful_of_ofConfig h
  obtain ⟨f, hf⟩ := exists_outermorphismOfImages hsize
  refine ⟨f, hf, fun g hg => ⟨?_, fun row hrow col hcol => ⟨?_, ?_, ?_⟩⟩, ?_, ?_⟩
  · rw [matrix_of_outermorphismOfImages hf hg, size_outermorphismMatrix]
  · exact hT.length_vectors_add hg hrow
  · exact hT.length_vectors_add hg hcol
  · exact getD_matrix_eq_minor himages hT hf hg hrow hcol
  · rw [matrix_eq_singleton himages hT hf (Nat.zero_le _) hT.groupSize_zero, minor_zero]
  · rw [matrix_eq_singleton himages hT hf le_rfl hT.groupSize_dimension]
    exact congrArg (#[·]) (minor_of_perm hT.perm_vectors_denseStart _)

/-- The vectors and two of the bivectors are stored out of order or turned, and one image has a
    scalar part that does not count. -/
theorem compound_turnedSpace :
    let images := #[turnedSpace.vector #[1, 2, 0], ⟨3, #[5, 0, 1, 3]⟩,
      turnedSpace.vector #[2, 1, 1]]
    ofConfig (.hyperbolicSpace (some Config.turnedBlades)) = .ok turnedSpace ∧
      images.size = turnedSpace.dimension ∧ (∀ v ∈ images, v.WellFormed turnedSpace) ∧
      ∃ f, turnedSpace.outermorphismOfImages images = .ok f ∧
        f.matrix 2 = #[-1, -2, -3, -3, -6, 1, -6, -2, 2] ∧
        (f.matrix 2).getD (1 * 3 + 2) 0 = minor (turnedSpace.imageEntry images) 2 [2, 1] [2, 0] ∧
        f.matrix 0 = #[1] ∧
        f.matrix 3 = #[(Matrix.of fun i j : Fin 3 => turnedSpace.imageEntry images i j).det] := by
  have hA := ofConfig_turnedSpace
  have hvector := wellFormed_vector (lawful_of_ofConfig hA) (dimension_pos_of_ofConfig hA)
  have hmixed := wellFormed_ofCoords (show turnedSpace.ofCoords 3 #[5, 0, 1, 3] =
    .ok ⟨3, #[5, 0, 1, 3]⟩ by decide +kernel)
  have himages : ∀ v ∈ #[turnedSpace.vector #[1, 2, 0], ⟨3, #[5, 0, 1, 3]⟩,
      turnedSpace.vector #[2, 1, 1]], v.WellFormed turnedSpace := by
    simp [hvector, hmixed]
  obtain ⟨f, hf, hminors, hzero, hlast⟩ := compound_of_ofConfig hA rfl himages
  obtain rfl : ⟨#[#[1], #[0, 1, 2, 1, 2, 1, 3, 0, 1], #[-1, -2, -3, -3, -6, 1, -6, -2, 2],
    #[-10]]⟩ = f := Except.ok.inj ((show _ = _ by decide +kernel).trans hf)
  have hentry := ((hminors 2 (by decide)).2 1 (by decide +kernel) 2 (by decide +kernel)).2.2
  exact ⟨hA, rfl, himages, _, hf, rfl, hentry, hzero, hlast⟩

end Clifford

end GeometricAlgebra
