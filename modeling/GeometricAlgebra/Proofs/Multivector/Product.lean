/-
  GeometricAlgebra.Proofs.Multivector.Product

  The product tables in exact arithmetic.  Adding up the partial products of the stored groups
  gives, at each place of the dense buffer, the sum over all pairs of stored blades whose product
  belongs there.

    * `Clifford.structureConstant`: how much a pair of stored blades contributes to a place.
    * `Clifford.sum_partialProducts`: the tables of two groups list each pair once.
    * `Clifford.getD_denseProduct`: the dense product is the naive double sum.
-/

import GeometricAlgebra.Proofs.Blade.Cocycle
import GeometricAlgebra.Proofs.Multivector.DenseSums
import GeometricAlgebra.Proofs.Multivector.Entries
import GeometricAlgebra.Proofs.ProductTable

namespace GeometricAlgebra

namespace Clifford

variable {K : Type} [Field K] [LinearOrder K] {A : Clifford K} {kind : ProductKind}

/-- The factor by which the stored blades at `p` and `q` enter the coordinate at `r`: the
    coefficient of their product with respect to the stored orientations, if the product lies at
    `r` and its grade is kept. -/
def structureConstant (A : Clifford K) (kind : ProductKind) (p q r : Nat) : K :=
  if A.table.blade p ^^^ A.table.blade q = A.table.blade r ∧
      kind.accepts (A.table.gradeOf p) (A.table.gradeOf q) (A.table.gradeOf r) = true then
    (A.table.sign p).toScalar * (A.table.sign q).toScalar * (A.table.sign r).toScalar *
      (A.bladeProduct (A.table.blade p) (A.table.blade q)).1
  else 0

/-! ## Tables of two groups -/

section Table

variable {i j : Nat}

/-- The part of a sum over terms that falls to the partial products is the sum over the terms
    whose grade is one of the algebra. -/
theorem sum_partialProducts (f : Nat → ProductTerm K → K)
    (hterms : ∀ t ∈ A.productTerms kind i j, t.1 < A.table.numGroups) :
    ((A.partialProducts kind i j).map fun p => (p.terms.map (f p.out)).sum).sum =
      ((A.productTerms kind i j).map fun t => f t.1 t.2).sum := by
  simp only [partialProducts]
  generalize A.productTerms kind i j = terms at hterms ⊢
  rw [sum_map_filterMap, GradeTable.groups, sum_map_range]
  trans ∑ g ∈ Finset.range A.table.numGroups,
    (((terms.filter fun t => t.1 == g).map (·.2)).map (f g)).sum
  · -- a grade without terms has no partial product
    refine Finset.sum_congr rfl fun g _ => ?_
    cases (terms.filter fun t => t.1 == g).map (·.2) with
    | nil => rfl
    | cons t ts => rfl
  · -- each term belongs to exactly one group
    induction terms with
    | nil => simp
    | cons t ts ih =>
      rw [List.forall_mem_cons] at hterms
      rw [List.map_cons, List.sum_cons, ← ih hterms.2]
      trans ∑ g ∈ Finset.range A.table.numGroups, ((if t.1 = g then f t.1 t.2 else 0) +
        (((ts.filter fun t => t.1 == g).map (·.2)).map (f g)).sum)
      · refine Finset.sum_congr rfl fun g _ => ?_
        by_cases htg : t.1 = g
        · simp [htg]
        · simp [htg]
      · rw [Finset.sum_add_distrib, Finset.sum_ite_eq, if_pos (Finset.mem_range.mpr hterms.1)]

variable (hT : A.table.Lawful) (hi : i ≤ A.table.dimension) (hj : j ≤ A.table.dimension)

/-- What a term of the tables adds at the place `r`, for the groups `c` and `d`. -/
def termAt (A : Clifford K) (c d : Coordinates K) (r g : Nat) (t : ProductTerm K) : K :=
  if A.table.denseStart g + t.out = r then t.coeff * c.getD t.left 0 * d.getD t.right 0 else 0

/-- What the groups `c` and `d` of the grades `i` and `j` add at the place `r`. -/
def groupsAt (A : Clifford K) (kind : ProductKind) (r i j : Nat) (c d : Coordinates K) : K :=
  ∑ a ∈ Finset.range (A.table.groupSize i), ∑ b ∈ Finset.range (A.table.groupSize j),
    A.structureConstant kind (A.table.denseStart i + a) (A.table.denseStart j + b) r *
      c.getD a 0 * d.getD b 0

include hT hi hj

/-- The term of a pair adds its structure constant times the two coordinates. -/
theorem termAt_productTerm? (c d : Coordinates K) {r a b : Nat} (hr : r < 2 ^ A.table.dimension)
    (ha : a < A.table.groupSize i) (hb : b < A.table.groupSize j) :
    ((A.productTerm? kind i j a b).map fun t => A.termAt c d r t.1 t.2).getD 0 =
      A.structureConstant kind (A.table.denseStart i + a) (A.table.denseStart j + b) r *
        c.getD a 0 * d.getD b 0 := by
  have hp := hT.denseStart_add_lt hi ha
  have hq := hT.denseStart_add_lt hj hb
  have hgp := hT.gradeOf_add hi ha
  have hgq := hT.gradeOf_add hj hb
  simp only [productTerm?, structureConstant, hgp, hgq]
  generalize A.table.denseStart i + a = p at *
  generalize A.table.denseStart j + b = q at *
  -- the product lies at the dense index of the blade `e`
  obtain ⟨e, he⟩ : ∃ e, A.table.blade p ^^^ A.table.blade q = e := ⟨_, rfl⟩
  have hlt : e < 2 ^ A.table.dimension :=
    he ▸ Nat.xor_lt_two_pow (hT.blade_lt p hp) (hT.blade_lt q hq)
  have hplace : A.table.denseStart (Blade.grade e) +
      (A.table.index e - A.table.denseStart (Blade.grade e)) = A.table.index e := by
    have := (hT.denseStart_le_index hlt).1
    omega
  have hindex : A.table.index e = r ↔ e = A.table.blade r :=
    ⟨fun h => h ▸ (hT.blade_index e hlt).symm, fun h => h ▸ hT.index_blade r hr⟩
  have hsnd : (A.bladeProduct (A.table.blade p) (A.table.blade q)).2 = e := he
  rw [he, hsnd]
  generalize (A.bladeProduct (A.table.blade p) (A.table.blade q)).1 = k
  -- the tables leave out pairs without a coefficient or of a grade that is not kept
  by_cases hk : k = 0
  · simp [hk]
  · have hk' : (k == 0) = false := beq_false_of_ne hk
    by_cases her : e = A.table.blade r
    · have hgr : A.table.gradeOf r = Blade.grade e := by rw [GradeTable.gradeOf, her]
      rw [hindex.mpr her] at hplace ⊢
      rw [hgr]
      cases kind.accepts i j (Blade.grade e) with
      | false => simp [hk']
      | true =>
        simp only [hk', her.symm, Bool.not_true, Bool.or_false, Bool.false_eq_true, if_false,
          Option.map_some, Option.getD_some, termAt, hplace, if_true, and_self]
        ring
    · cases kind.accepts i j (Blade.grade e) with
      | false => simp [hk', her]
      | true => simp [hk', her, termAt, hplace, hindex]

/-- The tables of two groups list each pair of blades once. -/
theorem sum_termAt (c d : Coordinates K) {r : Nat} (hr : r < 2 ^ A.table.dimension) :
    ((A.partialProducts kind i j).map fun p => (p.terms.map (A.termAt c d r p.out)).sum).sum =
      A.groupsAt kind r i j c d := by
  rw [sum_partialProducts (A.termAt c d r) fun t ht =>
      Nat.lt_succ_of_le (out_lt_of_mem_productTerms hT ht).1,
    productTerms, sum_map_flatMap, sum_map_range]
  refine Finset.sum_congr rfl fun a ha => ?_
  rw [sum_map_filterMap, sum_map_range]
  exact Finset.sum_congr rfl fun b hb =>
    termAt_productTerm? hT hi hj c d hr (Finset.mem_range.mp ha) (Finset.mem_range.mp hb)

end Table

/-! ## The dense product -/

section Dense

variable {dense : Coordinates K} {r : Nat}

theorem getD_addPartialProduct (c d : Coordinates K) (p : PartialProduct K)
    (hr : r < dense.size) : (A.addPartialProduct c d dense p).getD r 0 =
      dense.getD r 0 + (p.terms.map (A.termAt c d r p.out)).sum := by
  simp only [addPartialProduct]
  refine Coordinates.getD_foldl_add (fun _ _ => Array.size_modify) (fun dense t _ h => ?_) hr
  exact Coordinates.getD_modify_add h

variable {x y : Multivector K} (hT : A.table.Lawful)
include hT

theorem getD_addGroups {i j : Nat} (hi : i ≤ A.table.dimension) (hj : j ≤ A.table.dimension)
    (c d : Coordinates K) (hr : r < 2 ^ A.table.dimension) (hd : r < dense.size) :
    ((A.partialProducts kind i j).foldl (A.addPartialProduct c d) dense).getD r 0 =
      dense.getD r 0 + A.groupsAt kind r i j c d := by
  rw [← sum_termAt hT hi hj c d hr]
  exact Coordinates.getD_foldl_add (size_addPartialProduct c d)
    (fun _ p _ h => getD_addPartialProduct c d p h) hd

theorem getD_addRow (y : Multivector K) {p : Nat × Coordinates K} (hp : p.1 ≤ A.table.dimension)
    (hr : r < 2 ^ A.table.dimension) (hd : r < dense.size) :
    ((A.storedGroups y).foldl (fun dense q => (A.partialProducts kind p.1 q.1).foldl
      (A.addPartialProduct p.2 q.2) dense) dense).getD r 0 =
      dense.getD r 0 + ∑ j ∈ Finset.range A.table.numGroups,
        A.groupsAt kind r p.1 j p.2 ((A.group? y j).getD #[]) := by
  have hsum := sum_storedGroups (A := A) y (f := fun j d => A.groupsAt kind r p.1 j p.2 d)
    fun j => by simp [groupsAt]
  rw [← hsum]
  refine Coordinates.getD_foldl_add (fun dense q => ?_) (fun dense q hq h => ?_) hd
  · exact size_addGroups kind p.1 q.1 p.2 q.2 dense
  · exact getD_addGroups hT hp (mem_storedGroups_iff.mp hq).1 p.2 q.2 hr h

/-- The dense product as a sum over groups; groups that are not stored count as zero. -/
theorem getD_denseProduct_groups (x y : Multivector K) (hr : r < 2 ^ A.table.dimension) :
    (A.denseProduct kind x y).getD r 0 =
      ∑ i ∈ Finset.range A.table.numGroups, ∑ j ∈ Finset.range A.table.numGroups,
        A.groupsAt kind r i j ((A.group? x i).getD #[]) ((A.group? y j).getD #[]) := by
  have hsum := sum_storedGroups (A := A) x (f := fun i c => ∑ j ∈ Finset.range A.table.numGroups,
    A.groupsAt kind r i j c ((A.group? y j).getD #[])) fun i => by simp [groupsAt]
  have hsize : r < A.denseZeros.size := by
    rw [size_denseZeros, hT.denseSize_eq]
    exact hr
  have hzero : (A.denseZeros).getD r 0 = 0 := Coordinates.getD_zeros _ r
  rw [denseProduct_eq, ← hsum]
  refine Eq.trans (b := A.denseZeros.getD r 0 + _) ?_ (by rw [hzero, zero_add])
  refine Coordinates.getD_foldl_add (fun dense p => ?_) (fun dense p hp h => ?_) hsize
  · exact size_addRow kind p _ dense
  · exact getD_addRow hT y (mem_storedGroups_iff.mp hp).1 hr h

/-- The dense product is the naive double sum over all pairs of stored blades. -/
theorem getD_denseProduct (hx : x.WellFormed A) (hy : y.WellFormed A)
    (hr : r < 2 ^ A.table.dimension) : (A.denseProduct kind x y).getD r 0 =
      ∑ p ∈ Finset.range (2 ^ A.table.dimension), ∑ q ∈ Finset.range (2 ^ A.table.dimension),
        A.structureConstant kind p q r * A.entry x p * A.entry y q := by
  have hle : ∀ i ∈ Finset.range A.table.numGroups, i ≤ A.table.dimension := fun i hi =>
    Nat.lt_succ_iff.mp (Finset.mem_range.mp hi)
  rw [getD_denseProduct_groups hT x y hr, hT.sum_dense]
  refine Finset.sum_congr rfl fun i hi => ?_
  -- the sum over the groups of `y` moves inside that over the places of the group of `x`
  simp only [groupsAt]
  rw [Finset.sum_comm]
  refine Finset.sum_congr rfl fun a ha => ?_
  rw [hT.sum_dense]
  refine Finset.sum_congr rfl fun j hj => Finset.sum_congr rfl fun b hb => ?_
  rw [entry_place hT hx (hle i hi) (Finset.mem_range.mp ha),
    entry_place hT hy (hle j hj) (Finset.mem_range.mp hb)]

end Dense

/-! ## Products of multivectors -/

section Exact

variable [IsStrictOrderedRing K] {x y : Multivector K} (hT : A.table.Lawful)
include hT

theorem entry_product (hx : x.WellFormed A) (hy : y.WellFormed A) {r : Nat}
    (hr : r < 2 ^ A.table.dimension) : A.entry (A.product kind x y) r =
      ∑ p ∈ Finset.range (2 ^ A.table.dimension), ∑ q ∈ Finset.range (2 ^ A.table.dimension),
        A.structureConstant kind p q r * A.entry x p * A.entry y q := by
  rw [product, entry_compress hT (size_denseProduct kind x y) hr, getD_denseProduct hT hx hy hr]

theorem reduced_product (kind : ProductKind) (x y : Multivector K) :
    A.Reduced (A.product kind x y) :=
  reduced_compress hT (size_denseProduct kind x y)

/-- A product depends on the entries of its operands only. -/
theorem product_congr {x' y' : Multivector K} (hx : x.WellFormed A) (hy : y.WellFormed A)
    (hx' : x'.WellFormed A) (hy' : y'.WellFormed A)
    (hxx : ∀ r < 2 ^ A.table.dimension, A.entry x' r = A.entry x r)
    (hyy : ∀ r < 2 ^ A.table.dimension, A.entry y' r = A.entry y r) :
    A.product kind x' y' = A.product kind x y := by
  refine (reduced_product hT kind x' y').ext hT (reduced_product hT kind x y)
    (wellFormed_product hT kind x' y') (wellFormed_product hT kind x y) fun r hr => ?_
  rw [entry_product hT hx' hy' hr, entry_product hT hx hy hr]
  refine Finset.sum_congr rfl fun p hp => Finset.sum_congr rfl fun q hq => ?_
  rw [hxx p (Finset.mem_range.mp hp), hyy q (Finset.mem_range.mp hq)]

theorem entry_product_add_left {x' : Multivector K} (hx : x.WellFormed A) (hx' : x'.WellFormed A)
    (hy : y.WellFormed A) {r : Nat} (hr : r < 2 ^ A.table.dimension) :
    A.entry (A.product kind (A.add x x') y) r =
      A.entry (A.product kind x y) r + A.entry (A.product kind x' y) r := by
  rw [entry_product hT (wellFormed_add hx hx') hy hr, entry_product hT hx hy hr,
    entry_product hT hx' hy hr, ← Finset.sum_add_distrib]
  refine Finset.sum_congr rfl fun p hp => ?_
  rw [← Finset.sum_add_distrib, entry_add hT hx hx' (Finset.mem_range.mp hp)]
  exact Finset.sum_congr rfl fun q _ => by ring

theorem entry_product_add_right {y' : Multivector K} (hx : x.WellFormed A) (hy : y.WellFormed A)
    (hy' : y'.WellFormed A) {r : Nat} (hr : r < 2 ^ A.table.dimension) :
    A.entry (A.product kind x (A.add y y')) r =
      A.entry (A.product kind x y) r + A.entry (A.product kind x y') r := by
  rw [entry_product hT hx (wellFormed_add hy hy') hr, entry_product hT hx hy hr,
    entry_product hT hx hy' hr, ← Finset.sum_add_distrib]
  refine Finset.sum_congr rfl fun p _ => ?_
  rw [← Finset.sum_add_distrib]
  refine Finset.sum_congr rfl fun q hq => ?_
  rw [entry_add hT hy hy' (Finset.mem_range.mp hq), mul_add]

theorem entry_product_scale_left (hx : x.WellFormed A) (hy : y.WellFormed A) (s : K) {r : Nat}
    (hr : r < 2 ^ A.table.dimension) :
    A.entry (A.product kind (A.scale x s) y) r = A.entry (A.product kind x y) r * s := by
  rw [entry_product hT (wellFormed_scale hT hx s) hy hr, entry_product hT hx hy hr,
    Finset.sum_mul]
  refine Finset.sum_congr rfl fun p hp => ?_
  rw [Finset.sum_mul, entry_scale hT hx s (Finset.mem_range.mp hp)]
  exact Finset.sum_congr rfl fun q _ => by ring

theorem entry_product_scale_right (hx : x.WellFormed A) (hy : y.WellFormed A) (s : K) {r : Nat}
    (hr : r < 2 ^ A.table.dimension) :
    A.entry (A.product kind x (A.scale y s)) r = A.entry (A.product kind x y) r * s := by
  rw [entry_product hT hx (wellFormed_scale hT hy s) hr, entry_product hT hx hy hr,
    Finset.sum_mul]
  refine Finset.sum_congr rfl fun p _ => ?_
  rw [Finset.sum_mul]
  refine Finset.sum_congr rfl fun q hq => ?_
  rw [entry_scale hT hy s (Finset.mem_range.mp hq)]
  ring

end Exact

end Clifford

end GeometricAlgebra
