/-
  GeometricAlgebra.Proofs.ProductTable.Sizes

  How many terms the tables of the products have.  A term belongs to a pair of blades, and whether a
  pair contributes to a product is decided vector by vector: for each product a vector may be placed
  in neither blade, in one of them or in both, but not in both if its square is zero.

    * `Clifford.numTerms_eq_card`: the terms of a table, counted as pairs of blades.
    * `ProductKind.Places`: a product that is decided vector by vector.
    * `Clifford.card_of_places`: the number of pairs of such a product.
    * `Clifford.tableSizes_of_ofConfig`: the number of terms of every product.
-/

import GeometricAlgebra.Proofs.Blade.Placements
import GeometricAlgebra.Proofs.Multivector.DenseSums
import GeometricAlgebra.Proofs.ProductTable.Listing

namespace GeometricAlgebra

open Blade (placements)

namespace Clifford

/-! ## Terms as pairs of blades -/

section Pairs

variable {α : Type} [Scalar α] {A : Clifford α} {kind : ProductKind}

/-- The pairs of blades whose product has a coefficient and a grade that is kept. -/
def contributingPairs (A : Clifford α) (kind : ProductKind) : Finset (Nat × Nat) :=
  (Finset.range (2 ^ A.dimension) ×ˢ Finset.range (2 ^ A.dimension)).filter fun p =>
    ((A.bladeProduct p.1 p.2).1 == 0) = false ∧
      kind.accepts (Blade.grade p.1) (Blade.grade p.2) (Blade.grade (p.1 ^^^ p.2)) = true

/-- The terms of two groups, counted by the places of their pairs. -/
theorem length_survivingPairs (A : Clifford α) (kind : ProductKind) (i j : Nat) :
    (A.survivingPairs kind i j).length = ∑ a ∈ Finset.range (A.table.groupSize i),
      ∑ b ∈ Finset.range (A.table.groupSize j), if A.Survives kind i j a b then 1 else 0 := by
  have hones : ∀ ps : List (Nat × Nat), ps.length = (ps.map fun _ => 1).sum := fun ps => by simp
  rw [hones, survivingPairs, sum_map_filter, List.product, sum_map_flatMap, sum_map_range]
  refine Finset.sum_congr rfl fun a _ => ?_
  rw [List.map_map, sum_map_range]
  exact Finset.sum_congr rfl fun b _ => by simp

/-- The terms of a table, counted by the tables of two groups each. -/
theorem numTerms_eq_sum (hT : A.table.Lawful) (kind : ProductKind) :
    A.numTerms kind = ∑ i ∈ Finset.range A.table.numGroups, ∑ j ∈ Finset.range A.table.numGroups,
      (A.survivingPairs kind i j).length := by
  rw [numTerms, ← List.sum_eq_foldr, allPartialProducts, sum_map_flatMap, GradeTable.groups,
    sum_map_range]
  refine Finset.sum_congr rfl fun i _ => ?_
  rw [sum_map_flatMap, sum_map_range]
  refine Finset.sum_congr rfl fun j _ => ?_
  rw [← List.length_flatMap, (perm_terms hT kind i j).length_eq, List.length_map,
    productTerms_eq_map, List.length_map]

/-- A table has one term for each pair of blades that contributes to the product. -/
theorem numTerms_eq_card (hT : A.table.Lawful) (kind : ProductKind) :
    A.numTerms kind = (A.contributingPairs kind).card := by
  rw [contributingPairs, Finset.card_filter, Finset.sum_product, dimension, numTerms_eq_sum hT,
    hT.sum_blade]
  refine Finset.sum_congr rfl fun i hi => ?_
  -- the places of the second group are summed inside those of the first
  simp only [length_survivingPairs]
  rw [Finset.sum_comm]
  refine Finset.sum_congr rfl fun a ha => ?_
  rw [hT.sum_blade]
  refine Finset.sum_congr rfl fun j hj => Finset.sum_congr rfl fun b hb => ?_
  rw [Finset.mem_range] at hi ha hj hb
  have hleft : Blade.grade (A.table.blade (A.table.denseStart i + a)) = i :=
    hT.gradeOf_add (Nat.le_of_lt_succ hi) ha
  have hright : Blade.grade (A.table.blade (A.table.denseStart j + b)) = j :=
    hT.gradeOf_add (Nat.le_of_lt_succ hj) hb
  simp only [Survives, resultBlade, hleft, hright]
  rfl

end Pairs

end Clifford

/-! ## Products decided vector by vector -/

/-- The product keeps two blades if every vector is placed in them as is allowed. -/
def ProductKind.Places (kind : ProductKind) (allowed : Bool → Bool → Bool) : Prop :=
  ∀ n, ∀ a < 2 ^ n, ∀ b < 2 ^ n,
    kind.accepts (Blade.grade a) (Blade.grade b) (Blade.grade (a ^^^ b)) = true ↔
      ∀ v < n, allowed (a.testBit v) (b.testBit v) = true

namespace ProductKind

theorem places_geometric : geometric.Places fun _ _ => true :=
  fun _ _ _ _ _ => ⟨fun _ _ _ => rfl, fun _ => rfl⟩

/-- The outer product keeps blades without shared vectors. -/
theorem places_outer : outer.Places fun x y => !(x && y) := by
  intro n a ha b _
  have hand : a &&& b < 2 ^ n := lt_of_le_of_lt Nat.and_le_left ha
  rw [accepts, beq_iff_eq, ← Blade.and_eq_zero_iff_grade,
    Blade.eq_iff_forall_testBit hand (Nat.two_pow_pos n)]
  refine forall₂_congr fun v _ => ?_
  rw [Nat.testBit_and, Nat.zero_testBit]
  cases a.testBit v <;> cases b.testBit v <;> decide

/-- The scalar product keeps equal blades. -/
theorem places_scalar : scalar.Places fun x y => x == y := by
  intro n a ha b hb
  rw [accepts, beq_iff_eq, ← Blade.xor_eq_zero_iff_grade, Blade.eq_iff_forall_testBit ha hb]
  simp

/-- The left contraction keeps blades of which the right one contains the left one. -/
theorem places_leftContraction : leftContraction.Places fun x y => !x || y := by
  intro n a ha b _
  have hand : a &&& b < 2 ^ n := lt_of_le_of_lt Nat.and_le_left ha
  rw [accepts, beq_iff_eq, ← Blade.and_eq_left_iff_grade, Blade.eq_iff_forall_testBit hand ha]
  refine forall₂_congr fun v _ => ?_
  rw [Nat.testBit_and]
  cases a.testBit v <;> cases b.testBit v <;> decide

/-- The right contraction keeps blades of which the left one contains the right one. -/
theorem places_rightContraction : rightContraction.Places fun x y => !y || x := by
  intro n a ha b hb
  rw [← places_leftContraction n b hb a ha, Nat.xor_comm]
  rfl

end ProductKind

namespace Clifford

/-! ## Numbers of pairs -/

section Exact

variable {K : Type} [Field K] [LinearOrder K] {A : Clifford K} {kind : ProductKind}

/-- The number of zero entries of the metric. -/
def zeroSquares (A : Clifford K) : Nat := A.metric.toList.countP fun s => decide (s = 0)

/-- They are the vectors of square zero. -/
theorem card_filter_square (hsize : A.metric.size = A.dimension) :
    ((Finset.range A.dimension).filter fun v => decide (Blade.square A.metric v = 0) = true).card =
      A.zeroSquares := by
  have hmetric : A.metric.toList = (List.range A.dimension).map (Blade.square A.metric) := by
    refine List.ext_getElem (by simp [hsize]) fun v hv _ => ?_
    rw [Array.length_toList] at hv
    simp [Blade.square, hv]
  rw [zeroSquares, hmetric, List.countP_map, List.countP_eq_length_filter, Finset.card_def,
    Finset.filter_val, Finset.range_val, Multiset.range, Multiset.filter_coe, Multiset.coe_card]
  simp only [Bool.decide_eq_true, Function.comp_def]

theorem zeroSquares_le (hsize : A.metric.size = A.dimension) : A.zeroSquares ≤ A.dimension := by
  rw [← hsize, ← Array.length_toList]
  exact List.countP_le_length

theorem mem_contributingPairs {a b : Nat} : (a, b) ∈ A.contributingPairs kind ↔
    (a < 2 ^ A.dimension ∧ b < 2 ^ A.dimension) ∧ Blade.coefficient A.metric a b ≠ 0 ∧
      kind.accepts (Blade.grade a) (Blade.grade b) (Blade.grade (a ^^^ b)) = true := by
  rw [contributingPairs, Finset.mem_filter, Finset.mem_product, Finset.mem_range, Finset.mem_range]
  exact and_congr_right fun _ => and_congr_left fun _ => decide_eq_false_iff_not

/-- The number of pairs of a product that is decided vector by vector: `q` placements are allowed
    for a vector, and `p` if its square is zero, since it may not be in both blades then. -/
theorem card_of_places (hsize : A.metric.size = A.dimension) {allowed : Bool → Bool → Bool}
    (h : kind.Places allowed) {p q : Nat}
    (hzero : placements (fun x y => allowed x y && !(x && y)) = p) (hall : placements allowed = q) :
    (A.contributingPairs kind).card =
      p ^ A.zeroSquares * q ^ (A.dimension - A.zeroSquares) := by
  subst hzero hall
  rw [← card_filter_square hsize, ← Blade.card_placedPairs_marked A.dimension allowed
    fun v => decide (Blade.square A.metric v = 0)]
  congr 1
  ext ⟨a, b⟩
  rw [mem_contributingPairs, Blade.mem_placedPairs, and_assoc]
  refine and_congr_right fun ha => and_congr_right fun hb => ?_
  rw [Blade.coefficient_ne_zero_iff A.metric ha, h A.dimension a ha b hb, and_comm,
    ← forall₂_and]
  refine forall₂_congr fun v _ => ?_
  rw [Bool.and_eq_true (allowed _ _), Bool.not_eq_true', ← Bool.not_eq_true,
    Bool.and_eq_true (_ && _), decide_eq_true_iff]

/-- The modified Hestenes product keeps the pairs of both contractions, and these share the pairs of
    the scalar product. -/
theorem card_modifiedHestenes (A : Clifford K) :
    (A.contributingPairs .modifiedHestenes).card + (A.contributingPairs .scalar).card =
      (A.contributingPairs .leftContraction).card +
        (A.contributingPairs .rightContraction).card := by
  have hunion : A.contributingPairs .modifiedHestenes =
      A.contributingPairs .leftContraction ∪ A.contributingPairs .rightContraction := by
    ext ⟨a, b⟩
    rw [Finset.mem_union, mem_contributingPairs, mem_contributingPairs, mem_contributingPairs,
      ← and_or_left, ← and_or_left, ← Bool.or_eq_true]
    rfl
  have hinter : A.contributingPairs .scalar =
      A.contributingPairs .leftContraction ∩ A.contributingPairs .rightContraction := by
    ext ⟨a, b⟩
    rw [Finset.mem_inter, mem_contributingPairs, mem_contributingPairs, mem_contributingPairs,
      ← and_and_left, ← and_and_left]
    refine and_congr_right fun _ => and_congr_right fun _ => ?_
    have hgrade := Blade.grade_xor a b
    have hleft := Blade.grade_and_le a b
    have hright := Blade.grade_and_le b a
    rw [Nat.and_comm] at hright
    simp only [ProductKind.accepts, beq_iff_eq]
    omega
  rw [hunion, hinter]
  exact Finset.card_union_add_card_inter _ _

/-- The pairs with a zero on the left or on the right; both at once is a single pair. -/
theorem card_pairs_with_zero {m : Nat} (hm : 0 < m) :
    ({0} ×ˢ Finset.range m ∪ Finset.range m ×ˢ {0}).card + 1 = 2 * m := by
  have hinter : ({0} ×ˢ Finset.range m) ∩ Finset.range m ×ˢ {0} = {(0, 0)} := by
    rw [Finset.product_inter_product, Finset.singleton_inter_of_mem (Finset.mem_range.mpr hm),
      Finset.inter_singleton_of_mem (Finset.mem_range.mpr hm), Finset.singleton_product_singleton]
  have hcard := Finset.card_union_add_card_inter ({0} ×ˢ Finset.range m) (Finset.range m ×ˢ {0})
  rw [hinter, Finset.card_singleton, Finset.card_product, Finset.card_product, Finset.card_range,
    Finset.card_singleton] at hcard
  omega

/-- The pairs that the Hestenes product drops from the modified one are those with a scalar. -/
theorem card_hestenes (A : Clifford K) :
    (A.contributingPairs .hestenes).card + 2 ^ (A.dimension + 1) =
      (A.contributingPairs .modifiedHestenes).card + 1 := by
  have hpos : 0 < 2 ^ A.dimension := Nat.two_pow_pos _
  have hkept : (A.contributingPairs .modifiedHestenes).filter
      (fun p => Blade.grade p.1 ≠ 0 ∧ Blade.grade p.2 ≠ 0) = A.contributingPairs .hestenes := by
    ext ⟨a, b⟩
    rw [Finset.mem_filter, mem_contributingPairs, mem_contributingPairs]
    simp only [ProductKind.accepts, Bool.and_eq_true, bne_iff_ne]
    tauto
  -- a product with the scalar always has a coefficient
  have hdropped : (A.contributingPairs .modifiedHestenes).filter
        (fun p => ¬ (Blade.grade p.1 ≠ 0 ∧ Blade.grade p.2 ≠ 0)) =
      {0} ×ˢ Finset.range (2 ^ A.dimension) ∪ Finset.range (2 ^ A.dimension) ×ˢ {0} := by
    ext ⟨a, b⟩
    rw [Finset.mem_filter, mem_contributingPairs, Finset.mem_union, Finset.mem_product,
      Finset.mem_product, Finset.mem_singleton, Finset.mem_singleton, Finset.mem_range,
      Finset.mem_range, not_and_or, not_not, not_not, Blade.grade_eq_zero, Blade.grade_eq_zero]
    constructor
    · rintro ⟨⟨⟨ha, hb⟩, -⟩, rfl | rfl⟩
      · exact .inl ⟨rfl, hb⟩
      · exact .inr ⟨ha, rfl⟩
    · rintro (⟨rfl, hb⟩ | ⟨ha, rfl⟩)
      · simp [hpos, hb, ProductKind.accepts]
      · simp [hpos, ha, ProductKind.accepts]
  have hsplit := Finset.card_filter_add_card_filter_not
    (s := A.contributingPairs .modifiedHestenes) fun p => Blade.grade p.1 ≠ 0 ∧ Blade.grade p.2 ≠ 0
  rw [hkept, hdropped] at hsplit
  have hzero := card_pairs_with_zero hpos
  rw [Nat.pow_succ]
  omega

/-! ## Sizes of the tables -/

/-- The numbers of terms of all products in dimension `n`, if `z` vectors have square zero. -/
structure TableSizes (A : Clifford K) (n z : Nat) : Prop where
  -- Every vector is in neither blade, in one of them or, if its square is not zero, in both.
  geometric : A.numTerms .geometric = 3 ^ z * 4 ^ (n - z)
  -- No vector is in both.
  outer : A.numTerms .outer = 3 ^ n
  -- A vector is in neither or in both.
  scalar : A.numTerms .scalar = 2 ^ (n - z)
  -- A vector is in neither, in the larger one or in both.
  leftContraction : A.numTerms .leftContraction = 2 ^ z * 3 ^ (n - z)
  rightContraction : A.numTerms .rightContraction = 2 ^ z * 3 ^ (n - z)
  -- Both contractions; the terms of the scalar product are in both.
  modifiedHestenes : (A.numTerms .modifiedHestenes : Int) =
    2 * (2 ^ z * 3 ^ (n - z)) - 2 ^ (n - z)
  -- The same without scalar operands.
  hestenes : (A.numTerms .hestenes : Int) =
    2 * (2 ^ z * 3 ^ (n - z)) - 2 ^ (n - z) - 2 ^ (n + 1) + 1

/-- The tables of every accepted algebra have these numbers of terms, where `z` is the number of
    zero entries of its metric. -/
theorem tableSizes_of_ofConfig {c : Config K} (h : ofConfig c = .ok A) :
    A.TableSizes A.dimension A.zeroSquares := by
  have hT := lawful_of_ofConfig h
  have hsize := size_metric_of_ofConfig h
  have hle := zeroSquares_le hsize
  have hscalar : (A.contributingPairs .scalar).card = 1 ^ _ * 2 ^ _ :=
    card_of_places hsize ProductKind.places_scalar (by decide) (by decide)
  have hleft : (A.contributingPairs .leftContraction).card = 2 ^ _ * 3 ^ _ :=
    card_of_places hsize ProductKind.places_leftContraction (by decide) (by decide)
  have hright : (A.contributingPairs .rightContraction).card = 2 ^ _ * 3 ^ _ :=
    card_of_places hsize ProductKind.places_rightContraction (by decide) (by decide)
  have hmodified := card_modifiedHestenes A
  have hhestenes := card_hestenes A
  rw [Nat.one_pow, Nat.one_mul] at hscalar
  rw [hscalar, hleft, hright] at hmodified
  zify at hmodified hhestenes
  constructor
  case geometric =>
    rw [numTerms_eq_card hT]
    exact card_of_places hsize ProductKind.places_geometric (by decide) (by decide)
  case outer =>
    have hcard : (A.contributingPairs .outer).card = 3 ^ _ * 3 ^ _ :=
      card_of_places hsize ProductKind.places_outer (by decide) (by decide)
    rw [numTerms_eq_card hT, hcard, ← Nat.pow_add, Nat.add_sub_cancel' hle]
  case scalar => rw [numTerms_eq_card hT, hscalar]
  case leftContraction => rw [numTerms_eq_card hT, hleft]
  case rightContraction => rw [numTerms_eq_card hT, hright]
  case modifiedHestenes =>
    rw [numTerms_eq_card hT]
    linarith
  case hestenes =>
    rw [numTerms_eq_card hT]
    linarith

/-- The vectors of this plane square to 0, 1 and -1; pairs that share the first have no term. -/
theorem tableSizes_degeneratePlane :
    ofConfig Config.degeneratePlane = .ok degeneratePlane ∧
    degeneratePlane.dimension = 3 ∧ degeneratePlane.zeroSquares = 1 ∧
    degeneratePlane.numTerms .geometric = 48 ∧ degeneratePlane.numTerms .outer = 27 ∧
    degeneratePlane.numTerms .scalar = 4 ∧ degeneratePlane.numTerms .leftContraction = 18 ∧
    degeneratePlane.numTerms .rightContraction = 18 ∧
    degeneratePlane.numTerms .modifiedHestenes = 32 ∧ degeneratePlane.numTerms .hestenes = 17 := by
  have hA := ofConfig_degeneratePlane
  have hzero : degeneratePlane.zeroSquares = 1 := by decide +kernel
  have hsizes := tableSizes_of_ofConfig hA
  rw [hzero] at hsizes
  exact ⟨hA, rfl, hzero, hsizes.geometric, hsizes.outer, hsizes.scalar, hsizes.leftContraction,
    hsizes.rightContraction, Int.ofNat_inj.mp hsizes.modifiedHestenes,
    Int.ofNat_inj.mp hsizes.hestenes⟩

end Exact

end Clifford

end GeometricAlgebra
