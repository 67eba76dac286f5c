/-
  GeometricAlgebra.Proofs.Blade.Exterior

  The outer product of sums of blades.  Images of the basis vectors that square to zero and change
  sign when swapped extend to all sums: a blade goes to the product of the images of its vectors.

    * `BladeRule.IsExterior`: blades without a shared vector are sorted, others are dropped.
    * `prod_eq_wedge?`: a product of such images in any order, through the wedge of the vectors.
    * `BladeSum.extend_ascending_mul`: the extension respects products.
    * `BladeSum.extend_ascending_comp`: extensions compose.
-/

import GeometricAlgebra.Proofs.Blade.Sandwich
import GeometricAlgebra.Proofs.Blade.Orientation
import Mathlib.Data.List.Sort

namespace GeometricAlgebra

open Blade (grade vectors ofVector ofVectors inversions swaps reorderingSign append? wedge?)

/-! ## Vectors of a blade, appended and listed -/

namespace Blade

/-- A single vector is passed by the vectors of higher index. -/
theorem swaps_ofVector (b : Blade) (v : Nat) : swaps b (ofVector v) = grade (b >>> (v + 1)) := by
  induction v generalizing b with
  | zero =>
    rw [swaps_halves]
    simp [ofVector, Nat.shiftRight_succ]
  | succ v ih =>
    have heven : ofVector (v + 1) % 2 = 0 := by
      rw [ofVector, Nat.one_shiftLeft, Nat.pow_succ, Nat.mul_mod_left]
    have hhalf : ofVector (v + 1) / 2 = ofVector v := by
      rw [ofVector, ofVector, Nat.one_shiftLeft, Nat.one_shiftLeft, Nat.pow_succ,
        Nat.mul_div_cancel _ (by decide)]
    rw [swaps_halves, heven, hhalf, ih, Nat.zero_mul, Nat.zero_add, ← Nat.shiftRight_one,
      ← Nat.shiftRight_add, Nat.add_comm 1]

theorem and_ofVector {b : Blade} {v : Nat} (h : b.testBit v = false) : b &&& ofVector v = 0 := by
  apply Nat.eq_of_testBit_eq
  intro i
  rw [Nat.testBit_and, testBit_ofVector, Nat.zero_testBit]
  by_cases hi : i = v
  · rw [hi, h, Bool.false_and]
  · simp [hi]

theorem xor_ofVector {b : Blade} {v : Nat} (h : b.testBit v = false) :
    b ^^^ ofVector v = b ||| ofVector v := by
  apply Nat.eq_of_testBit_eq
  intro i
  rw [Nat.testBit_xor, Nat.testBit_or, testBit_ofVector]
  by_cases hi : i = v
  · simp [hi, h]
  · simp [hi]

theorem ofVectors_vectors (b : Blade) : ofVectors (vectors b) = b := by
  apply Nat.eq_of_testBit_eq
  intro i
  rw [Bool.eq_iff_iff, testBit_ofVectors, mem_vectors]

theorem inversions_eq_zero {vs : List Nat} (h : vs.Pairwise (· < ·)) : inversions vs = 0 := by
  induction vs with
  | nil => rfl
  | cons v vs ih =>
    rw [List.pairwise_cons] at h
    have hnone : vs.countP (· < v) = 0 := by
      rw [List.countP_eq_zero]
      intro u hu
      simpa using Nat.le_of_lt (h.1 u hu)
    rw [inversions, hnone, ih h.2]

/-- The vectors of a blade, wedged in ascending order, are the blade. -/
theorem wedge?_vectors (b : Blade) : wedge? (vectors b) = some (.plus, b) := by
  rw [wedge?_of_nodup (nodup_vectors b), inversions_eq_zero (pairwise_vectors b),
    ofVectors_vectors]
  rfl

/-- A further vector takes its place among the vectors of a blade. -/
theorem vectors_or_ofVector {b : Blade} {v : Nat} (h : b.testBit v = false) :
    vectors (b ||| ofVector v) = (vectors b).orderedInsert (· ≤ ·) v := by
  have hle : (vectors b).Pairwise (· ≤ ·) := (pairwise_vectors b).imp Nat.le_of_lt
  -- both lists ascend and have the same members
  refine List.Perm.eq_of_pairwise (fun u w _ _ => Nat.le_antisymm)
    ((pairwise_vectors _).imp Nat.le_of_lt) (hle.orderedInsert v _) ?_
  have hnew : v ∉ vectors b := by
    rw [mem_vectors, h]
    exact Bool.false_ne_true
  refine (List.perm_ext_iff_of_nodup (nodup_vectors _) ?_).mpr fun u => ?_
  · exact (List.perm_orderedInsert (· ≤ ·) v _).nodup_iff.mpr
      (List.nodup_cons.mpr ⟨hnew, nodup_vectors b⟩)
  · rw [List.mem_orderedInsert, mem_vectors, mem_vectors, Nat.testBit_or, testBit_ofVector,
      Bool.or_eq_true, decide_eq_true_eq, or_comm]

end Blade

/-! ## Alternating images -/

/-- Images of the basis vectors that square to zero and change sign when swapped. -/
structure Alternating {M : Type} [Ring M] (F : Nat → M) : Prop where
  mul_self : ∀ i, F i * F i = 0
  mul_comm : ∀ i j, F i * F j = -(F j * F i)

section Alternating

variable {K M : Type} [Field K] [LinearOrder K] [Ring M] [Algebra K M] {F : Nat → M}
  (hF : Alternating F)

/-- The image of a blade: the product of the images of its vectors, ascending. -/
def ascending (F : Nat → M) (b : Blade) : M := ((vectors b).map F).prod

omit [Algebra K M] in
@[simp] theorem ascending_ofVector (F : Nat → M) (v : Nat) : ascending F (ofVector v) = F v := by
  rw [ascending, Blade.vectors_ofVector, List.map_singleton, List.prod_singleton]

include hF

/-- An image moves past a product with one change of sign for each factor. -/
theorem Alternating.pass (v : Nat) (vs : List Nat) : (vs.map F).prod * F v =
    ((Sign.ofSwaps vs.length).toScalar : K) • (F v * (vs.map F).prod) := by
  induction vs with
  | nil => simp [Sign.ofSwaps]
  | cons u vs ih =>
    rw [List.map_cons, List.prod_cons, mul_assoc, ih, mul_smul_comm, ← mul_assoc, hF.mul_comm u v,
      List.length_cons, Sign.ofSwaps_add, Sign.toScalar_mul, neg_mul, mul_assoc]
    simp [Sign.ofSwaps]

/-- A product between two equal images is zero. -/
theorem Alternating.mul_prod_mul (v : Nat) (vs : List Nat) :
    F v * (vs.map F).prod * F v = 0 := by
  induction vs with
  | nil => rw [List.map_nil, List.prod_nil, mul_one, hF.mul_self]
  | cons u vs ih =>
    rw [List.map_cons, List.prod_cons, ← mul_assoc, hF.mul_comm v u, neg_mul, neg_mul, mul_assoc,
      mul_assoc, ← mul_assoc (F v), ih, mul_zero, neg_zero]

/-- A repeated image makes a product zero. -/
theorem Alternating.prod_mul_eq_zero {v : Nat} {vs : List Nat} (hv : v ∈ vs) :
    (vs.map F).prod * F v = 0 := by
  obtain ⟨us, ws, rfl⟩ := List.append_of_mem hv
  rw [List.map_append, List.prod_append, List.map_cons, List.prod_cons, mul_assoc,
    hF.mul_prod_mul, mul_zero]

/-- A further image moves to its place among ascending ones. -/
theorem Alternating.prod_mul_of_pairwise {v : Nat} {vs : List Nat} (hvs : vs.Pairwise (· < ·))
    (hv : v ∉ vs) : (vs.map F).prod * F v =
      ((Sign.ofSwaps (vs.countP (v < ·))).toScalar : K) •
        ((vs.orderedInsert (· ≤ ·) v).map F).prod := by
  induction vs with
  | nil => simp [Sign.ofSwaps]
  | cons u vs ih =>
    rw [List.pairwise_cons] at hvs
    rw [List.mem_cons, not_or] at hv
    rcases Nat.lt_or_gt_of_ne hv.1 with hlt | hgt
    · -- every vector of the list is above `v`
      have hall : (u :: vs).countP (v < ·) = (u :: vs).length := by
        rw [List.countP_eq_length]
        intro w hw
        rcases List.mem_cons.mp hw with rfl | hw
        · exact decide_eq_true hlt
        · exact decide_eq_true (hlt.trans (hvs.1 w hw))
      rw [List.orderedInsert_cons_of_le _ _ hlt.le, hall, hF.pass (K := K),
        List.map_cons (a := v), List.prod_cons]
    · have hnot : ¬ v ≤ u := Nat.not_le.mpr hgt
      have hcount : (u :: vs).countP (v < ·) = vs.countP (v < ·) := by
        rw [List.countP_cons, if_neg (by simpa using hgt.le), Nat.add_zero]
      rw [List.orderedInsert_cons, if_neg hnot, hcount, List.map_cons, List.prod_cons, mul_assoc,
        ih hvs.2 hv.2, mul_smul_comm, List.map_cons, List.prod_cons]

/-- A product of images in any order: the wedge of the vectors gives its sign and its blade, and
    the product is zero if that wedge is. -/
theorem Alternating.prod_eq_wedge? (vs : List Nat) : (vs.map F).prod =
    ((wedge? vs).map fun w => (w.1.toScalar : K) • ascending F w.2).getD 0 := by
  induction vs using List.reverseRecOn with
  | nil => simp [wedge?, ascending, Blade.vectors]
  | append_singleton vs v ih =>
    rw [List.map_append, List.prod_append, List.map_singleton, List.prod_singleton, ih,
      Blade.wedge?_append_singleton]
    cases wedge? vs with
    | none => simp
    | some w =>
      obtain ⟨s, b⟩ := w
      simp only [Option.map_some, Option.getD_some, Option.bind_some, append?, smul_mul_assoc,
        ascending]
      cases hv : b.testBit v with
      | true =>
        rw [hF.prod_mul_eq_zero (Blade.mem_vectors.mpr hv), smul_zero]
        simp
      | false =>
        have hnew : v ∉ vectors b := by
          rw [Blade.mem_vectors, hv]
          exact Bool.false_ne_true
        have hinsert := hF.prod_mul_of_pairwise (K := K) (Blade.pairwise_vectors b) hnew
        rw [hinsert, smul_smul, ← Sign.toScalar_mul]
        simp only [Bool.false_eq_true, if_false, Option.map_some, Option.getD_some,
          Blade.grade_shiftRight, Blade.vectors_or_ofVector hv]
        rfl

end Alternating

/-! ## The exterior algebra -/

/-- A rule that sorts the vectors of two blades and drops blades that share one. -/
structure BladeRule.IsExterior {K : Type} [Field K] [LinearOrder K] (R : BladeRule K) : Prop where
  factor_of_disjoint : ∀ a b : Nat, a &&& b = 0 → R.factor a b = (reorderingSign a b).toScalar
  factor_of_shared : ∀ a b : Nat, a &&& b ≠ 0 → R.factor a b = 0

namespace BladeSum

variable {K : Type} [Field K] [LinearOrder K] {R : BladeRule K} (hR : R.IsExterior)
include hR

/-- A blade of a product is the sorted union of a blade of each factor. -/
theorem disjoint_of_mul_ne_zero {x y : BladeSum R} {d : Blade} (h : (x * y) d ≠ 0) :
    ∃ a b : Nat, x a ≠ 0 ∧ y b ≠ 0 ∧ grade d = grade a + grade b ∧ a &&& b = 0 ∧ a ^^^ b = d := by
  obtain ⟨a, b, ha, hb, hfactor, rfl⟩ := exists_of_mul_ne_zero h
  have hdisjoint : a &&& b = 0 := by
    by_contra hshared
    exact hfactor (hR.factor_of_shared a b hshared)
  have hgrade := Blade.grade_xor a b
  rw [hdisjoint, Blade.grade_zero] at hgrade
  exact ⟨a, b, ha, hb, hgrade, hdisjoint, rfl⟩

theorem HasGrades.mul {j k : Nat} {x y : BladeSum R} (hx : HasGrades (· = j) x)
    (hy : HasGrades (· = k) y) : HasGrades (· = j + k) (x * y) := by
  intro d hd
  obtain ⟨a, b, ha, hb, hgrade, -, -⟩ := disjoint_of_mul_ne_zero hR hd
  rw [hgrade, hx a ha, hy b hb]

/-- A product of `k` vectors has grade `k`. -/
theorem hasGrades_prod {us : List (BladeSum R)} (hus : ∀ u ∈ us, IsVector u) :
    HasGrades (· = us.length) us.prod := by
  induction us with
  | nil =>
    intro b hb
    rw [List.prod_nil, one_apply] at hb
    by_cases hzero : b = 0
    · rw [hzero, Blade.grade_zero]
      rfl
    · exact absurd (if_neg hzero) hb
  | cons u us ih =>
    rw [List.forall_mem_cons] at hus
    rw [List.prod_cons, List.length_cons, Nat.add_comm]
    exact HasGrades.mul hR hus.1 (ih hus.2)

/-! ### Outermorphisms -/

/-- A blade times a vector: the vector is appended, or the product is zero. -/
theorem single_mul_vector (s : Sign) (b : Blade) (v : Nat) :
    (single b s.toScalar * single (ofVector v) 1 : BladeSum R) =
      ((append? (s, b) v).map fun w => single w.2 w.1.toScalar).getD 0 := by
  rw [single_mul_single, mul_one, append?]
  cases hv : b.testBit v with
  | true =>
    have hshared : b &&& ofVector v ≠ 0 := by
      intro hzero
      have hbit := congrArg (fun a : Nat => a.testBit v) hzero
      simp [hv, Blade.testBit_ofVector] at hbit
    rw [hR.factor_of_shared _ _ hshared, mul_zero, single_zero]
    rfl
  | false =>
    rw [hR.factor_of_disjoint _ _ (Blade.and_ofVector hv), reorderingSign, Blade.swaps_ofVector,
      ← Sign.toScalar_mul, Blade.xor_ofVector hv]
    rfl

/-- Vectors multiply to their wedge. -/
theorem prod_vectors (vs : List Nat) :
    (vs.map fun v => (single (ofVector v) 1 : BladeSum R)).prod =
      ((wedge? vs).map fun w => single w.2 w.1.toScalar).getD 0 := by
  induction vs using List.reverseRecOn with
  | nil => rfl
  | append_singleton vs v ih =>
    rw [List.map_append, List.prod_append, List.map_singleton, List.prod_singleton, ih,
      Blade.wedge?_append_singleton]
    cases wedge? vs with
    | none => simp
    | some w => exact single_mul_vector hR w.1 w.2 v

/-- A blade is the product of its vectors. -/
theorem single_eq_prod (b : Blade) : (single b 1 : BladeSum R) =
    ((vectors b).map fun v => (single (ofVector v) 1 : BladeSum R)).prod := by
  rw [prod_vectors hR, Blade.wedge?_vectors]
  rfl

variable {M : Type} [Ring M] [Algebra K M] {F : Nat → M}

/-- The images of two blades multiply to the image of their product. -/
theorem ascending_mul (hF : Alternating F) (a b : Blade) :
    extend (ascending F) (single a 1 * single b 1 : BladeSum R) =
      ascending F a * ascending F b := by
  -- the vectors of both, one after the other, have the same wedge before and after
  have hbefore : (single a 1 * single b 1 : BladeSum R) =
      ((wedge? (vectors a ++ vectors b)).map fun w => single w.2 w.1.toScalar).getD 0 := by
    rw [single_eq_prod hR a, single_eq_prod hR b, ← List.prod_append, ← List.map_append,
      prod_vectors hR]
  have hafter : ascending F a * ascending F b =
      ((wedge? (vectors a ++ vectors b)).map fun w =>
        (w.1.toScalar : K) • ascending F w.2).getD 0 := by
    rw [ascending, ascending, ← List.prod_append, ← List.map_append, hF.prod_eq_wedge? (K := K)]
  rw [hbefore, hafter]
  cases wedge? (vectors a ++ vectors b) with
  | none => simp
  | some w => simp

theorem extend_ascending_mul (hF : Alternating F) (x y : BladeSum R) :
    extend (ascending F) (x * y) = extend (ascending F) x * extend (ascending F) y := by
  induction x using induction with
  | zero => simp
  | add x x' hx hx' => rw [add_mul, map_add, hx, hx', map_add, add_mul]
  | single a s =>
    induction y using induction with
    | zero => simp
    | add y y' hy hy' => rw [mul_add, map_add, hy, hy', map_add, mul_add]
    | single b t =>
      have hblades := ascending_mul hR hF a b
      rw [single_eq_smul a s, single_eq_smul b t, smul_mul_smul_comm, map_smul, hblades, map_smul,
        map_smul, extend_single, extend_single, one_smul, one_smul, smul_mul_smul_comm]

omit hR in
/-- Only the images of the vectors that occur matter. -/
theorem extend_ascending_congr {n : Nat} {G : Nat → M} {x : BladeSum R}
    (hx : ∀ b : Nat, x b ≠ 0 → b < 2 ^ n) (h : ∀ i < n, F i = G i) :
    extend (ascending F) x = extend (ascending G) x := by
  refine extend_congr fun b hb => congrArg List.prod (List.map_congr_left fun i hi => ?_)
  exact h i (Blade.lt_of_testBit (hx b hb) (Blade.mem_vectors.mp hi))

/-- The basis vectors as their own images. -/
theorem extend_ascending_single (x : BladeSum R) :
    extend (ascending fun i => (single (ofVector i) 1 : BladeSum R)) x = x := by
  induction x using induction with
  | zero => simp
  | add x x' hx hx' => rw [map_add, hx, hx']
  | single b s => rw [extend_single, ascending, ← single_eq_prod hR, ← single_eq_smul]

omit hR in
theorem extend_ascending_one : extend (ascending F) (1 : BladeSum R) = 1 := by
  rw [one_def, extend_single, one_smul]
  rfl

/-- The images of the basis vectors determine those of all products: an extension of alternating
    images after another is the extension of the images taken twice. -/
theorem extend_ascending_comp {G : Nat → BladeSum R} (hF : Alternating F) (x : BladeSum R) :
    extend (ascending fun i => extend (ascending F) (G i)) x =
      extend (ascending F) (extend (ascending G) x) := by
  have hprod : ∀ vs : List Nat, (vs.map fun i => extend (ascending F) (G i)).prod =
      extend (ascending F) (vs.map G).prod := by
    intro vs
    induction vs with
    | nil => exact extend_ascending_one.symm
    | cons v vs ih =>
      rw [List.map_cons, List.prod_cons, ih, List.map_cons, List.prod_cons,
        extend_ascending_mul hR hF]
  induction x using induction with
  | zero => simp
  | add x x' hx hx' => rw [map_add, hx, hx', map_add, map_add]
  | single b s =>
    rw [extend_single, extend_single, map_smul]
    exact congrArg (s • ·) (hprod (vectors b))

/-! ### Vectors alternate -/

variable [IsStrictOrderedRing K]

/-- The square of a vector is a scalar, and no scalar is the product of two vectors. -/
theorem IsVector.mul_self_eq_zero {u : BladeSum R} (hu : IsVector u) : u * u = 0 := by
  have hscalar : square u = 0 := by
    by_contra hne
    obtain ⟨a, b, ha, -, hgrade, -, -⟩ := disjoint_of_mul_ne_zero hR hne
    have hone : grade a = 1 := hu a ha
    rw [Blade.grade_zero] at hgrade
    omega
  rw [hu.mul_self, hscalar, zero_smul]

theorem alternating_of_isVector {F : Nat → BladeSum R} (hF : ∀ i, IsVector (F i)) :
    Alternating F where
  mul_self i := (hF i).mul_self_eq_zero hR
  mul_comm i j := by
    have hi := (hF i).mul_self_eq_zero hR
    have hj := (hF j).mul_self_eq_zero hR
    have hsum : IsVector (F i + F j) := (hF i).add (hF j)
    have hsquare := hsum.mul_self_eq_zero hR
    rw [mul_add, add_mul, add_mul, hi, hj, zero_add, add_zero] at hsquare
    exact eq_neg_of_add_eq_zero_right hsquare

end BladeSum

end GeometricAlgebra
