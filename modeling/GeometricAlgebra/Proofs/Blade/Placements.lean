/-
  GeometricAlgebra.Proofs.Blade.Placements

  Pairs of blades, vector by vector.  Whether two blades are disjoint, contained in each other or
  equal, and whether their product has a coefficient, is decided by where each vector is placed: in
  neither blade, in one of them or in both.  So such pairs are counted by counting placements.

    * `and_eq_zero_iff_grade`, `and_eq_left_iff_grade`: disjoint and contained blades, by the grade
      of the product.
    * `coefficient_ne_zero_iff`: a coefficient is zero if a shared vector has the square zero.
    * `card_placedPairs`: the number of pairs is the product of the numbers of placements.
    * `exists_pair_of_overlap`: two blades of given grades that share a given number of vectors.
-/

import Mathlib.Data.Fintype.BigOperators
import GeometricAlgebra.Proofs.Blade.Exterior

namespace GeometricAlgebra.Blade

/-! ## Disjoint and contained blades -/

/-- In dimension `n` two blades are equal if they have the same of the first `n` vectors. -/
theorem eq_iff_forall_testBit {n a b : Nat} (ha : a < 2 ^ n) (hb : b < 2 ^ n) :
    a = b ↔ ∀ v < n, a.testBit v = b.testBit v := by
  refine ⟨fun h v _ => by rw [h], fun h => Nat.eq_of_testBit_eq fun v => ?_⟩
  by_cases hv : v < n
  · exact h v hv
  · rw [Bool.eq_false_iff.mpr fun hbit => hv (lt_of_testBit ha hbit),
      Bool.eq_false_iff.mpr fun hbit => hv (lt_of_testBit hb hbit)]

/-- Two blades are disjoint if the grades of both add up in their product. -/
theorem and_eq_zero_iff_grade (a b : Nat) :
    a &&& b = 0 ↔ grade (a ^^^ b) = grade a + grade b := by
  have hgrade := grade_xor a b
  rw [← grade_eq_zero]
  omega

/-- A blade is contained in another if the grade of their product is what is left of it. -/
theorem and_eq_left_iff_grade (a b : Nat) :
    a &&& b = a ↔ grade (a ^^^ b) + grade a = grade b := by
  have hgrade := grade_xor a b
  -- what the first blade has beyond the shared vectors
  have hrest := grade_xor (a &&& b) a
  rw [Nat.and_comm (a &&& b) a, ← Nat.and_assoc, Nat.and_self] at hrest
  rw [← Nat.xor_eq_zero_iff, ← grade_eq_zero]
  omega

theorem xor_eq_zero_iff_grade (a b : Nat) : a = b ↔ grade (a ^^^ b) = 0 := by
  rw [grade_eq_zero, Nat.xor_eq_zero_iff]

/-- The vectors of two blades, the shared ones once, fit into the dimension. -/
theorem grade_xor_add_grade_and_le {n a b : Nat} (ha : a < 2 ^ n) (hb : b < 2 ^ n) :
    grade (a ^^^ b) + grade (a &&& b) ≤ n := by
  have hdisjoint : (a ^^^ b) &&& (a &&& b) = 0 := by
    apply Nat.eq_of_testBit_eq
    intro v
    simp only [Nat.testBit_and, Nat.testBit_xor, Nat.zero_testBit]
    cases a.testBit v <;> cases b.testBit v <;> rfl
  rw [← (and_eq_zero_iff_grade _ _).mp hdisjoint]
  exact grade_le (Nat.xor_lt_two_pow (Nat.xor_lt_two_pow ha hb)
    (lt_of_le_of_lt Nat.and_le_left ha))

section Coefficients

variable {K : Type} [Field K] [LinearOrder K]

/-- A product of two blades has a coefficient unless a vector of square zero is shared. -/
theorem coefficient_ne_zero_iff (metric : Array K) {n a : Nat} (ha : a < 2 ^ n) (b : Nat) :
    coefficient metric a b ≠ 0 ↔
      ∀ v < n, ¬ ((a.testBit v && b.testBit v) = true ∧ square metric v = 0) := by
  rw [coefficient_eq, metricFactor_eq_prod metric ha, mul_ne_zero_iff, Finset.prod_ne_zero_iff]
  simp only [Sign.toScalar_ne_zero, Finset.mem_range, ne_eq, not_false_eq_true, true_and]
  refine forall₂_congr fun v _ => ?_
  by_cases hshared : (a.testBit v && b.testBit v) = true
  · simp [hshared]
  · simp [hshared]

end Coefficients

/-! ## Counting pairs -/

/-- The number of ways to place one vector in two blades. -/
def placements (allowed : Bool → Bool → Bool) : Nat :=
  ((Finset.univ : Finset (Bool × Bool)).filter fun p => allowed p.1 p.2 = true).card

/-- The pairs of blades of dimension `n` of which every vector is placed as is allowed for it. -/
def placedPairs (n : Nat) (allowed : Nat → Bool → Bool → Bool) : Finset (Nat × Nat) :=
  (Finset.range (2 ^ n) ×ˢ Finset.range (2 ^ n)).filter fun p =>
    ∀ v < n, allowed v (p.1.testBit v) (p.2.testBit v) = true

theorem mem_placedPairs {n : Nat} {allowed : Nat → Bool → Bool → Bool} {a b : Nat} :
    (a, b) ∈ placedPairs n allowed ↔ a < 2 ^ n ∧ b < 2 ^ n ∧
      ∀ v < n, allowed v (a.testBit v) (b.testBit v) = true := by
  rw [placedPairs, Finset.mem_filter, Finset.mem_product, Finset.mem_range, Finset.mem_range,
    and_assoc]

/-- The vectors are placed independently of each other. -/
theorem card_placedPairs (n : Nat) (allowed : Nat → Bool → Bool → Bool) :
    (placedPairs n allowed).card = ∏ v ∈ Finset.range n, placements (allowed v) := by
  rw [← Fin.prod_univ_eq_prod_range (fun v => placements (allowed v))]
  simp only [placements]
  rw [← Fintype.card_piFinset]
  -- a pair of blades is a choice of one placement for each vector
  refine Finset.card_bij (fun p _ v => (p.1.testBit v, p.2.testBit v)) ?_ ?_ ?_
  · rintro ⟨a, b⟩ hab
    obtain ⟨-, -, hallowed⟩ := mem_placedPairs.mp hab
    rw [Fintype.mem_piFinset]
    exact fun v => Finset.mem_filter.mpr ⟨Finset.mem_univ _, hallowed v v.isLt⟩
  · rintro ⟨a, b⟩ hab ⟨a', b'⟩ hab' heq
    obtain ⟨ha, hb, -⟩ := mem_placedPairs.mp hab
    obtain ⟨ha', hb', -⟩ := mem_placedPairs.mp hab'
    have hbits := fun v (hv : v < n) => Prod.mk.inj (congrFun heq ⟨v, hv⟩)
    rw [(eq_iff_forall_testBit ha ha').mpr fun v hv => (hbits v hv).1,
      (eq_iff_forall_testBit hb hb').mpr fun v hv => (hbits v hv).2]
  · intro f hf
    rw [Fintype.mem_piFinset] at hf
    refine ⟨(Nat.ofBits fun v => (f v).1, Nat.ofBits fun v => (f v).2), ?_, ?_⟩
    · refine mem_placedPairs.mpr ⟨Nat.ofBits_lt_two_pow _, Nat.ofBits_lt_two_pow _, fun v hv => ?_⟩
      rw [Nat.testBit_ofBits_lt _ _ hv, Nat.testBit_ofBits_lt _ _ hv]
      exact (Finset.mem_filter.mp (hf ⟨v, hv⟩)).2
    · funext v
      rw [Nat.testBit_ofBits_lt _ _ v.isLt, Nat.testBit_ofBits_lt _ _ v.isLt]

/-- Pairs whose vectors all follow one rule, but may not be shared if they are marked. -/
theorem card_placedPairs_marked (n : Nat) (allowed : Bool → Bool → Bool) (marked : Nat → Bool) :
    (placedPairs n fun v x y => allowed x y && !(x && y && marked v)).card =
      placements (fun x y => allowed x y && !(x && y)) ^
          ((Finset.range n).filter (marked · = true)).card *
        placements allowed ^ (n - ((Finset.range n).filter (marked · = true)).card) := by
  have hfactor : ∀ v, placements (fun x y => allowed x y && !(x && y && marked v)) =
      if marked v = true then placements (fun x y => allowed x y && !(x && y))
      else placements allowed := by
    intro v
    cases marked v with
    | true => simp only [Bool.and_true, if_true]
    | false => simp only [Bool.and_false, Bool.not_false, Bool.and_true, Bool.false_eq_true, if_false]
  have hunmarked : ((Finset.range n).filter fun v => ¬ marked v = true).card =
      n - ((Finset.range n).filter (marked · = true)).card := by
    have hsum := Finset.card_filter_add_card_filter_not (s := Finset.range n) (marked · = true)
    rw [Finset.card_range] at hsum
    omega
  rw [card_placedPairs]
  simp only [hfactor]
  rw [Finset.prod_ite, Finset.prod_const, Finset.prod_const, hunmarked]

/-! ## Pairs of given grades -/

/-- Two blades of grades `i` and `j` share `s` vectors for every `s` that leaves room for the
    others. -/
theorem exists_pair_of_overlap {n i j s : Nat} (hi : s ≤ i) (hj : s ≤ j) (hn : i + j ≤ n + s) :
    ∃ a < 2 ^ n, ∃ b < 2 ^ n, grade a = i ∧ grade b = j ∧ grade (a &&& b) = s := by
  -- the first `i` vectors, and `j` vectors of which the first `s` are the last of these
  have hand : ofVectors (List.range i) &&& ofVectors (List.range' (i - s) j) =
      ofVectors (List.range' (i - s) s) := by
    apply Nat.eq_of_testBit_eq
    intro v
    rw [Bool.eq_iff_iff, Nat.testBit_and, Bool.and_eq_true, testBit_ofVectors, testBit_ofVectors,
      testBit_ofVectors, List.mem_range, List.mem_range'_1, List.mem_range'_1]
    omega
  refine ⟨ofVectors (List.range i), ofVectors_lt fun v hv => ?_,
    ofVectors (List.range' (i - s) j), ofVectors_lt fun v hv => ?_, ?_, ?_, ?_⟩
  · rw [List.mem_range] at hv
    omega
  · rw [List.mem_range'_1] at hv
    omega
  · rw [grade_ofVectors List.nodup_range, List.length_range]
  · rw [grade_ofVectors (List.nodup_range' 1), List.length_range']
  · rw [hand, grade_ofVectors (List.nodup_range' 1), List.length_range']

end GeometricAlgebra.Blade
