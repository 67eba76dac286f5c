/-
  GeometricAlgebra.Proofs.Blade.Wedge

  The wedge of a list of basis vectors, which sees the vectors one at a time and keeps no more than
  the blade so far.  Its sign is that of sorting the whole list, so it multiplies over lists in a row
  and changes with the order of the list as the sign of a blade does.

    * `ofSwaps_inversions_append`, `ofSwaps_inversions_reverse`: the sign of two lists in a row and
      of a list read backwards.
    * `Sorts`: the sign and the blade that sorting a list leaves.
    * `wedge?_sorts`: what the wedge of a list is, of two lists in a row and of the reversed list.
-/

import GeometricAlgebra.Proofs.Blade.Exterior

namespace GeometricAlgebra

instance : @Std.Associative Sign (· * ·) := ⟨Sign.mul_assoc⟩

instance : @Std.Commutative Sign (· * ·) := ⟨Sign.mul_comm⟩

namespace Blade

variable {us vs : List Nat}

/-! ## Lists in a row -/

theorem nodup_append_singleton_iff {v : Nat} :
    (vs ++ [v]).Nodup ↔ vs.Nodup ∧ (ofVectors vs).testBit v = false := by
  rw [List.nodup_append_comm, List.singleton_append, List.nodup_cons, and_comm,
    ← Bool.not_eq_true, testBit_ofVectors]

theorem ofVectors_append (us vs : List Nat) :
    ofVectors (us ++ vs) = ofVectors us ||| ofVectors vs := by
  apply Nat.eq_of_testBit_eq
  intro i
  rw [Bool.eq_iff_iff]
  simp [testBit_ofVectors]

/-- Without a common vector the union of two blades is their symmetric difference. -/
theorem ofVectors_append_of_nodup (h : (us ++ vs).Nodup) :
    ofVectors (us ++ vs) = ofVectors us ^^^ ofVectors vs := by
  have hdisjoint := (List.nodup_append'.mp h).2.2
  apply Nat.eq_of_testBit_eq
  intro i
  rw [ofVectors_append, Nat.testBit_or, Nat.testBit_xor]
  cases hu : (ofVectors us).testBit i with
  | false => rw [Bool.false_or, Bool.false_xor]
  | true =>
    have hv : (ofVectors vs).testBit i = false := by
      rw [← Bool.not_eq_true, testBit_ofVectors]
      exact hdisjoint (testBit_ofVectors.mp hu)
    rw [hv]
    rfl

/-- A further vector passes the vectors of the blade so far. -/
theorem ofSwaps_inversions_append_singleton {v : Nat} (h : (vs ++ [v]).Nodup) :
    Sign.ofSwaps (inversions (vs ++ [v])) =
      .ofSwaps (inversions vs) * reorderingSign (ofVectors vs) (ofVector v) := by
  have hpassed : swaps (ofVectors vs) (ofVector v) = vs.countP (v < ·) := by
    rw [swaps_ofVector, grade_shiftRight, (perm_vectors_ofVectors h.of_append_left).countP_eq]
    rfl
  rw [inversions_append_singleton, Sign.ofSwaps_add, reorderingSign, hpassed]

/-- The vectors of the second list pass those of the first list that have a higher index. -/
theorem ofSwaps_inversions_append (h : (us ++ vs).Nodup) :
    Sign.ofSwaps (inversions (us ++ vs)) =
      .ofSwaps (inversions us) * .ofSwaps (inversions vs) *
        reorderingSign (ofVectors us) (ofVectors vs) := by
  induction vs using List.reverseRecOn with
  | nil =>
    rw [List.append_nil, ofVectors_nil, reorderingSign, swaps_zero_right]
    cases Sign.ofSwaps (inversions us) <;> rfl
  | append_singleton vs v ih =>
    have hvs : (vs ++ [v]).Nodup := h.of_append_right
    rw [← List.append_assoc] at h ⊢
    -- the last vector passes both lists, and its sign goes with that of each
    rw [ofSwaps_inversions_append_singleton h, ofSwaps_inversions_append_singleton hvs,
      ih h.of_append_left, ofVectors_append_of_nodup h.of_append_left,
      ofVectors_append_of_nodup hvs, ofVectors_singleton, reorderingSign_xor_left,
      reorderingSign_xor_right]
    ac_rfl

/-! ## Lists read backwards -/

/-- A vector more is passed by all others. -/
theorem reverseSign_succ (k : Nat) : reverseSign (k + 1) = .ofSwaps k * reverseSign k := by
  rw [reverseSign_eq, reverseSign_eq, ← Sign.ofSwaps_add]
  apply Sign.ofSwaps_congr
  rcases Nat.even_or_odd' k with ⟨j, rfl | rfl⟩
  · omega
  · omega

theorem ofSwaps_inversions_reverse (h : us.Nodup) :
    Sign.ofSwaps (inversions us.reverse) = .ofSwaps (inversions us) * reverseSign us.length := by
  induction us with
  | nil => rfl
  | cons u us ih =>
    obtain ⟨hnew, hus⟩ := List.nodup_cons.mp h
    -- each further vector is below or above the first one
    have hcount : us.countP (· < u) + us.countP (u < ·) = us.length := by
      rw [List.length_eq_countP_add_countP (· < u)]
      congr 1
      refine List.countP_congr fun v hv => ?_
      have hne : v ≠ u := fun heq => hnew (heq ▸ hv)
      simp only [decide_eq_true_eq]
      omega
    have hlength : Sign.ofSwaps us.length =
        .ofSwaps (us.countP (· < u)) * .ofSwaps (us.countP (u < ·)) := by
      rw [← Sign.ofSwaps_add, hcount]
    rw [List.reverse_cons, inversions_append_singleton, List.countP_reverse, Sign.ofSwaps_add,
      ih hus, List.length_cons, reverseSign_succ, hlength, inversions, Sign.ofSwaps_add]
    -- those below it pass it in the list and, read backwards, do not
    generalize Sign.ofSwaps (us.countP (· < u)) = below, Sign.ofSwaps (us.countP (u < ·)) = above,
      Sign.ofSwaps (inversions us) = s, reverseSign us.length = r
    calc s * r * above = below * below * (s * r * above) := by rw [Sign.mul_self, Sign.plus_mul]
      _ = below * s * (below * above * r) := by ac_rfl

/-! ## Wedges -/

/-- Sorting a list of vectors leaves the blade `b` with the sign `s`. -/
structure Sorts (us : List Nat) (s : Sign) (b : Blade) : Prop where
  -- The blade has the vectors of the list.
  testBit_iff : ∀ v, b.testBit v = true ↔ v ∈ us
  -- Vectors below `n` leave a blade of `n` bits.
  lt : ∀ n, (∀ v ∈ us, v < n) → b < 2 ^ n
  sign : s.toUnits = Equiv.Perm.sign (Tuple.sort us.get)
  vectors_eq : vectors b = us.mergeSort

/-- The vectors of the blade of a list are the sorted list. -/
theorem vectors_ofVectors (h : us.Nodup) : vectors (ofVectors us) = us.mergeSort := by
  refine List.Perm.eq_of_pairwise (fun u v _ _ => Nat.le_antisymm)
    ((pairwise_vectors _).imp Nat.le_of_lt) ?_
    ((perm_vectors_ofVectors h).trans (List.mergeSort_perm us _).symm)
  have hsorted : us.mergeSort.Pairwise fun u v => decide (u ≤ v) = true :=
    List.pairwise_mergeSort (fun a b c => by simpa using Nat.le_trans)
      (fun a b => by simpa using Nat.le_total a b) us
  exact hsorted.imp of_decide_eq_true

theorem sorts_ofVectors (h : us.Nodup) : Sorts us (.ofSwaps (inversions us)) (ofVectors us) where
  testBit_iff _ := testBit_ofVectors
  lt _ hlt := ofVectors_lt hlt
  sign := by rw [Sign.toUnits_ofSwaps, sign_sort h]
  vectors_eq := vectors_ofVectors h

theorem wedge?_eq_some_iff {s : Sign} {b : Blade} :
    wedge? us = some (s, b) ↔ us.Nodup ∧ s = .ofSwaps (inversions us) ∧ b = ofVectors us := by
  rw [wedge?_eq]
  by_cases h : us.Nodup <;> simp [h, eq_comm]

/-- The wedge of a list of vectors is zero exactly if a vector repeats, and otherwise what sorting the
    list leaves.  Two lists without a common vector, one after the other, have the product of their
    signs and the sign of sorting their blades; read backwards, a list has the sign of its reverse. -/
theorem wedge?_sorts (us : List Nat) :
    (wedge? us = none ↔ ∃ v, 2 ≤ us.count v) ∧
      ∀ s b, wedge? us = some (s, b) → Sorts us s b ∧
        wedge? us.reverse = some (s * reverseSign us.length, b) ∧
        ∀ vs t d, wedge? vs = some (t, d) → us.Disjoint vs →
          wedge? (us ++ vs) = some (s * t * reorderingSign b d, b ||| d) := by
  refine ⟨?_, fun s b hus => ?_⟩
  · rw [wedge?_eq_none_iff, List.nodup_iff_count_le_one, not_forall]
    simp only [Nat.not_le]
    rfl
  obtain ⟨hnodup, rfl, rfl⟩ := wedge?_eq_some_iff.mp hus
  refine ⟨sorts_ofVectors hnodup, ?_, fun vs t d hvs hdisjoint => ?_⟩
  · refine wedge?_eq_some_iff.mpr ⟨List.nodup_reverse.mpr hnodup,
      (ofSwaps_inversions_reverse hnodup).symm, Nat.eq_of_testBit_eq fun i => ?_⟩
    rw [Bool.eq_iff_iff, testBit_ofVectors, testBit_ofVectors, List.mem_reverse]
  · obtain ⟨hnodup', rfl, rfl⟩ := wedge?_eq_some_iff.mp hvs
    have happend : (us ++ vs).Nodup := List.nodup_append'.mpr ⟨hnodup, hnodup', hdisjoint⟩
    exact wedge?_eq_some_iff.mpr
      ⟨happend, (ofSwaps_inversions_append happend).symm, (ofVectors_append us vs).symm⟩

/-- `e2^e0` and `e3^e1`, each against the order of its blade, on its own, backwards and in a row. -/
theorem wedge?_sorts_crossed : wedge? [2, 0] = some (.minus, 5) ∧ Sorts [2, 0] .minus 5 ∧
    wedge? [0, 2] = some (.plus, 5) ∧ wedge? [3, 1] = some (.minus, 10) ∧
      wedge? [2, 0, 3, 1] = some (.minus, 15) := by
  have hfirst : wedge? [2, 0] = some (.minus, 5) := by decide +kernel
  have hsecond : wedge? [3, 1] = some (.minus, 10) := by decide +kernel
  obtain ⟨hsorts, hreverse, happend⟩ := (wedge?_sorts [2, 0]).2 .minus 5 hfirst
  have hrow := happend [3, 1] .minus 10 hsecond (by simp)
  have hsign : (Sign.minus * .minus * reorderingSign 5 10 : Sign) = .minus := by decide +kernel
  rw [hsign] at hrow
  exact ⟨hfirst, hsorts, hreverse, hsecond, hrow⟩

end Blade

end GeometricAlgebra
