/-
  GeometricAlgebra.Proofs.Text.Sums

  Sums whose summands are on different blades.  In arithmetic with exact signs nothing is rounded
  when such a sum is added up, and the multivector that the parser returns has the values of the
  summands.

    * `Clifford.summandValue_of_nodup`: the value of a summand, with one sign for all its signs.
    * `Clifford.sumOn_of_mem`, `Clifford.sumOn_of_forall_ne`: one summand on a blade, or none.
    * `Clifford.represents_denseSum`: the multivector of such a sum.
    * `Clifford.represents_parse`: the parser on the text of such a sum.
-/

import GeometricAlgebra.Proofs.Multivector.Represents
import GeometricAlgebra.Proofs.Text.Parsing

namespace GeometricAlgebra.Clifford

open Text Scalar.ExactSigns

theorem isSum_singleton {α : Type} (w : Summand α) : IsSum [w] := signed_nil

variable {α : Type}

section Values

variable [Scalar α] {A : Clifford α} {ws : List (Summand α)}

theorem size_denseSum : (A.denseSum ws).size = A.table.denseSize := Array.size_ofFn

theorem getD_denseSum {r : Nat} (hr : r < A.table.denseSize) :
    (A.denseSum ws).getD r 0 = A.sumOn ws (A.table.blade r) := by
  rw [denseSum, Array.getD_eq_getD_getElem?, Array.getElem?_ofFn, dif_pos hr, Option.getD_some]

theorem sumOn_of_forall_ne {b : Blade} (h : ∀ w ∈ ws, w.blade ≠ b) : A.sumOn ws b = 0 := by
  have hnone : ws.filter (·.blade = b) = [] := by
    rw [List.filter_eq_nil_iff]
    intro w hw
    simpa using h w hw
  rw [sumOn, hnone, List.foldl_nil]

theorem sumOn_singleton (w : Summand α) (b : Blade) :
    A.sumOn [w] b = if w.blade = b then 0 + A.summandValue w else 0 := by
  by_cases hb : w.blade = b
  · simp [sumOn, hb]
  · simp [sumOn, hb]

/-- A summand alone on its blade. -/
theorem sumOn_of_mem (hws : (ws.map Summand.blade).Nodup) {w : Summand α} (hw : w ∈ ws) :
    A.sumOn ws w.blade = 0 + A.summandValue w := by
  have hone : ws.filter (·.blade = w.blade) = [w] := by
    induction ws with
    | nil => exact absurd hw List.not_mem_nil
    | cons u us ih =>
      rw [List.map_cons, List.nodup_cons] at hws
      rcases List.mem_cons.mp hw with rfl | hw
      · have hrest : us.filter (·.blade = w.blade) = [] := by
          rw [List.filter_eq_nil_iff]
          intro v hv hblade
          exact hws.1 (List.mem_map.mpr ⟨v, hv, of_decide_eq_true hblade⟩)
        rw [List.filter_cons_of_pos (by simp), hrest]
      · have hne : u.blade ≠ w.blade := fun h => hws.1 (List.mem_map.mpr ⟨w, hw, h.symm⟩)
        rw [List.filter_cons_of_neg (by simpa using hne), ih hws.2 hw]
  rw [sumOn, hone, List.foldl_cons, List.foldl_nil]

variable [Scalar.ExactSigns α]

/-- Signs are multiplied, not rounded. -/
theorem summandValue_of_nodup {w : Summand α} (h : w.body.vectors.Nodup) :
    A.summandValue w = (A.table.signOf w.blade *
      (w.sign * .ofSwaps (Blade.inversions w.body.vectors))).toScalar * w.body.number?.getD 1 := by
  rw [summandValue, if_pos h, Sign.ofSorting_eq h, Sign.div_toScalar, Sign.toScalar_mul_mul]

/-- A sum without a second summand on a blade has no negative zero. -/
theorem sumOn_of_beq_zero (hws : (ws.map Summand.blade).Nodup) {b : Blade}
    (h : (A.sumOn ws b == 0) = true) : A.sumOn ws b = 0 := by
  by_cases hb : ∃ w ∈ ws, w.blade = b
  · obtain ⟨w, hw, rfl⟩ := hb
    rw [sumOn_of_mem hws hw] at h ⊢
    cases hzero : A.summandValue w == 0 with
    | true => exact zero_add_zero hzero
    | false =>
      rw [Scalar.ExactSigns.zero_add hzero, hzero] at h
      exact absurd h (by decide)
  · exact sumOn_of_forall_ne fun w hw hblade => hb ⟨w, hw, hblade⟩

/-- The multivector of a sum has the values of its summands. -/
theorem represents_denseSum (hT : A.table.Lawful) (hws : (ws.map Summand.blade).Nodup) :
    A.Represents (A.compress (A.denseSum ws) 0 A.table.fullSet)
      fun r => A.sumOn ws (A.table.blade r) := by
  have hvalue : ∀ r < 2 ^ A.table.dimension,
      (A.denseSum ws).getD r 0 = A.sumOn ws (A.table.blade r) :=
    fun r hr => getD_denseSum (hT.denseSize_eq ▸ hr)
  refine (represents_compress hT size_denseSum fun r hr h => ?_).congr hvalue
  rw [hvalue r hr] at h ⊢
  exact sumOn_of_beq_zero hws h

end Values

/-- A text of a sum denotes the multivector with the values of the summands. -/
theorem represents_parse [Numeral α] [Scalar.ExactSigns α] {c : Config α} {A : Clifford α}
    (h : ofConfig c = .ok A) {ws : List (Summand α)} (hsum : IsSum ws)
    (hws : (ws.map Summand.blade).Nodup) {text : String}
    (htokens : tokens A.config.vectors text = sumTokens ws) :
    ∃ x, A.parse text = .ok x ∧ A.Represents x fun r => A.sumOn ws (A.table.blade r) :=
  ⟨_, (parseNamed_eq_ok_iff h text "string" _).mpr ⟨ws, hsum, htokens, rfl⟩,
    represents_denseSum (lawful_of_ofConfig h) hws⟩

end GeometricAlgebra.Clifford
