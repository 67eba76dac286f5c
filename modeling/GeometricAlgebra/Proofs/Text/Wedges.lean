/-
  GeometricAlgebra.Proofs.Text.Wedges

  Wedges of basis vectors, as written and as computed.  The parser sorts the vectors of a blade on
  its own; the engine multiplies basis vectors.  Both end with the same multivector, for every list
  of vectors, with and without repetitions, and every orientation of the stored blades.

    * `Clifford.wedgeValues`: the values of a wedge.
    * `Clifford.represents_foldl_op`: outer products of basis vectors have them.
    * `Clifford.represents_parse_wedge`: names joined by `^` have them.
    * `Clifford.parse_wedge`: so the text and the products agree.
-/

import GeometricAlgebra.Proofs.Binary64.Signs
import GeometricAlgebra.Proofs.Blade.Wedge
import GeometricAlgebra.Proofs.Multivector.UnitBlades
import GeometricAlgebra.Proofs.Multivector.Value
import GeometricAlgebra.Proofs.Text.Names
import GeometricAlgebra.Proofs.Text.Numbers
import GeometricAlgebra.Proofs.Text.Sums

namespace GeometricAlgebra

open Scalar.ExactSigns

namespace Clifford

open Text

section Values

variable {α : Type} [Scalar α]

/-- The values of a wedge of basis vectors: one signed unit blade, or zero. -/
def wedgeValues (A : Clifford α) (vs : List Nat) (r : Nat) : α :=
  if vs.Nodup then
    unitAt (A.table.index (.ofVectors vs))
      (.ofSwaps (Blade.inversions vs) * A.table.signOf (.ofVectors vs)) r
  else 0

variable {A : Clifford α} {x : Multivector α}

theorem wedgeValues_of_nodup {vs : List Nat} (h : vs.Nodup) : A.wedgeValues vs =
    unitAt (A.table.index (.ofVectors vs))
      (.ofSwaps (Blade.inversions vs) * A.table.signOf (.ofVectors vs)) :=
  funext fun _ => if_pos h

theorem wedgeValues_of_not_nodup {vs : List Nat} (h : ¬ vs.Nodup) :
    A.wedgeValues vs = fun _ => 0 :=
  funext fun _ => if_neg h

variable [Scalar.ExactSigns α] (hT : A.table.Lawful)
include hT

/-! ## Products -/

theorem represents_basisVector_wedge {i : Nat} (hi : i < A.dimension) :
    A.Represents (A.basisVector i) (A.wedgeValues [i]) := by
  have hsign : A.table.signOf (.ofVector i) = .plus :=
    hT.signOf_of_grade_le_one (Blade.ofVector_lt hi) (Blade.grade_ofVector i).le
  rw [wedgeValues_of_nodup (List.nodup_singleton i), Blade.ofVectors_singleton, hsign]
  exact represents_basisVector hT hi

/-- A further factor wedges a further vector. -/
theorem represents_op_basisVector {vs : List Nat} (hvs : ∀ v ∈ vs, v < A.dimension) {i : Nat}
    (hi : i < A.dimension) (hx : A.Represents x (A.wedgeValues vs)) :
    A.Represents (A.op x (A.basisVector i)) (A.wedgeValues (vs ++ [i])) := by
  have hvector := represents_basisVector hT hi
  have hb : Blade.ofVectors vs < 2 ^ A.table.dimension := Blade.ofVectors_lt hvs
  have hbi : Blade.ofVector i < 2 ^ A.table.dimension := Blade.ofVector_lt hi
  have hp := hT.index_lt _ hb
  have hq := hT.index_lt _ hbi
  by_cases hnodup : (vs ++ [i]).Nodup
  · obtain ⟨hvs', hbit⟩ := Blade.nodup_append_singleton_iff.mp hnodup
    rw [wedgeValues_of_nodup hvs'] at hx
    have hop := represents_op_unit hT hp hq hx hvector
    rw [hT.blade_index _ hb, hT.blade_index _ hbi] at hop
    have hsign : A.table.sign (A.table.index (.ofVector i)) = .plus :=
      hT.signOf_of_grade_le_one hbi (Blade.grade_ofVector i).le
    rw [wedgeValues_of_nodup hnodup, Blade.ofVectors_append_singleton, ← Blade.xor_ofVector hbit,
      Blade.ofSwaps_inversions_append_singleton hnodup]
    -- the orientation of the blade so far enters twice and cancels
    have hsigns : ∀ a b c d : Sign,
        a * b * Sign.plus * c * (d * b) * Sign.plus = d * a * c :=
      fun a b c d => by cases a <;> cases b <;> cases c <;> cases d <;> rfl
    have hop := hop (Blade.and_ofVector hbit)
    rwa [hsign, show A.table.sign (A.table.index (.ofVectors vs)) = A.table.signOf _ from rfl,
      hsigns] at hop
  · rw [wedgeValues_of_not_nodup hnodup]
    by_cases hvs' : vs.Nodup
    · rw [wedgeValues_of_nodup hvs'] at hx
      refine represents_op_unit_of_shared hT hp hq hx hvector fun hzero => hnodup ?_
      rw [hT.blade_index _ hb, hT.blade_index _ hbi] at hzero
      refine Blade.nodup_append_singleton_iff.mpr ⟨hvs', ?_⟩
      have hbit := congrArg (Nat.testBit · i) hzero
      simpa [Nat.testBit_and, Blade.testBit_ofVector] using hbit
    · rw [wedgeValues_of_not_nodup hvs'] at hx
      exact represents_op_zero hT hx

/-- Outer products of basis vectors, from the left. -/
theorem represents_foldl_op {is vs : List Nat} (hvs : ∀ v ∈ vs, v < A.dimension)
    (his : ∀ i ∈ is, i < A.dimension) (hx : A.Represents x (A.wedgeValues vs)) :
    A.Represents ((is.map A.basisVector).foldl A.op x) (A.wedgeValues (vs ++ is)) := by
  induction is generalizing vs x with
  | nil => rwa [List.append_nil]
  | cons i is ih =>
    obtain ⟨hi, his⟩ := List.forall_mem_cons.mp his
    have hvs' : ∀ v ∈ vs ++ [i], v < A.dimension := fun v hv => by
      rcases List.mem_append.mp hv with hv | hv
      · exact hvs v hv
      · exact List.mem_singleton.mp hv ▸ hi
    have hnext := ih hvs' his (represents_op_basisVector hT hvs hi hx)
    rwa [List.append_assoc, List.singleton_append] at hnext

/-! ## Summands -/

/-- A summand with value one or minus one has the values of a unit blade. -/
theorem sumOn_unit {w : Summand α} (hw : w.blade < 2 ^ A.table.dimension) {s : Sign}
    (hvalue : A.summandValue w = s.toScalar) {r : Nat} (hr : r < 2 ^ A.table.dimension) :
    A.sumOn [w] (A.table.blade r) = unitAt (A.table.index w.blade) s r := by
  have hplace : w.blade = A.table.blade r ↔ r = A.table.index w.blade := by
    constructor
    · intro h
      rw [h, hT.index_blade r hr]
    · rintro rfl
      exact (hT.blade_index _ hw).symm
  rw [sumOn_singleton, hvalue, Scalar.ExactSigns.zero_add (Sign.toScalar_beq_zero s), unitAt]
  exact if_congr hplace rfl rfl

/-- A blade written alone has the values of the wedge. -/
theorem sumOn_wedge {v : Nat} {vs : List Nat} (hvs : ∀ u ∈ v :: vs, u < A.dimension) {r : Nat}
    (hr : r < 2 ^ A.table.dimension) :
    A.sumOn [⟨[], .blade v vs⟩] (A.table.blade r) = A.wedgeValues (v :: vs) r := by
  let w : Summand α := ⟨[], .blade v vs⟩
  by_cases hnodup : (v :: vs).Nodup
  · have hblade : w.blade < 2 ^ A.table.dimension := Blade.ofVectors_lt hvs
    have hvalue : A.summandValue w =
        (Sign.ofSwaps (Blade.inversions (v :: vs)) * A.table.signOf w.blade).toScalar := by
      rw [summandValue_of_nodup (w := w) hnodup, Sign.mul_comm]
      exact Scalar.ExactSigns.mul_one _
    rw [wedgeValues_of_nodup hnodup]
    exact sumOn_unit hT hblade hvalue hr
  · have hvalue : A.summandValue w = 0 := if_neg hnodup
    rw [wedgeValues_of_not_nodup hnodup, sumOn_singleton, hvalue, zero_add_zero zero_beq_zero,
      ite_self]

end Values

/-! ## Texts -/

section Parse

variable {α : Type} [Numeral α] [Scalar.ExactSigns α] {c : Config α} {A : Clifford α}
  (h : ofConfig c = .ok A)
include h

/-- Names joined by `^` denote the wedge of the vectors. -/
theorem represents_parse_wedge {v : Nat} {vs : List Nat} (hvs : ∀ u ∈ v :: vs, u < A.dimension) :
    ∃ x, A.parse ("^".intercalate ((v :: vs).map A.vectorName)) = .ok x ∧
      A.Represents x (A.wedgeValues (v :: vs)) := by
  have hscanned := scanned_wedge h hvs boundary_nil
  rw [List.append_nil, scanned_nil] at hscanned
  have htokens : tokens A.config.vectors ("^".intercalate ((v :: vs).map A.vectorName)) =
      sumTokens ([⟨[], .blade v vs⟩] : List (Summand α)) :=
    (tokens_eq A.config.vectors hscanned).trans (List.append_nil _).symm
  obtain ⟨x, hx, hrepresents⟩ :=
    represents_parse h (isSum_singleton _) (List.nodup_singleton _) htokens
  exact ⟨x, hx, hrepresents.congr fun r hr => sumOn_wedge (lawful_of_ofConfig h) hvs hr⟩

/-- The text `1` denotes the scalar one. -/
theorem represents_parse_one (hone : (readNumber? ['1'] : Option α) = some 1) :
    ∃ x, A.parse "1" = .ok x ∧ A.Represents x (unitAt (A.table.index 0) .plus) := by
  have hT := lawful_of_ofConfig h
  let digit := NumberSpelling.ofDigits ['1'] (List.cons_ne_nil _ _)
    (List.forall_mem_singleton.mpr rfl)
  have hvalue : Numeral.nearest digit.value = (1 : α) :=
    Option.some.inj ((readNumber?_text digit).symm.trans hone)
  have hscanned : (scanned A.config.vectors (bytes "1") : List (Token α)) =
      [.number 1, .stop] := by
    have hnumber := scanned_number (α := α) A.config.vectors digit boundary_nil
    rw [List.append_nil, hvalue, scanned_nil] at hnumber
    exact hnumber
  have htokens : tokens A.config.vectors "1" = sumTokens ([⟨[], .number 1⟩] : List (Summand α)) :=
    tokens_eq A.config.vectors hscanned
  obtain ⟨x, hx, hrepresents⟩ :=
    represents_parse h (isSum_singleton _) (List.nodup_singleton _) htokens
  let w : Summand α := ⟨[], .number 1⟩
  have hw : A.summandValue w = Sign.toScalar .plus := by
    have hzero : A.table.signOf w.blade = .plus := hT.signOf_zero
    rw [summandValue_of_nodup (w := w) List.nodup_nil, hzero]
    exact Scalar.ExactSigns.mul_one _
  exact ⟨x, hx, hrepresents.congr fun r hr => sumOn_unit hT (Nat.two_pow_pos _) hw hr⟩

/-- The name of a stored blade denotes this blade, whatever its orientation. -/
theorem represents_parse_bladeName (hone : (readNumber? ['1'] : Option α) = some 1) {r : Nat}
    (hr : r < 2 ^ A.dimension) :
    ∃ x, A.parse (A.bladeName r) = .ok x ∧ A.Represents x (unitAt r .plus) := by
  have hT := lawful_of_ofConfig h
  cases hvs : A.table.vectors r with
  | nil =>
    have hindex : A.table.index 0 = r := by
      rw [← hT.index_blade r hr, hT.blade_eq hr, hvs, Blade.ofVectors_nil]
    have hname : A.bladeName r = "1" := by
      rw [bladeName, hvs]
    rw [hname, ← hindex]
    exact represents_parse_one h hone
  | cons v vs =>
    have hlt : ∀ u ∈ v :: vs, u < A.dimension := by
      intro u hu
      rw [← hvs, hT.mem_vectors hr] at hu
      exact Blade.lt_of_testBit (hT.blade_lt r hr) hu
    obtain ⟨x, hx, hrepresents⟩ := represents_parse_wedge h hlt
    have hname : A.bladeName r = "^".intercalate ((v :: vs).map A.vectorName) := by
      rw [bladeName, hvs]
    have hvalues : A.wedgeValues (v :: vs) = unitAt r .plus := by
      rw [← hvs, wedgeValues_of_nodup (hT.nodup_vectors hr), ← hT.blade_eq hr, ← hT.sign_eq hr,
        GradeTable.signOf, hT.index_blade r hr, Sign.mul_self]
    exact ⟨x, hname ▸ hx, hvalues ▸ hrepresents⟩

end Parse

/-- Names that a description may have are the tokens of their vectors; names joined by `^` denote
    the outer product of the vectors from the left; and the name of a stored blade denotes the
    multivector that has a one there and stores nothing else. -/
theorem parse_wedge {c : Config Float} (hc : c.validate = .ok ()) :
    (∀ i (hi : i < c.vectors.length),
      (tokens c.vectors c.vectors[i] : List (Token Float)) = [.vector i]) ∧
    ∀ A : Clifford Float, ofConfig c = .ok A →
      (∀ i is, (∀ j ∈ i :: is, j < A.dimension) →
        A.parse ("^".intercalate ((i :: is).map A.vectorName)) =
          .ok ((is.map A.basisVector).foldl A.op (A.basisVector i))) ∧
      ∀ r < 2 ^ A.dimension, ∃ x, A.parse (A.bladeName r) = .ok x ∧ x.WellFormed A ∧
        (∀ g, x.grades.has g = decide (g = A.table.gradeOf r)) ∧
        ∀ b < 2 ^ A.dimension, A.coordinate x b = if b = A.table.blade r then 1 else 0 := by
  refine ⟨fun i hi => ?_, fun A h => ⟨fun i is his => ?_, fun r hr => ?_⟩⟩
  · have hscanned := scanned_of_validate (α := Float) hc hi boundary_nil
    rw [List.append_nil, scanned_nil] at hscanned
    exact tokens_eq c.vectors hscanned
  · have hT := lawful_of_ofConfig h
    obtain ⟨hi, his'⟩ := List.forall_mem_cons.mp his
    obtain ⟨x, hx, hrepresents⟩ := represents_parse_wedge h his
    have hfold := represents_foldl_op hT (List.forall_mem_singleton.mpr hi) his'
      (represents_basisVector_wedge hT hi)
    rw [hx, hrepresents.unique hT hfold]
  · have hT := lawful_of_ofConfig h
    have hone : (readNumber? ['1'] : Option Float) = some 1 := by decide +kernel
    obtain ⟨x, hx, hrepresents⟩ := represents_parse_bladeName h hone hr
    refine ⟨x, hx, hrepresents.wellFormed, fun g => ?_, fun b hb => ?_⟩
    · rw [Bool.eq_iff_iff, hrepresents.has_iff, exists_unitAt_iff hr, decide_eq_true_eq]
    · have hplace : A.table.index b = r ↔ b = A.table.blade r := by
        constructor
        · rintro rfl
          exact (hT.blade_index b hb).symm
        · rintro rfl
          exact hT.index_blade r hr
      rw [hrepresents.coordinate_eq hT hb, unitAt]
      exact if_congr hplace rfl rfl

/-- A wedge with a repeated vector, over space. -/
theorem parse_wedge_e3ga : ∃ A : Clifford Float, ofConfig Config.e3ga = .ok A ∧
    A.parse "e2^e1^e2" =
      .ok (A.op (A.op (A.basisVector 1) (A.basisVector 0)) (A.basisVector 1)) := by
  have horder : (Config.e3ga : Config Float).basisOrder =
      .ok [[], [0], [1], [2], [0, 1], [1, 2], [2, 0], [0, 1, 2]] := by decide +kernel
  have hvalid := (Config.basisOrder_eq_ok_iff.mp horder).1
  have hA := ofConfig_eq_ok_iff.mpr ⟨_, horder, rfl⟩
  obtain ⟨-, hparse⟩ := parse_wedge hvalid
  exact ⟨_, hA, (hparse _ hA).1 1 [0, 1] (by decide)⟩

end Clifford

end GeometricAlgebra
