/-
  GeometricAlgebra.Proofs.Multivector.Represents

  Multivectors by their values.  In arithmetic with exact signs a dense buffer without negative
  zeros is compressed to the one multivector that has its values and stores just the grades with a
  value that is no zero.

    * `Clifford.Represents`: a multivector has given values, and no grade of zeros.
    * `Represents.unique`: there is only one.
    * `represents_compress`: compressing finds it.
-/

import GeometricAlgebra.Proofs.ExactSigns
import GeometricAlgebra.Proofs.Multivector.Entries

namespace GeometricAlgebra.Clifford

variable {α : Type} [Scalar α] {A : Clifford α} {x y : Multivector α} {v w : Nat → α}

/-- The multivector has the values `v`, by dense index, and stores the grades with a value that is
    no zero. -/
structure Represents (A : Clifford α) (x : Multivector α) (v : Nat → α) : Prop where
  wellFormed : x.WellFormed A
  entry_eq : ∀ r < 2 ^ A.table.dimension, A.entry x r = v r
  has_iff : ∀ g, x.grades.has g = true ↔
    ∃ r < 2 ^ A.table.dimension, A.table.gradeOf r = g ∧ (v r == 0) = false

theorem Represents.congr (h : A.Represents x v) (hvw : ∀ r < 2 ^ A.table.dimension, v r = w r) :
    A.Represents x w where
  wellFormed := h.wellFormed
  entry_eq r hr := (h.entry_eq r hr).trans (hvw r hr)
  has_iff g := by
    rw [h.has_iff]
    refine exists_congr fun r => and_congr_right fun hr => ?_
    rw [hvw r hr]

variable (hT : A.table.Lawful)
include hT

/-- Values are represented by one multivector only. -/
theorem Represents.unique (hx : A.Represents x v) (hy : A.Represents y v) : x = y := by
  refine ext_entry hT hx.wellFormed hy.wellFormed (GradeSet.ext_has fun g => ?_) fun r hr => ?_
  · rw [Bool.eq_iff_iff, hx.has_iff, hy.has_iff]
  · rw [hx.entry_eq r hr, hy.entry_eq r hr]

/-- The coordinate at a blade is the value at its dense index. -/
theorem Represents.coordinate_eq (h : A.Represents x v) {b : Blade}
    (hb : b < 2 ^ A.table.dimension) : A.coordinate x b = v (A.table.index b) := by
  rw [coordinate_eq_entry hT h.wellFormed hb, h.entry_eq _ (hT.index_lt b hb)]

variable [Scalar.ExactSigns α] {dense : Coordinates α} (hd : dense.size = A.table.denseSize)
include hd

/-- A group is kept if one of its values is no zero. -/
theorem has_keptGrades_fullSet {g : Nat} :
    (A.keptGrades dense 0 A.table.fullSet).has g = true ↔
      ∃ r < 2 ^ A.table.dimension, A.table.gradeOf r = g ∧ (dense.getD r 0 == 0) = false := by
  have hzero : ∀ {a}, g ≤ A.table.dimension → a < A.table.groupSize g →
      ((A.denseGroup dense g).getD a 0 == 0) = (dense.getD (A.table.denseStart g + a) 0 == 0) :=
    fun hg ha => by rw [getD_denseGroup hT hd.ge hg ha]
  rw [has_keptGrades, Bool.and_eq_true, Bool.and_eq_true, decide_eq_true_eq, Bool.not_eq_true',
    Coordinates.isZero, Array.all_eq_false]
  constructor
  · rintro ⟨hg, -, a, ha, hne⟩
    rw [Coordinates.isNegligible_zero, Bool.not_eq_true] at hne
    have ha' := ha
    rw [size_denseGroup hT hd.ge hg] at ha'
    rw [Array.getElem_eq_getD 0, hzero hg ha'] at hne
    exact ⟨_, hT.denseStart_add_lt hg ha', hT.gradeOf_add hg ha', hne⟩
  · rintro ⟨r, hr, hgrade, hne⟩
    obtain ⟨g', hg, a, ha, rfl, hplace⟩ := hT.exists_place hr
    subst hgrade
    have ha' : a < (A.denseGroup dense (A.table.gradeOf r)).size := by
      rwa [size_denseGroup hT hd.ge hg]
    refine ⟨hg, GradeTable.has_fullSet.mpr hg, a, ha', ?_⟩
    rw [Coordinates.isNegligible_zero, Bool.not_eq_true, Array.getElem_eq_getD 0, hzero hg ha,
      ← hplace, hne]

/-- Without negative zeros, a compressed buffer keeps its values. -/
theorem represents_compress
    (hplain : ∀ r < 2 ^ A.table.dimension, (dense.getD r 0 == 0) = true → dense.getD r 0 = 0) :
    A.Represents (A.compress dense 0 A.table.fullSet) fun r => dense.getD r 0 where
  wellFormed := wellFormed_compress hT hd.ge 0 _
  entry_eq r hr := by
    obtain ⟨g, hg, a, ha, hgrade, hplace⟩ := hT.exists_place hr
    have hentry := entry_place hT (wellFormed_compress hT hd.ge 0 A.table.fullSet) hg ha
    rw [← hplace, group?_compress hT hd.ge] at hentry
    rw [hentry]
    cases hkept : (A.keptGrades dense 0 A.table.fullSet).has g with
    | true => rw [if_pos rfl, Option.getD_some, getD_denseGroup hT hd.ge hg ha, ← hplace]
    | false =>
      -- a group that is not kept has zeros only
      rw [if_neg (by simp)]
      refine (hplain r hr ?_).symm
      by_contra hne
      have hhas := (has_keptGrades_fullSet hT hd).mpr ⟨r, hr, hgrade, Bool.not_eq_true _ ▸ hne⟩
      exact absurd (hhas.symm.trans hkept) (by decide)
  has_iff g := by
    rw [compress_eq]
    exact has_keptGrades_fullSet hT hd

end GeometricAlgebra.Clifford
