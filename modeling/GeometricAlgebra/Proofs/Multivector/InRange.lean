/-
  GeometricAlgebra.Proofs.Multivector.InRange

  Reading and writing a well-formed multivector never leaves a buffer or a table.

    * `Clifford.InRange`: the bounds that lookups, walks, writes and the printer rely on.
    * `Clifford.inRange_of_wellFormed`: they hold for every well-formed multivector of an
      accepted algebra.
-/

import GeometricAlgebra.Proofs.Multivector.Writing
import GeometricAlgebra.Proofs.Numbering

namespace GeometricAlgebra

namespace Clifford

/-- The bounds behind the slices and indices of a multivector. -/
structure InRange {α : Type} [Scalar α] (A : Clifford α) (x : Multivector α) : Prop where
  -- Every grade of the algebra has an entry in the tables of group sizes and starts.
  tables : ∀ g ≤ A.dimension, g < A.table.sizes.size ∧ g < A.table.starts.size
  -- A group has its place in every dense buffer,
  dense_le : ∀ g ≤ A.dimension,
    A.table.denseStart g + A.table.groupSize g ≤ A.table.denseSize
  -- and in every buffer made for a set of grades.
  target_le : ∀ s : GradeSet, (∀ g, s.has g = true → g ≤ A.dimension) → ∀ g, s.has g = true →
    A.table.offset s g + A.table.groupSize g ≤ A.table.size s
  -- The lookup of a stored group slices inside the buffer.
  slice_le : ∀ g, x.grades.has g = true →
    g ≤ A.dimension ∧ A.table.offset x.grades g + A.table.groupSize g ≤ x.coords.size
  -- The walk has one entry for each grade,
  length_expand : (A.expand x).length = A.dimension + 1
  -- which is the group that the lookup finds,
  expand_eq : ∀ g, (A.expand x)[g]?.join = A.group? x g
  -- and each of its slices is full; a slice past the end of the buffer would be shorter.
  size_expand : ∀ g c, some c ∈ (A.expand x)[g]? → c.size = A.table.groupSize g
  -- The place of a blade is found in the table, and it lies in the group of its grade.
  index_lt : ∀ b < 2 ^ A.dimension, b < A.table.indices.size ∧
    A.table.denseStart (Blade.grade b) ≤ A.table.index b ∧
      ∀ c, A.group? x (Blade.grade b) = some c → A.localIndex b < c.size
  -- A reserved group is inserted inside the buffer or at its end.
  insert_le : ∀ g ≤ A.dimension, A.table.offset x.grades g ≤ x.coords.size
  -- A coordinate is written inside the buffer that its grade was reserved in.
  write_lt : ∀ b < 2 ^ A.dimension,
    A.table.offset (A.reserve x (Blade.grade b)).grades (Blade.grade b) + A.localIndex b <
      (A.reserve x (Blade.grade b)).coords.size
  -- The group iterators meet the whole buffer in order.
  stored_coords : (A.stored x).map Prod.fst = x.coords.toList
  -- Each coordinate has a dense index with a blade, an orientation and named vectors.
  stored_lt : ∀ p ∈ A.stored x, p.2 < A.table.blades.size ∧ p.2 < A.table.signs.size ∧
    ∀ v ∈ Blade.vectors (A.table.blade p.2), v < A.config.vectors.length
  -- The largest coordinate is that of a blade of the algebra.
  largest_lt : (A.largestBlade x).2 < 2 ^ A.dimension

variable {α : Type} [Scalar α] {c : Config α} {A : Clifford α} {x : Multivector α}

theorem largestBlade_lt (hT : A.table.Lawful) (hx : x.WellFormed A) :
    (A.largestBlade x).2 < 2 ^ A.dimension := by
  refine List.foldlRecOn (motive := fun best : α × Blade => best.2 < 2 ^ A.dimension) _ _
    (Nat.two_pow_pos _) ?_
  -- only blades of stored coordinates replace the scalar blade that the search starts from
  intro best hbest p hp
  have hp' := (mem_stored_iff hT hx (v := p.1) (i := p.2)).mp hp
  by_cases hlt : best.1 < Scalar.abs p.1
  · simpa [hlt] using show A.table.blade p.2 < 2 ^ A.dimension from hT.blade_lt p.2 hp'.1
  · simpa [hlt] using hbest

/-- In an accepted algebra, a well-formed multivector is read and written within bounds. -/
theorem inRange_of_wellFormed (h : ofConfig c = .ok A) (hx : x.WellFormed A) : A.InRange x := by
  have hT := lawful_of_ofConfig h
  have hget : ∀ g ≤ A.dimension, (A.expand x)[g]? = some (A.group? x g) := by
    intro g hg
    have hlt : g < A.table.numGroups := Nat.lt_succ_of_le hg
    rw [expand_eq, List.getElem?_map, GradeTable.groups, List.getElem?_range hlt, Option.map_some]
  have hlength : (A.expand x).length = A.dimension + 1 := by
    rw [expand_eq, List.length_map, GradeTable.groups, List.length_range]
    rfl
  have hexpand : ∀ g, (A.expand x)[g]?.join = A.group? x g := by
    intro g
    by_cases hg : g ≤ A.dimension
    · rw [hget g hg, Option.join_some]
    · rw [List.getElem?_eq_none (by omega), Option.join_none,
        group?_of_not_has (Bool.eq_false_iff.mpr fun hs => hg (hx.le hs))]
  exact {
    tables := fun g hg => ⟨hT.size_sizes ▸ Nat.lt_succ_of_le hg, hT.size_starts ▸ Nat.lt_succ_of_le hg⟩
    dense_le := fun g hg => hT.denseSize_eq ▸ hT.denseStart_add_groupSize_le hg
    target_le := fun s hs g hg => GradeTable.offset_add_groupSize_le s (hs g hg) hg
    slice_le := fun g hg => ⟨hx.le hg, hx.offset_add_le hg⟩
    length_expand := hlength
    expand_eq := hexpand
    size_expand := fun g c hc => hx.size_group (g := g) (by rw [← hexpand, Option.mem_def.mp hc]; rfl)
    index_lt := fun b hb => ⟨hT.size_indices ▸ hb, (hT.denseStart_le_index hb).1,
      fun c => localIndex_lt_size hT hx hb⟩
    insert_le := fun g hg => hx.size_coords ▸ GradeTable.offset_le_size x.grades hg
    write_lt := fun b hb => setCoordinate_lt hT hx hb
    stored_coords := map_fst_stored hx
    stored_lt := fun p hp => by
      have hi := ((mem_stored_iff hT hx (v := p.1) (i := p.2)).mp hp).1
      refine ⟨hT.size_blades ▸ hi, hT.size_signs ▸ hi, fun v hv => ?_⟩
      rw [length_vectors_of_ofConfig h]
      exact Blade.lt_of_testBit (hT.blade_lt p.2 hi) (Blade.mem_vectors.mp hv)
    largest_lt := largestBlade_lt hT hx }

end Clifford

end GeometricAlgebra
