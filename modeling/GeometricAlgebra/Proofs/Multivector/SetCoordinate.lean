/-
  GeometricAlgebra.Proofs.Multivector.SetCoordinate

  Writing one coordinate, for coordinates of every kind.  The place of a coordinate in the buffer
  depends on the groups stored below its own; a group that is reserved first moves all groups above
  it, and no coordinate changes with its place.

    * `Clifford.group?_reserve`, `coordinate_reserve`: reserving a grade, seen group by group and
      coordinate by coordinate.
    * `Clifford.group?_overwrite`: a place of one group, seen from another.
    * `Clifford.coordinate_setCoordinate`: the coordinates after writing one of them.
    * `Clifford.setCoordinate_of_ofConfig`: the laws of a setter for every accepted algebra.
-/

import GeometricAlgebra.Proofs.Multivector.DenseRoundtrip

namespace GeometricAlgebra

/-- A write inside a slice, seen from the slice. -/
theorem Coordinates.extract_setIfInBounds {α : Type} (cs : Coordinates α) {start n i : Nat}
    (hi : i < n) (v : α) : (cs.setIfInBounds (start + i) v).extract start (start + n) =
      (cs.extract start (start + n)).setIfInBounds i v := by
  apply Array.ext_getElem?
  intro j
  simp only [Array.getElem?_extract, Array.getElem?_setIfInBounds, Array.size_extract,
    Array.size_setIfInBounds]
  by_cases hij : i = j
  · subst hij
    by_cases hsize : start + i < cs.size
    · simp [hsize, show i < min (start + n) cs.size - start by omega]
    · simp [show ¬ i < min (start + n) cs.size - start by omega]
  · rw [if_neg (show ¬ start + i = start + j by omega), if_neg hij]

/-- A write outside a slice leaves the slice alone. -/
theorem Coordinates.extract_setIfInBounds_of_not_mem {α : Type} (cs : Coordinates α)
    {start stop i : Nat} (hi : i < start ∨ stop ≤ i) (v : α) :
    (cs.setIfInBounds i v).extract start stop = cs.extract start stop := by
  apply Array.ext_getElem?
  intro j
  simp only [Array.getElem?_extract, Array.getElem?_setIfInBounds, Array.size_setIfInBounds]
  by_cases hj : j < min stop cs.size - start
  · rw [if_pos hj, if_pos hj, if_neg (show ¬ i = start + j by omega)]
  · rw [if_neg hj, if_neg hj]

namespace Clifford

variable {α : Type} [Scalar α] {A : Clifford α} {x : Multivector α} {b b' : Nat}

/-! ## Reserving a grade -/

theorem grades_reserve (x : Multivector α) (g : Nat) :
    (A.reserve x g).grades = x.grades.insert g :=
  GradeSet.ext_has fun k => by rw [has_reserve, GradeSet.has_insert]

theorem reserve_reserve (x : Multivector α) (g : Nat) :
    A.reserve (A.reserve x g) g = A.reserve x g :=
  reserve_of_has (by simp [has_reserve])

section Reserve

variable (hx : x.WellFormed A) {g : Nat} (hg : g ≤ A.dimension)
include hx hg

/-- A reserved group holds what it held before, or zeros; the other groups stay. -/
theorem group?_reserve (k : Nat) : A.group? (A.reserve x g) k =
    if k = g then some ((A.group? x g).getD (Coordinates.zeros (A.table.groupSize g)))
    else A.group? x k := by
  cases hs : x.grades.has g with
  | true =>
    rw [reserve_of_has hs]
    by_cases hk : k = g
    · rw [if_pos hk, hk, group?_of_has hs, Option.getD_some]
    · rw [if_neg hk]
  | false =>
    have hle : ∀ k, (x.grades.insert g).has k = true → k ≤ A.table.dimension := by
      intro k hk
      rw [GradeSet.has_insert, Bool.or_eq_true, decide_eq_true_eq] at hk
      exact hk.elim hx.le fun hk => hk ▸ hg
    rw [reserve_eq hx hg hs, group?_assemble hle fun k _ _ => size_getD_zeros hx k,
      GradeSet.has_insert]
    by_cases hk : k = g
    · simp [hk]
    · cases hsk : x.grades.has k with
      | true => simp [hk, group?_of_has hsk]
      | false => simp [hk, group?_of_not_has hsk]

/-- A missing coordinate is zero, and so is a reserved one. -/
theorem coordinate_reserve (b : Blade) :
    A.coordinate (A.reserve x g) b = A.coordinate x b := by
  rw [coordinate, coordinate, group?_reserve hx hg]
  by_cases hb : b.grade = g
  · rw [if_pos hb, hb]
    cases A.group? x g with
    | some c => rfl
    | none => exact Coordinates.getD_zeros _ _
  · rw [if_neg hb]

end Reserve

/-! ## Writing a place of a group -/

omit [Scalar α] in
/-- A place of one group is written: the group changes there, and the other groups stay. -/
theorem group?_overwrite (hx : x.WellFormed A) {g : Nat} (hs : x.grades.has g = true) {i : Nat}
    (hi : i < A.table.groupSize g) (v : α) (k : Nat) :
    A.group? (x.overwrite (A.table.offset x.grades g + i) v) k =
      if k = g then (A.group? x g).map (·.setIfInBounds i v) else A.group? x k := by
  have hgrades : (x.overwrite (A.table.offset x.grades g + i) v).grades = x.grades := rfl
  by_cases hk : k = g
  · subst hk
    rw [if_pos rfl, group?_of_has (hgrades ▸ hs), group?_of_has hs, Option.map_some]
    exact congrArg some (Coordinates.extract_setIfInBounds x.coords hi v)
  · rw [if_neg hk]
    cases hsk : x.grades.has k with
    | false => rw [group?_of_not_has hsk, group?_of_not_has (hgrades ▸ hsk)]
    | true =>
      rw [group?_of_has hsk, group?_of_has (hgrades ▸ hsk), hgrades]
      refine congrArg some (Coordinates.extract_setIfInBounds_of_not_mem x.coords ?_ v)
      -- the written place lies in a group below or above
      rcases Nat.lt_or_gt_of_ne hk with hlt | hgt
      · have habove := GradeTable.offset_add_le_offset hsk hlt (Nat.le_succ_of_le (hx.le hs))
        exact .inr (habove.trans (Nat.le_add_right _ i))
      · have hbelow := GradeTable.offset_add_le_offset hs hgt (Nat.le_succ_of_le (hx.le hsk))
        exact .inl (by omega)

/-! ## Writing a coordinate -/

section Lawful

variable (hT : A.table.Lawful)
include hT

omit [Scalar α] in
/-- Blades of one grade have different places in their group. -/
theorem localIndex_inj (hb : b < 2 ^ A.table.dimension) (hb' : b' < 2 ^ A.table.dimension)
    (hgrade : Blade.grade b = Blade.grade b') (h : A.localIndex b = A.localIndex b') : b = b' := by
  have hle := hT.denseStart_le_index hb
  have hle' := hT.denseStart_le_index hb'
  rw [localIndex, localIndex, hgrade] at h
  rw [hgrade] at hle
  have hindex : A.table.index b = A.table.index b' := by omega
  rw [← hT.blade_index b hb, hindex, hT.blade_index b' hb']

variable (hx : x.WellFormed A)
include hx

/-- Writing a coordinate changes the reserved group of its blade, and no other group. -/
theorem group?_setCoordinate (hb : b < 2 ^ A.table.dimension) (v : α)
    (k : Nat) : A.group? (A.setCoordinate x b v) k =
      if k = Blade.grade b then (A.group? (A.reserve x (Blade.grade b)) (Blade.grade b)).map
        (·.setIfInBounds (A.localIndex b) v)
      else A.group? x k := by
  have hgrade := Blade.grade_le hb
  have hstored : (A.reserve x (Blade.grade b)).grades.has (Blade.grade b) = true := by
    simp [has_reserve]
  refine (group?_overwrite (wellFormed_reserve hx hgrade) hstored (localIndex_lt hT hb) v k).trans ?_
  by_cases hk : k = Blade.grade b
  · rw [if_pos hk, if_pos hk]
  · rw [if_neg hk, if_neg hk, group?_reserve hx hgrade, if_neg hk]

/-- The coordinates after writing one of them. -/
theorem coordinate_setCoordinate (hb : b < 2 ^ A.table.dimension) (hb' : b' < 2 ^ A.table.dimension)
    (v : α) : A.coordinate (A.setCoordinate x b v) b' =
      if b' = b then v else A.coordinate x b' := by
  have hgroup := group?_setCoordinate hT hx hb v (Blade.grade b')
  by_cases hsame : Blade.grade b' = Blade.grade b
  · have hgrade := Blade.grade_le hb
    obtain ⟨c, hc⟩ : ∃ c, A.group? (A.reserve x (Blade.grade b)) (Blade.grade b) = some c :=
      Option.isSome_iff_exists.mp (by simp [has_reserve])
    have hlocal := localIndex_lt_size hT (wellFormed_reserve hx hgrade) hb hc
    have hc' : A.group? (A.reserve x (Blade.grade b)) (Blade.grade b') = some c := by rw [hsame, hc]
    rw [if_pos hsame, hc, Option.map_some] at hgroup
    rw [coordinate_of_group? hgroup, ← coordinate_reserve hx hgrade b',
      coordinate_of_group? hc', Array.getD_eq_getD_getElem?, Array.getD_eq_getD_getElem?,
      Array.getElem?_setIfInBounds]
    by_cases hbb : b' = b
    · rw [if_pos hbb, hbb, if_pos rfl, if_pos hlocal, Option.getD_some]
    · -- the written place is that of `b'` only if the blades are equal
      have hplace : A.localIndex b ≠ A.localIndex b' := fun h =>
        hbb (localIndex_inj hT hb' hb hsame h.symm)
      rw [if_neg hbb, if_neg hplace]
  · have hbb : b' ≠ b := fun h => hsame (by rw [h])
    rw [if_neg hsame] at hgroup
    rw [if_neg hbb, coordinate, hgroup, coordinate]

/-- Writes to different blades can be exchanged. -/
theorem setCoordinate_comm (hb : b < 2 ^ A.table.dimension) (hb' : b' < 2 ^ A.table.dimension)
    (hne : b ≠ b') (v w : α) : A.setCoordinate (A.setCoordinate x b v) b' w =
      A.setCoordinate (A.setCoordinate x b' w) b v := by
  have hfirst := wellFormed_setCoordinate hx hb v
  have hfirst' := wellFormed_setCoordinate hx hb' w
  have hleft := wellFormed_setCoordinate hfirst hb' w
  have hright := wellFormed_setCoordinate hfirst' hb v
  refine ext_entry hT hleft hright ?_ fun r hr => ?_
  · refine GradeSet.ext_has fun k => ?_
    simp only [setCoordinate, has_reserve, Bool.or_right_comm]
  · have hblade := hT.blade_lt r hr
    rw [entry_eq_coordinate hT hleft hr, entry_eq_coordinate hT hright hr,
      coordinate_setCoordinate hT hfirst hb' hblade, coordinate_setCoordinate hT hx hb hblade,
      coordinate_setCoordinate hT hfirst' hb hblade, coordinate_setCoordinate hT hx hb' hblade]
    by_cases hr : A.table.blade r = b
    · rw [if_pos hr, if_pos hr, if_neg fun h => hne (hr.symm.trans h)]
    · rw [if_neg hr, if_neg hr]

end Lawful

/-- For every accepted algebra, whatever the coordinates: what is written at a blade is read back
    there, the other coordinates stay, the grade of the blade is stored with those that were, and the
    multivector stays well formed; reserving a grade stores it, changes no coordinate and does
    nothing the second time; and writes at two blades can be exchanged. -/
theorem setCoordinate_of_ofConfig {c : Config α} (h : ofConfig c = .ok A) (hx : x.WellFormed A) :
    (∀ b < 2 ^ A.dimension, ∀ v : α,
      A.coordinate (A.setCoordinate x b v) b = v ∧
      (∀ b' < 2 ^ A.dimension, b' ≠ b →
        A.coordinate (A.setCoordinate x b v) b' = A.coordinate x b') ∧
      (A.setCoordinate x b v).grades = x.grades.insert (Blade.grade b) ∧
      (A.setCoordinate x b v).WellFormed A) ∧
    (∀ g ≤ A.dimension,
      (∀ b < 2 ^ A.dimension, A.coordinate (A.reserve x g) b = A.coordinate x b) ∧
      (A.reserve x g).grades = x.grades.insert g ∧
      A.reserve (A.reserve x g) g = A.reserve x g) ∧
    ∀ b < 2 ^ A.dimension, ∀ b' < 2 ^ A.dimension, b ≠ b' → ∀ v w : α,
      A.setCoordinate (A.setCoordinate x b v) b' w =
        A.setCoordinate (A.setCoordinate x b' w) b v := by
  have hT := lawful_of_ofConfig h
  refine ⟨fun b hb v => ⟨?_, fun b' hb' hne => ?_, ?_, ?_⟩, fun g hg => ⟨fun b _ => ?_, ?_, ?_⟩, ?_⟩
  · rw [coordinate_setCoordinate hT hx hb hb, if_pos rfl]
  · rw [coordinate_setCoordinate hT hx hb hb', if_neg hne]
  · exact grades_reserve x (Blade.grade b)
  · exact wellFormed_setCoordinate hx hb v
  · exact coordinate_reserve hx hg b
  · exact grades_reserve x g
  · exact reserve_reserve x g
  · exact fun b hb b' hb' hne v w => setCoordinate_comm hT hx hb hb' hne v w

/-- A scalar and the pseudoscalar are stored; writing at the turned bivector and at a vector puts two
    groups between them, in either order. -/
theorem setCoordinate_space : ofConfig Config.e3ga = .ok space ∧
    let x : Multivector Float := ⟨9, #[2, 0 / 0]⟩
    x.WellFormed space ∧
      space.coordinate (space.setCoordinate x 5 (-0)) 5 = -0 ∧
      space.coordinate (space.setCoordinate x 5 (-0)) 7 = space.coordinate x 7 ∧
      (space.setCoordinate x 5 (-0)).grades = x.grades.insert (Blade.grade 5) ∧
      (space.setCoordinate x 5 (-0)).WellFormed space ∧
      space.coordinate (space.reserve x 1) 7 = space.coordinate x 7 ∧
      space.reserve (space.reserve x 1) 1 = space.reserve x 1 ∧
      space.setCoordinate (space.setCoordinate x 5 (-0)) 2 3 =
        space.setCoordinate (space.setCoordinate x 2 3) 5 (-0) ∧
      space.setCoordinate (space.setCoordinate x 5 (-0)) 2 3 =
        ⟨15, #[2, 0, 3, 0, 0, 0, -0, 0 / 0]⟩ := by
  have hcoords : space.ofCoords 9 #[2, 0 / 0] = .ok ⟨9, #[2, 0 / 0]⟩ := by decide +kernel
  have hx := wellFormed_ofCoords hcoords
  obtain ⟨hset, hreserve, hcomm⟩ := setCoordinate_of_ofConfig ofConfig_space hx
  obtain ⟨hsame, hother, hgrades, hwf⟩ := hset 5 (by decide +kernel) (-0)
  obtain ⟨hkept, -, hagain⟩ := hreserve 1 (by decide +kernel)
  exact ⟨ofConfig_space, hx, hsame, hother 7 (by decide +kernel) (by decide), hgrades, hwf,
    hkept 7 (by decide +kernel), hagain,
    hcomm 5 (by decide +kernel) 2 (by decide +kernel) (by decide) (-0) 3, by decide +kernel⟩

end Clifford

end GeometricAlgebra
