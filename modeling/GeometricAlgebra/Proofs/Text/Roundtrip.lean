/-
  GeometricAlgebra.Proofs.Text.Roundtrip

  Reading back what was printed.  A printed term folds the orientation of its stored blade into the
  sign before it, and the parser folds it out again; terms whose magnitude reads as zero are not
  written.  So a multivector of finite coordinates reads back as the multivector of its rounded
  coordinates.

    * `writtenMagnitude`, `readBack`: what a written coordinate reads as.
    * `Clifford.printedTerms_eq`: the written terms, by dense index.
    * `Clifford.sumOn_summands`: the value that the summands of a text have at a blade.
    * `Clifford.represents_parse_print`: a printed multivector reads back with rounded coordinates.
    * `Clifford.printedTerms_of_readBack`: and prints as before.
-/

import GeometricAlgebra.Proofs.Binary64.Signs
import GeometricAlgebra.Proofs.Blade.Exterior
import GeometricAlgebra.Proofs.Text.Printing
import GeometricAlgebra.Proofs.Text.Sums

namespace GeometricAlgebra

open Text Numeral.Readable
open Scalar.ExactSigns (neg_beq_zero zero_add_zero zero_beq_zero)

/-! ## Written magnitudes -/

section Magnitudes

variable {α : Type} [Numeral α]

/-- The value that the written magnitude of a scalar reads as. -/
def writtenMagnitude (number : NumberFormat) (c : α) : α :=
  (readNumber? (number.format (Scalar.abs c)).toList).getD 0

/-- What a written scalar reads as. -/
def readBack (number : NumberFormat) (c : α) : α :=
  if writtenMagnitude number c == 0 then 0
  else if c < 0 then -writtenMagnitude number c else writtenMagnitude number c

variable {number : NumberFormat} {c : α}

theorem readBack_of_zero (hm : (writtenMagnitude number c == 0) = true) :
    readBack number c = 0 := if_pos hm

theorem readBack_of_ne_zero (hm : (writtenMagnitude number c == 0) = false) :
    readBack number c =
      if c < 0 then -writtenMagnitude number c else writtenMagnitude number c :=
  if_neg (by simp [hm])

variable [Numeral.Readable α]

/-- The magnitude of a finite scalar is written as a number, and that of zero with zeros. -/
theorem exists_spelling_format (number : NumberFormat) (hc : Numeral.isFinite c = true) :
    ∃ s : NumberSpelling, number.format (Scalar.abs c) = String.ofList s.text ∧
      ((c == 0) = true → s.value.significand = 0) := by
  obtain ⟨negative, num, den, hexpand⟩ : ∃ negative num den,
      Numeral.expand c = .finite negative num den := by
    unfold Numeral.isFinite at hc
    cases hexpand : Numeral.expand c with
    | finite negative num den => exact ⟨_, _, _, rfl⟩
    | nan => simp [hexpand] at hc
    | infinite negative => simp [hexpand] at hc
  obtain ⟨s, htext, hzero⟩ := number.exists_spelling num den
  refine ⟨s, ?_, fun hc => hzero ?_⟩
  · rw [NumberFormat.format, expand_abs, hexpand, ← htext]
    rfl
  · obtain ⟨_, _, hexpand'⟩ := expand_zero hc
    exact (Expansion.finite.inj (hexpand.symm.trans hexpand')).2.1

theorem isFinite_of_beq_zero (hc : (c == 0) = true) : Numeral.isFinite c = true := by
  obtain ⟨_, _, hexpand⟩ := expand_zero hc
  rw [Numeral.isFinite, hexpand]

/-- The magnitude of a finite scalar reads as a number that is not negative. -/
theorem readNumber?_format (number : NumberFormat) (hc : Numeral.isFinite c = true) :
    readNumber? (number.format (Scalar.abs c)).toList = some (writtenMagnitude number c) ∧
      0 ≤ writtenMagnitude number c := by
  obtain ⟨s, hs, -⟩ := exists_spelling_format number hc
  have hread : readNumber? (number.format (Scalar.abs c)).toList =
      some (Numeral.nearest s.value : α) := by
    rw [hs, String.toList_ofList, readNumber?_text]
  rw [writtenMagnitude, hread]
  exact ⟨rfl, nearest_nonneg rfl⟩

theorem writtenMagnitude_of_beq_zero (hc : (c == 0) = true) : writtenMagnitude number c = 0 := by
  obtain ⟨s, hs, hzero⟩ := exists_spelling_format number (isFinite_of_beq_zero hc)
  rw [writtenMagnitude, hs, String.toList_ofList, readNumber?_text, Option.getD_some]
  exact nearest_zero rfl (hzero hc)

theorem readBack_beq_zero (number : NumberFormat) (c : α) :
    (readBack number c == 0) = (writtenMagnitude number c == 0) := by
  cases hm : writtenMagnitude number c == 0 with
  | true =>
    rw [readBack_of_zero hm]
    exact zero_beq_zero
  | false =>
    rw [readBack_of_ne_zero hm]
    split
    · rw [neg_beq_zero, hm]
    · exact hm

/-- What is written with a magnitude is no zero. -/
theorem beq_zero_of_writtenMagnitude (hm : (writtenMagnitude number c == 0) = false) :
    (c == 0) = false := by
  rw [← Bool.not_eq_true]
  intro hc
  rw [writtenMagnitude_of_beq_zero hc, zero_beq_zero] at hm
  exact absurd hm (by decide)

/-! ## Signs -/

/-- Against an orientation, a number that is no zero changes its sign with the orientation. -/
theorem nonneg_toScalar_mul_iff (hfinite : Numeral.isFinite c = true) (hc : (c == 0) = false)
    (s : Sign) : 0 ≤ s.toScalar * c ↔ (s = .plus ↔ ¬ c < 0) := by
  cases s with
  | plus =>
    rw [Sign.plus_toScalar_mul, nonneg_iff hfinite hc]
    simp
  | minus =>
    rw [Sign.minus_toScalar_mul, neg_nonneg_iff hc]
    simp

/-- The orientation enters the sign that is written and leaves it when it is read. -/
theorem toScalar_mul_written (hfinite : Numeral.isFinite c = true) (hc : (c == 0) = false)
    (s : Sign) (m : α) :
    (s * if (!decide (0 ≤ s.toScalar * c)) = true then .minus else .plus).toScalar * m =
      if c < 0 then -m else m := by
  have hdecide : decide (0 ≤ s.toScalar * c) = decide (s = .plus ↔ ¬ c < 0) :=
    decide_eq_decide.mpr (nonneg_toScalar_mul_iff hfinite hc s)
  rw [hdecide]
  by_cases hnegative : c < 0
  · cases s with
    | plus => simp [hnegative, Sign.minus_toScalar_mul]
    | minus => simp [hnegative, Sign.opposite, Sign.minus_toScalar_mul]
  · cases s with
    | plus => simp [hnegative, Sign.plus_toScalar_mul]
    | minus => simp [hnegative, Sign.plus_toScalar_mul]

/-- The same of a magnitude with a sign. -/
theorem nonneg_toScalar_mul_signed {m : α} (hm : 0 ≤ m) (hne : (m == 0) = false) (negative : Prop)
    [Decidable negative] (s : Sign) :
    0 ≤ s.toScalar * (if negative then -m else m) ↔ (s = .plus ↔ ¬ negative) := by
  have hopposite := not_neg_nonneg hm hne
  by_cases h : negative
  · cases s with
    | plus => simp [h, Sign.plus_toScalar_mul, hopposite]
    | minus => simp [h, Sign.minus_toScalar_mul, Scalar.ExactSigns.neg_neg, hm]
  · cases s with
    | plus => simp [h, Sign.plus_toScalar_mul, hm]
    | minus => simp [h, Sign.minus_toScalar_mul, hopposite]

end Magnitudes

/-- What is selected, seen through a map that the selection respects. -/
theorem sublist_map_filterMap {β γ δ : Type} {f : β → Option γ} {g : β → δ} {h : γ → δ}
    (hf : ∀ b c, f b = some c → h c = g b) (bs : List β) :
    ((bs.filterMap f).map h).Sublist (bs.map g) := by
  induction bs with
  | nil => exact List.Sublist.refl _
  | cons b bs ih =>
    rw [List.filterMap_cons, List.map_cons]
    cases hb : f b with
    | none => exact ih.cons _
    | some c =>
      rw [List.map_cons, hf b c hb]
      exact ih.cons_cons _

namespace Clifford

open PrintedTerm

/-! ## Written terms -/

section Terms

variable {α : Type} [Numeral α] {A : Clifford α} {x : Multivector α} {number : NumberFormat} {c : α}

/-- A term has the written magnitude and the blade of its coordinate. -/
theorem eq_of_printedTerm? {f : Format} {r : Nat} {t : PrintedTerm}
    (ht : A.printedTerm? f c r = some t) :
    t.magnitude = f.number.format (Scalar.abs ((A.table.sign r).toScalar * c)) ∧
      t.blade = A.table.blade r := by
  unfold printedTerm? at ht
  simp only at ht
  split at ht
  · split at ht
    · exact absurd ht (by simp)
    · obtain rfl := Option.some.inj ht
      exact ⟨rfl, rfl⟩
  · obtain rfl := Option.some.inj ht
    exact ⟨rfl, rfl⟩

theorem blade_of_printedTerm? {f : Format} {r : Nat} {t : PrintedTerm}
    (ht : A.printedTerm? f c r = some t) : t.blade = A.table.blade r :=
  (eq_of_printedTerm? ht).2

variable [Numeral.Readable α]

/-- The orientation of a stored blade does not change the magnitude. -/
theorem format_toScalar_mul (s : Sign) : (Format.usual number).number.format
    (Scalar.abs (s.toScalar * c)) = number.format (Scalar.abs c) := by
  rw [Sign.abs_toScalar_mul]
  rfl

theorem magnitude_of_printedTerm? {r : Nat} {t : PrintedTerm}
    (ht : A.printedTerm? (.usual number) c r = some t) :
    t.magnitude = number.format (Scalar.abs c) :=
  (eq_of_printedTerm? ht).1.trans (format_toScalar_mul _)

/-- A coordinate is written unless its magnitude reads as zero. -/
theorem printedTerm?_eq {m : α}
    (hm : readNumber? (number.format (Scalar.abs c)).toList = some m) (r : Nat) :
    A.printedTerm? (.usual number) c r = if m == 0 then none else
      some ⟨number.format (Scalar.abs c), !decide (0 ≤ (A.table.sign r).toScalar * c),
        A.table.blade r⟩ := by
  rw [printedTerm?]
  simp only [format_toScalar_mul, hm]

/-- What is no number is always written. -/
theorem printedTerm?_of_word
    (hword : (readNumber? (number.format (Scalar.abs c)).toList : Option α) = none) (r : Nat) :
    A.printedTerm? (.usual number) c r =
      some ⟨number.format (Scalar.abs c), !decide (0 ≤ (A.table.sign r).toScalar * c),
        A.table.blade r⟩ := by
  rw [printedTerm?]
  simp only [format_toScalar_mul, hword]

theorem printedTerm?_of_beq_zero (hc : (c == 0) = true) (r : Nat) :
    A.printedTerm? (.usual number) c r = none := by
  obtain ⟨hread, -⟩ := readNumber?_format number (isFinite_of_beq_zero hc)
  rw [printedTerm?_eq hread, writtenMagnitude_of_beq_zero hc, if_pos zero_beq_zero]

/-- The written terms, by dense index. -/
theorem printedTerms_eq (hT : A.table.Lawful) (hx : x.WellFormed A) :
    A.printedTerms (.usual number) x = (List.range (2 ^ A.table.dimension)).filterMap
      fun r => A.printedTerm? (.usual number) (A.entry x r) r :=
  filterMap_stored hT hx fun r => printedTerm?_of_beq_zero zero_beq_zero r

/-- Every term is written for a dense index. -/
theorem mem_printedTerms_iff (hT : A.table.Lawful) (hx : x.WellFormed A) {t : PrintedTerm} :
    t ∈ A.printedTerms (.usual number) x ↔ ∃ r < 2 ^ A.table.dimension,
      A.printedTerm? (.usual number) (A.entry x r) r = some t := by
  rw [printedTerms_eq hT hx, List.mem_filterMap]
  exact exists_congr fun r => and_congr_left' List.mem_range

theorem blade_lt_of_mem_printedTerms (hT : A.table.Lawful) (hx : x.WellFormed A) {t : PrintedTerm}
    (ht : t ∈ A.printedTerms (.usual number) x) : t.blade < 2 ^ A.dimension := by
  obtain ⟨r, hr, ht⟩ := (mem_printedTerms_iff hT hx).mp ht
  rw [blade_of_printedTerm? ht]
  exact hT.blade_lt r hr

/-- No two terms are on one blade. -/
theorem nodup_map_blade (hT : A.table.Lawful) (hx : x.WellFormed A) :
    ((A.printedTerms (.usual number) x).map PrintedTerm.blade).Nodup := by
  have hnodup : ((List.range (2 ^ A.table.dimension)).map A.table.blade).Nodup := by
    refine List.Nodup.map_on (fun r hr r' hr' hblade => ?_) List.nodup_range
    rw [← hT.index_blade r (List.mem_range.mp hr), hblade,
      hT.index_blade r' (List.mem_range.mp hr')]
  rw [printedTerms_eq hT hx]
  exact hnodup.sublist (sublist_map_filterMap (fun _ _ => blade_of_printedTerm?) _)

end Terms

/-! ## Summands of terms -/

section Summands

variable {α : Type} [Numeral α] {names : List String} {t : PrintedTerm} {m : α}
  (h : readNumber? t.magnitude.toList = some m)

include h in
theorem body_of_number (names : List String) : (t.body names : Body α).vectors = t.blade.vectors ∧
    (t.body names : Body α).number? = some m := by
  rw [body, h]
  cases t.blade.vectors with
  | nil => exact ⟨rfl, rfl⟩
  | cons v vs => exact ⟨rfl, rfl⟩

include h in
theorem blade_summand (first : Bool) : (t.summand names first : Summand α).blade = t.blade := by
  obtain ⟨hvectors, -⟩ := body_of_number h names
  have hblade : (t.summand names first : Summand α).blade =
      Blade.ofVectors (t.body names : Body α).vectors := rfl
  rw [hblade, hvectors, Blade.ofVectors_vectors]

theorem sign_summand (first : Bool) : (t.summand names first : Summand α).sign =
    if t.negative then .minus else .plus := by
  have hsign : (t.summand names first : Summand α).sign =
      .ofSwaps ((t.signs first).count .minus) := rfl
  rw [hsign, signs]
  cases t.negative <;> cases first <;> rfl

include h in
theorem summandValue_summand [Scalar.ExactSigns α] (A : Clifford α) (first : Bool) :
    A.summandValue (t.summand names first) =
      (A.table.signOf t.blade * if t.negative then .minus else .plus).toScalar * m := by
  obtain ⟨hvectors, hnumber⟩ := body_of_number h names
  have hnodup : (t.summand names first : Summand α).body.vectors.Nodup :=
    hvectors ▸ Blade.nodup_vectors t.blade
  have hinversions : Blade.inversions (t.summand names first : Summand α).body.vectors = 0 := by
    rw [show (t.summand names first : Summand α).body.vectors = t.blade.vectors from hvectors]
    exact Blade.inversions_eq_zero (Blade.pairwise_vectors t.blade)
  have hvalue : (t.summand names first : Summand α).body.number?.getD 1 = m := by
    rw [show (t.summand names first : Summand α).body.number? = some m from hnumber]
    rfl
  rw [summandValue_of_nodup hnodup, blade_summand h, sign_summand, hinversions, hvalue,
    Sign.mul_comm (ite ..)]
  rfl

end Summands

section Lists

variable {α : Type} [Numeral α] {names : List String} {ts : List PrintedTerm}
  (hts : ∀ t ∈ ts, ∃ m : α, readNumber? t.magnitude.toList = some m)
include hts

/-- Read back, terms are on different blades if they were. -/
theorem nodup_summands (hnodup : (ts.map PrintedTerm.blade).Nodup) :
    ((summands names ts : List (Summand α)).map Summand.blade).Nodup := by
  cases ts with
  | nil => exact List.nodup_singleton _
  | cons t ts =>
    obtain ⟨⟨m, hm⟩, hts⟩ := List.forall_mem_cons.mp hts
    have hrest : ts.map (fun u => (u.summand names false : Summand α).blade) =
        ts.map PrintedTerm.blade := by
      refine List.map_congr_left fun u hu => ?_
      obtain ⟨m, hm⟩ := hts u hu
      exact blade_summand hm false
    rw [summands, List.map_cons, List.map_map, blade_summand hm]
    exact hrest ▸ hnodup

variable [Scalar.ExactSigns α] {b : Blade}

/-- Read back, a term has its magnitude and its sign, against the stored orientation. -/
theorem sumOn_summands_of_mem (A : Clifford α) (names : List String)
    (hnodup : (ts.map PrintedTerm.blade).Nodup) {t : PrintedTerm} (ht : t ∈ ts) {m : α}
    (hm : readNumber? t.magnitude.toList = some m) :
    A.sumOn (summands names ts) t.blade =
      0 + (A.table.signOf t.blade * if t.negative then .minus else .plus).toScalar * m := by
  obtain ⟨first, hmem⟩ :
      ∃ first, t.summand names first ∈ (summands names ts : List (Summand α)) := by
    cases ts with
    | nil => exact absurd ht List.not_mem_nil
    | cons u us =>
      rcases List.mem_cons.mp ht with rfl | ht
      · exact ⟨true, List.mem_cons_self⟩
      · exact ⟨false, List.mem_cons_of_mem _ (List.mem_map.mpr ⟨t, ht, rfl⟩)⟩
  have hsum := A.sumOn_of_mem (nodup_summands hts hnodup) hmem
  rwa [blade_summand hm, summandValue_summand hm] at hsum

theorem sumOn_summands_of_forall_ne {A : Clifford α} (hb : ∀ t ∈ ts, t.blade ≠ b) :
    A.sumOn (summands names ts) b = 0 := by
  cases ts with
  | nil =>
    -- the zero that is written when there is no term
    let w : Summand α := ⟨[], .number 0⟩
    have hvalue : (A.summandValue w == 0) = true := by
      rw [summandValue_of_nodup (w := w) List.nodup_nil, Sign.toScalar_mul_beq_zero]
      exact zero_beq_zero
    rw [summands, sumOn_singleton, zero_add_zero hvalue, ite_self]
  | cons t ts =>
    refine sumOn_of_forall_ne fun w hw => ?_
    obtain ⟨first, u, hu, rfl⟩ : ∃ first, ∃ u ∈ t :: ts, w = u.summand names first := by
      rcases List.mem_cons.mp hw with rfl | hw
      · exact ⟨true, t, List.mem_cons_self, rfl⟩
      · obtain ⟨u, hu, rfl⟩ := List.mem_map.mp hw
        exact ⟨false, u, List.mem_cons_of_mem _ hu, rfl⟩
    obtain ⟨m, hm⟩ := hts u hu
    rw [blade_summand hm]
    exact hb u hu

end Lists

/-! ## Reading back -/

section Print

variable {α : Type} [Numeral α] [Numeral.Readable α] {A : Clifford α} {x : Multivector α}
  {number : NumberFormat}

section Terms

variable (hT : A.table.Lawful) (hx : x.WellFormed A)
  (hfinite : ∀ r < 2 ^ A.table.dimension, Numeral.isFinite (A.entry x r) = true)
include hT hx hfinite

/-- The magnitudes of finite coordinates are numbers. -/
theorem exists_spelling_of_mem_printedTerms {t : PrintedTerm}
    (ht : t ∈ A.printedTerms (.usual number) x) :
    ∃ s : NumberSpelling, t.magnitude = String.ofList s.text := by
  obtain ⟨r, hr, ht⟩ := (mem_printedTerms_iff hT hx).mp ht
  obtain ⟨s, hs, -⟩ := exists_spelling_format number (hfinite r hr)
  exact ⟨s, (magnitude_of_printedTerm? ht).trans hs⟩

theorem exists_number_of_mem_printedTerms {t : PrintedTerm}
    (ht : t ∈ A.printedTerms (.usual number) x) :
    ∃ m : α, readNumber? t.magnitude.toList = some m := by
  obtain ⟨s, hs⟩ := exists_spelling_of_mem_printedTerms hT hx hfinite ht
  exact ⟨_, by rw [hs, String.toList_ofList, readNumber?_text]⟩

/-- The summands of a printed multivector have the rounded coordinates. -/
theorem sumOn_summands (names : List String) {r : Nat} (hr : r < 2 ^ A.table.dimension) :
    A.sumOn (summands names (A.printedTerms (.usual number) x)) (A.table.blade r) =
      readBack number (A.entry x r) := by
  have hts : ∀ t ∈ A.printedTerms (.usual number) x,
      ∃ m : α, readNumber? t.magnitude.toList = some m :=
    fun t => exists_number_of_mem_printedTerms hT hx hfinite
  obtain ⟨hread, -⟩ := readNumber?_format number (hfinite r hr)
  have hterm := printedTerm?_eq (A := A) hread r
  cases hm : writtenMagnitude number (A.entry x r) == 0 with
  | true =>
    rw [hm, if_pos rfl] at hterm
    rw [readBack_of_zero hm]
    refine sumOn_summands_of_forall_ne hts fun t ht hblade => ?_
    obtain ⟨r', hr', ht⟩ := (mem_printedTerms_iff hT hx).mp ht
    rw [blade_of_printedTerm? ht] at hblade
    have hrr : r' = r := by rw [← hT.index_blade r' hr', hblade, hT.index_blade r hr]
    rw [hrr, hterm] at ht
    exact absurd ht (by simp)
  | false =>
    rw [hm, if_neg (by decide)] at hterm
    have hmem := (mem_printedTerms_iff hT hx).mpr ⟨r, hr, hterm⟩
    have hsum := A.sumOn_summands_of_mem hts names (nodup_map_blade hT hx) hmem hread
    have hsign : A.table.signOf (A.table.blade r) = A.table.sign r := by
      rw [GradeTable.signOf, hT.index_blade r hr]
    simp only [hsign, toScalar_mul_written (hfinite r hr) (beq_zero_of_writtenMagnitude hm)] at hsum
    rw [hsum, ← readBack_of_ne_zero hm]
    exact Scalar.ExactSigns.zero_add ((readBack_beq_zero ..).trans hm)

omit hfinite in
/-- A multivector of rounded coordinates is written as before, if their magnitudes are. -/
theorem printedTerms_of_readBack {y : Multivector α}
    (hy : A.Represents y fun r => readBack number (A.entry x r))
    (hfinite : ∀ r < 2 ^ A.table.dimension, Numeral.isFinite (A.entry x r) = true)
    (hformat : ∀ r < 2 ^ A.table.dimension,
      (writtenMagnitude number (A.entry x r) == 0) = false →
        number.format (writtenMagnitude number (A.entry x r)) =
          number.format (Scalar.abs (A.entry x r))) :
    A.printedTerms (.usual number) y = A.printedTerms (.usual number) x := by
  rw [printedTerms_eq hT hy.wellFormed, printedTerms_eq hT hx]
  refine List.filterMap_congr fun r hr => ?_
  have hr := List.mem_range.mp hr
  obtain ⟨hread, hnonneg⟩ := readNumber?_format number (hfinite r hr)
  rw [hy.entry_eq r hr, printedTerm?_eq hread]
  cases hm : writtenMagnitude number (A.entry x r) == 0 with
  | true =>
    rw [readBack_of_zero hm, if_pos rfl]
    exact printedTerm?_of_beq_zero zero_beq_zero r
  | false =>
    rw [readBack_of_ne_zero hm]
    have hvalue : Scalar.abs (if A.entry x r < 0 then -writtenMagnitude number (A.entry x r)
        else writtenMagnitude number (A.entry x r)) = writtenMagnitude number (A.entry x r) := by
      split
      · rw [Scalar.ExactSigns.abs_neg, abs_of_nonneg hnonneg hm]
      · exact abs_of_nonneg hnonneg hm
    have hsame := hformat r hr hm
    rw [printedTerm?_eq (by rw [hvalue, hsame]; exact hread), hm, hvalue, hsame]
    have hsign := (nonneg_toScalar_mul_signed hnonneg hm (A.entry x r < 0) (A.table.sign r)).trans
      (nonneg_toScalar_mul_iff (hfinite r hr) (beq_zero_of_writtenMagnitude hm) _).symm
    rw [if_neg (by decide), decide_eq_decide.mpr hsign, if_neg (by decide)]

end Terms

/-- A printed multivector reads back with rounded coordinates. -/
theorem represents_parse_print {c : Config α} (h : ofConfig c = .ok A) (hx : x.WellFormed A)
    (hfinite : ∀ r < 2 ^ A.table.dimension, Numeral.isFinite (A.entry x r) = true)
    (number : NumberFormat) :
    ∃ y, A.parse (A.print (.usual number) x) = .ok y ∧
      A.Represents y fun r => readBack number (A.entry x r) := by
  have hT := lawful_of_ofConfig h
  have hspelled : ∀ t ∈ A.printedTerms (.usual number) x,
      ∃ s : NumberSpelling, t.magnitude = String.ofList s.text :=
    fun t => exists_spelling_of_mem_printedTerms hT hx hfinite
  have hread : ∀ t ∈ A.printedTerms (.usual number) x,
      ∃ m : α, readNumber? t.magnitude.toList = some m :=
    fun t => exists_number_of_mem_printedTerms hT hx hfinite
  have htokens := tokens_print h (fun t ht => .inl (hspelled t ht))
    fun t => blade_lt_of_mem_printedTerms hT hx
  rw [← sumTokens_summands fun t ht => .inl (hspelled t ht)] at htokens
  obtain ⟨y, hy, hrepresents⟩ := represents_parse h isSum_summands
    (nodup_summands hread (nodup_map_blade hT hx)) htokens
  exact ⟨y, hy, hrepresents.congr fun r hr => sumOn_summands hT hx hfinite A.config.vectors hr⟩

end Print

/-- In the usual notation a multivector of finite coordinates reads back: each coordinate is the
    value of its written magnitude, with its sign, the groups with a value that is no zero are
    stored, and the text is the same again if the magnitudes are. -/
theorem parse_print {c : Config Float} {A : Clifford Float} (h : ofConfig c = .ok A)
    {x : Multivector Float} (hx : x.WellFormed A)
    (hfinite : ∀ b < 2 ^ A.dimension, Numeral.isFinite (A.coordinate x b) = true)
    (number : NumberFormat) :
    ∃ y, A.parse (A.print { Format.standard with number := number } x) = .ok y ∧
      y.WellFormed A ∧ ∃ m : Blade → Float,
        (∀ b < 2 ^ A.dimension,
          readNumber? (number.format (Scalar.abs (A.coordinate x b))).toList = some (m b) ∧
          A.coordinate y b = if m b == 0 then 0 else if A.coordinate x b < 0 then -m b else m b) ∧
        (∀ g, y.grades.has g = true ↔
          ∃ b < 2 ^ A.dimension, Blade.grade b = g ∧ (m b == 0) = false) ∧
        ((∀ b < 2 ^ A.dimension,
            number.format (m b) = number.format (Scalar.abs (A.coordinate x b))) →
          A.print { Format.standard with number := number } y =
            A.print { Format.standard with number := number } x) := by
  have hT := lawful_of_ofConfig h
  have hentry : ∀ r < 2 ^ A.table.dimension, Numeral.isFinite (A.entry x r) = true := by
    intro r hr
    rw [entry_eq_coordinate hT hx hr]
    exact hfinite _ (hT.blade_lt r hr)
  obtain ⟨y, hy, hrepresents⟩ := represents_parse_print h hx hentry number
  refine ⟨y, hy, hrepresents.wellFormed, fun b => writtenMagnitude number (A.coordinate x b),
    fun b hb => ⟨(readNumber?_format number (hfinite b hb)).1, ?_⟩, fun g => ?_, fun hformat => ?_⟩
  · rw [hrepresents.coordinate_eq hT hb, ← coordinate_eq_entry hT hx hb, readBack]
  · rw [hrepresents.has_iff]
    constructor
    · rintro ⟨r, hr, rfl, hne⟩
      rw [readBack_beq_zero, entry_eq_coordinate hT hx hr] at hne
      exact ⟨A.table.blade r, hT.blade_lt r hr, rfl, hne⟩
    · rintro ⟨b, hb, rfl, hne⟩
      refine ⟨A.table.index b, hT.index_lt b hb, ?_, ?_⟩
      · rw [GradeTable.gradeOf, hT.blade_index b hb]
      · rwa [readBack_beq_zero, ← coordinate_eq_entry hT hx hb]
  · have hterms := printedTerms_of_readBack hT hx hrepresents hentry fun r hr _ => by
      rw [entry_eq_coordinate hT hx hr]
      exact hformat _ (hT.blade_lt r hr)
    exact congrArg (fun ts => _ ++ A.termsText (.usual number) ts ++ _) hterms

/-- A vector over space, with a coordinate that the format rounds. -/
theorem parse_print_e3ga : ∃ A : Clifford Float, ofConfig Config.e3ga = .ok A ∧
    ∃ y, A.parse (A.print { Format.standard with number := .fixed 1 } (A.vector #[1.25, -3])) =
      .ok y := by
  have horder : (Config.e3ga : Config Float).basisOrder =
      .ok [[], [0], [1], [2], [0, 1], [1, 2], [2, 0], [0, 1, 2]] := by decide +kernel
  have hA := ofConfig_eq_ok_iff.mpr ⟨_, horder, rfl⟩
  have hT := lawful_of_ofConfig hA
  have hx := wellFormed_vector hT (by decide) #[1.25, -3]
  obtain ⟨y, hy, -⟩ := parse_print hA hx (by decide +kernel) (.fixed 1)
  exact ⟨_, hA, y, hy⟩

end Clifford

end GeometricAlgebra
