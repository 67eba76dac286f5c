/-
  GeometricAlgebra.Proofs.Text.NonFinite

  Printed multivectors with coordinates that are infinite or no number.  A format writes the words
  `NaN` and `inf` for them, and words are names of basis vectors.  A word before a blade is never
  read back, nor is one that names no vector; a word for the scalar is read back if an algebra calls
  a basis vector by it.

    * `format_of_not_finite`: the words.
    * `Clifford.run_word`: the reader does not get past a word that cannot be read back.
    * `Clifford.parse_print_error_iff`: when a printed multivector is not read back.
-/

import GeometricAlgebra.Proofs.Text.Faults
import GeometricAlgebra.Proofs.Text.Roundtrip

namespace GeometricAlgebra

open Text Numeral.Readable

/-! ## Words -/

section Words

variable {α : Type} [Numeral α] [Numeral.Readable α] {number : NumberFormat} {c : α}

/-- What is infinite or no number is written as a word. -/
theorem format_of_not_finite (number : NumberFormat) (hc : Numeral.isFinite c = false) :
    number.format (Scalar.abs c) = "NaN" ∨ number.format (Scalar.abs c) = "inf" := by
  rw [NumberFormat.format, expand_abs]
  unfold Numeral.isFinite at hc
  cases hexpand : Numeral.expand c with
  | nan => exact .inl rfl
  | infinite negative => exact .inr rfl
  | finite negative num den => simp [hexpand] at hc

theorem isIdentifier_format (number : NumberFormat) (hc : Numeral.isFinite c = false) :
    Config.isIdentifier (number.format (Scalar.abs c)) = true := by
  rcases format_of_not_finite number hc with hword | hword
  · rw [hword]
    decide
  · rw [hword]
    decide

end Words

namespace Clifford

open PrintedTerm

/-! ## The reader at a word -/

section Reader

variable {α : Type}

theorem run_append_eq_none {ts us : List (Token α)} (h : ∀ s, run s us = none) (s : State α) :
    run s (ts ++ us) = none := by
  rw [run_append]
  cases run s ts with
  | none => rfl
  | some r => rw [Option.bind_some, h, Option.map_none]

theorem run_badIdentifier (ts : List (Token α)) (s : State α) :
    run s (.badIdentifier :: ts) = none := by
  cases s <;> rfl

/-- A vector is no factor. -/
theorem run_vector_times (i : Nat) (ts : List (Token α)) (s : State α) :
    run s (.vector i :: .times :: ts) = none := by
  cases s <;> rfl

variable [Numeral α] {names : List String} {t : PrintedTerm}

/-- The reader does not get past a word before a blade, or one that names no vector. -/
theorem run_word (hword : Config.isIdentifier t.magnitude = true)
    (h : ¬ (t.blade = 0 ∧ t.magnitude ∈ names)) (ts : List (Token α)) (s : State α) :
    run s (t.magnitudeToken names :: (t.bladeTokens ++ ts)) = none := by
  have htoken : (t.magnitudeToken names : Token α) = .ofIdentifier names t.magnitude.toList := by
    rw [magnitudeToken, readNumber?_of_isIdentifier hword]
  rw [htoken, Token.ofIdentifier, String.ofList_toList]
  cases hfind : names.findIdx? (· == t.magnitude) with
  | none => exact run_badIdentifier _ s
  | some i =>
    have hmem : t.magnitude ∈ names := by
      obtain ⟨hi, hname, -⟩ := List.findIdx?_eq_some_iff_getElem.mp hfind
      rw [beq_iff_eq] at hname
      exact hname ▸ List.getElem_mem hi
    have hvectors : t.blade.vectors ≠ [] := by
      intro hnil
      refine h ⟨?_, hmem⟩
      rw [← Blade.grade_eq_zero, ← Blade.length_vectors, hnil, List.length_nil]
    obtain ⟨v, vs, hvs⟩ := List.exists_cons_of_ne_nil hvectors
    rw [bladeTokens, hvs]
    exact run_vector_times i _ s

/-- The tokens of a term among those of a list. -/
theorem exists_printedTokens_eq (names : List String) {ts : List PrintedTerm} (ht : t ∈ ts) :
    ∃ before after, (printedTokens names ts : List (Token α)) =
      before ++ t.magnitudeToken names :: (t.bladeTokens ++ after) := by
  obtain ⟨us, vs, rfl⟩ := List.append_of_mem ht
  cases us with
  | nil =>
    refine ⟨(t.signs true).map signToken, vs.flatMap (PrintedTerm.tokens names false), ?_⟩
    rw [List.nil_append, printedTokens, PrintedTerm.tokens, List.append_assoc, List.cons_append]
  | cons u us =>
    refine ⟨u.tokens names true ++ (us.flatMap (PrintedTerm.tokens names false) ++
      (t.signs false).map signToken), vs.flatMap (PrintedTerm.tokens names false), ?_⟩
    have htokens : (t.tokens names false : List (Token α)) =
        (t.signs false).map signToken ++ (t.magnitudeToken names :: t.bladeTokens) := rfl
    rw [List.cons_append, printedTokens, List.flatMap_append, List.flatMap_cons, htokens]
    simp only [List.append_assoc, List.cons_append]

end Reader

/-! ## Printed multivectors -/

section Print

variable {α : Type} [Numeral α] [Numeral.Readable α] {A : Clifford α} {x : Multivector α}

/-- Every term can be read back if every word stands for the scalar and names a vector. -/
theorem readable_printedTerms_iff (hT : A.table.Lawful) (hx : x.WellFormed A)
    (number : NumberFormat) (names : List String) :
    (∀ t ∈ A.printedTerms (.usual number) x, t.Readable names) ↔
      ∀ r < 2 ^ A.table.dimension, Numeral.isFinite (A.entry x r) = false →
        A.table.blade r = 0 ∧ number.format (Scalar.abs (A.entry x r)) ∈ names := by
  constructor
  · intro h r hr hc
    have hnone := readNumber?_of_isIdentifier (α := α) (isIdentifier_format number hc)
    have hmem := (mem_printedTerms_iff hT hx).mpr ⟨r, hr, printedTerm?_of_word hnone r⟩
    rcases h _ hmem with ⟨s, hs⟩ | ⟨-, hblade, hname⟩
    · -- a number would have been read
      rw [show number.format _ = String.ofList s.text from hs, String.toList_ofList,
        readNumber?_text] at hnone
      exact absurd hnone (by simp)
    · exact ⟨hblade, hname⟩
  · intro h t ht
    obtain ⟨r, hr, ht⟩ := (mem_printedTerms_iff hT hx).mp ht
    have hmagnitude := magnitude_of_printedTerm? ht
    cases hc : Numeral.isFinite (A.entry x r) with
    | true =>
      obtain ⟨s, hs, -⟩ := exists_spelling_format number hc
      exact .inl ⟨s, hmagnitude.trans hs⟩
    | false =>
      obtain ⟨hblade, hname⟩ := h r hr hc
      rw [← hmagnitude] at hname
      refine .inr ⟨?_, (blade_of_printedTerm? ht).trans hblade, hname⟩
      rw [hmagnitude]
      exact isIdentifier_format number hc

theorem spelled_of_mem_printedTerms (hT : A.table.Lawful) (hx : x.WellFormed A)
    {number : NumberFormat} {t : PrintedTerm} (ht : t ∈ A.printedTerms (.usual number) x) :
    t.Spelled := by
  obtain ⟨r, hr, ht⟩ := (mem_printedTerms_iff hT hx).mp ht
  have hmagnitude := magnitude_of_printedTerm? ht
  cases hc : Numeral.isFinite (A.entry x r) with
  | true =>
    obtain ⟨s, hs, -⟩ := exists_spelling_format number hc
    exact .inl ⟨s, hmagnitude.trans hs⟩
  | false => exact .inr (hmagnitude ▸ isIdentifier_format number hc)

/-- A printed multivector is read back if all its terms can be. -/
theorem parse_print_ok_iff {c : Config α} (h : ofConfig c = .ok A) (hx : x.WellFormed A)
    (number : NumberFormat) : (∃ y, A.parse (A.print (.usual number) x) = .ok y) ↔
      ∀ t ∈ A.printedTerms (.usual number) x, t.Readable A.config.vectors := by
  have hT := lawful_of_ofConfig h
  have hspelled : ∀ t ∈ A.printedTerms (.usual number) x, t.Spelled :=
    fun t => spelled_of_mem_printedTerms hT hx
  have htokens := tokens_print h hspelled fun t => blade_lt_of_mem_printedTerms hT hx
  constructor
  · rintro ⟨y, hy⟩ t ht
    obtain ⟨ws, hsum, hws, -⟩ := (parseNamed_eq_ok_iff h _ "string" y).mp hy
    rcases hspelled t ht with hnumber | hword
    · exact .inl hnumber
    · by_contra hunreadable
      have hnone : ¬ (t.blade = 0 ∧ t.magnitude ∈ A.config.vectors) :=
        fun hreadable => hunreadable (.inr ⟨hword, hreadable⟩)
      obtain ⟨before, after, hsplit⟩ := exists_printedTokens_eq (α := α) A.config.vectors ht
      have hrun := run_start hsum
      rw [← hws, htokens, hsplit, List.append_assoc, List.cons_append, List.append_assoc,
        run_append_eq_none (run_word hword hnone _)] at hrun
      exact absurd hrun (by simp)
  · intro hreadable
    rw [← sumTokens_summands hreadable] at htokens
    exact ⟨_, (parseNamed_eq_ok_iff h _ "string" _).mpr ⟨_, isSum_summands, htokens, rfl⟩⟩

end Print

/-- In the usual notation a coordinate that is infinite or no number is written as a word, and a
    multivector is not read back if it has one at a blade of vectors, or at the scalar blade with a
    word that names no basis vector; every other one is. -/
theorem parse_print_error_iff {c : Config Float} {A : Clifford Float} (h : ofConfig c = .ok A)
    {x : Multivector Float} (hx : x.WellFormed A) (number : NumberFormat) :
    ((∃ e, A.parse (A.print { Format.standard with number := number } x) = .error e) ↔
      ∃ b < 2 ^ A.dimension, Numeral.isFinite (A.coordinate x b) = false ∧
        (b = 0 → number.format (Scalar.abs (A.coordinate x b)) ∉ c.vectors)) ∧
    ∀ b < 2 ^ A.dimension, Numeral.isFinite (A.coordinate x b) = false →
      number.format (Scalar.abs (A.coordinate x b)) = "NaN" ∨
        number.format (Scalar.abs (A.coordinate x b)) = "inf" := by
  have hT := lawful_of_ofConfig h
  have hconfig : A.config = c := by
    obtain ⟨order, -, rfl⟩ := ofConfig_eq_ok_iff.mp h
    rfl
  refine ⟨?_, fun b _ hc => format_of_not_finite number hc⟩
  have hok := parse_print_ok_iff h hx number
  rw [readable_printedTerms_iff hT hx, hconfig] at hok
  have herror : (∃ e, A.parse (A.print { Format.standard with number := number } x) = .error e) ↔
      ¬ ∃ y, A.parse (A.print (.usual number) x) = .ok y := by
    change (∃ e, A.parse (A.print (.usual number) x) = .error e) ↔ _
    cases A.parse (A.print (.usual number) x) with
    | error e => simp
    | ok y => simp
  rw [herror, hok]
  push Not
  constructor
  · rintro ⟨r, hr, hc, hname⟩
    rw [entry_eq_coordinate hT hx hr] at hc hname
    exact ⟨A.table.blade r, hT.blade_lt r hr, hc, hname⟩
  · rintro ⟨b, hb, hc, hname⟩
    rw [coordinate_eq_entry hT hx hb] at hc hname
    refine ⟨A.table.index b, hT.index_lt b hb, hc, fun hblade => hname ?_⟩
    rwa [hT.blade_index b hb] at hblade

/-- A basis vector called `inf`: an infinite scalar is read back as that vector. -/
theorem parse_print_inf : ∃ A : Clifford Float,
    ofConfig { name := "m", vectors := ["inf"] } = .ok A ∧
    Numeral.isFinite (A.coordinate (.scalar (1 / 0)) 0) = false ∧
    ¬ ∃ e, A.parse (A.print { Format.standard with number := .fixed 2 } (.scalar (1 / 0))) =
      .error e := by
  let c : Config Float := { name := "m", vectors := ["inf"] }
  let A : Clifford Float := ⟨c, .ofOrder c.dimension [[], [0]], c.metricDiagonal.toArray⟩
  have horder : c.basisOrder = .ok [[], [0]] := by decide +kernel
  have hA : ofConfig c = .ok A := ofConfig_eq_ok_iff.mpr ⟨_, horder, rfl⟩
  have hx := Multivector.wellFormed_scalar (lawful_of_ofConfig hA) (1 / 0 : Float)
  have hwords : ∀ b < 2 ^ A.dimension,
      Numeral.isFinite (A.coordinate (.scalar (1 / 0)) b) = false →
        b = 0 ∧ NumberFormat.format (.fixed 2) (Scalar.abs (A.coordinate (.scalar (1 / 0)) b)) ∈
          c.vectors := by decide +kernel
  refine ⟨A, hA, by decide +kernel, fun h => ?_⟩
  obtain ⟨b, hb, hc, hname⟩ := (parse_print_error_iff hA hx (.fixed 2)).1.mp h
  obtain ⟨hzero, hmem⟩ := hwords b hb hc
  exact hname hzero hmem

end Clifford

end GeometricAlgebra
