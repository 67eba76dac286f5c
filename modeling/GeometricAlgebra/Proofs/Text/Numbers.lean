/-
  GeometricAlgebra.Proofs.Text.Numbers

  Written numbers lex.  An unsigned number has digits, perhaps a point with digits behind it, and
  perhaps a power of ten; all formats write numbers of this form, and the lexer reads the whole of
  one wherever it ends at a boundary.

    * `NumberSpelling`: an unsigned number in parts, its text and its value.
    * `scanNumber_append`: the scanner reads the text, and its value.
    * `exists_spelling`: the formats write such numbers.
    * `scanned_number`: they are one token.
-/

import GeometricAlgebra.Proofs.Text.Spelling

namespace GeometricAlgebra.Text

open Decimal (digitsValue)

/-! ## Numbers in parts -/

/-- An unsigned number in parts. -/
structure NumberSpelling where
  whole : List Char
  -- The digits behind the point, if there is one.
  fraction : Option (List Char)
  -- Whether the power of ten is negative, and its digits.
  power : Option (Bool × List Char)
  whole_ne_nil : whole ≠ []
  isDigit_whole : ∀ c ∈ whole, c.isDigit = true
  isDigit_fraction : ∀ ds ∈ fraction, ∀ c ∈ ds, c.isDigit = true
  power_ne_nil : ∀ p ∈ power, p.2 ≠ []
  isDigit_power : ∀ p ∈ power, ∀ c ∈ p.2, c.isDigit = true

namespace NumberSpelling

/-- A point and the digits behind it. -/
def fractionText : Option (List Char) → List Char
  | none => []
  | some ds => '.' :: ds

/-- A power of ten behind its mark. -/
def powerText : Option (Bool × List Char) → List Char
  | none => []
  | some (negative, ds) => 'e' :: ((if negative then ['-'] else []) ++ ds)

/-- The exponent of a power of ten. -/
def exponent : Option (Bool × List Char) → Int
  | none => 0
  | some (negative, ds) =>
    let e : Int := digitsValue ds
    if negative then -e else e

variable (s : NumberSpelling)

def text : List Char := s.whole ++ (fractionText s.fraction ++ powerText s.power)

def value : Decimal := .ofDigits false s.whole (s.fraction.getD []) (exponent s.power)

/-- Digits alone. -/
def ofDigits (ds : List Char) (hne : ds ≠ []) (h : ∀ c ∈ ds, c.isDigit = true) :
    NumberSpelling where
  whole := ds
  fraction := none
  power := none
  whole_ne_nil := hne
  isDigit_whole := h
  isDigit_fraction := by simp
  power_ne_nil := by simp
  isDigit_power := by simp

end NumberSpelling

/-! ## Reading -/

open NumberSpelling

theorem isDigit_eq_false_of_rest {c : Char} (h : isIdentifierRest c = false) :
    c.isDigit = false := by
  cases hc : c.isDigit with
  | false => rfl
  | true => exact absurd (h.symm.trans (isIdentifierRest_of_isDigit hc)) (by decide)

theorem exponentSign_of_digits {ds : List Char} (h : ∀ c ∈ ds, c.isDigit = true) (hds : ds ≠ [])
    (rest : List Char) : exponentSign (ds ++ rest) = (0, false) := by
  obtain ⟨c, cs, rfl⟩ := List.exists_cons_of_ne_nil hds
  have hc : c.isDigit = true := h c List.mem_cons_self
  unfold exponentSign
  split
  · rename_i heq
    obtain ⟨rfl, -⟩ := List.cons.inj heq
    exact absurd hc (by decide)
  · rename_i heq
    obtain ⟨rfl, -⟩ := List.cons.inj heq
    exact absurd hc (by decide)
  · rfl

/-- The digits that bytes start with. -/
theorem takeWhile_isDigit {ds rest : List Char} (h : ∀ c ∈ ds, c.isDigit = true)
    (hrest : ∀ c ∈ rest.head?, c.isDigit = false) : (ds ++ rest).takeWhile Char.isDigit = ds :=
  takeWhile_append_of_head h hrest

/-- Behind an exponent mark the scanner reads a sign and digits. -/
theorem scanExponent_mark {sign ds : List Char} {negative : Bool} {rest : List Char}
    (hsign : exponentSign (sign ++ (ds ++ rest)) = (sign.length, negative))
    (hds : ds ≠ []) (hdigits : ∀ c ∈ ds, c.isDigit = true)
    (hrest : ∀ c ∈ rest.head?, c.isDigit = false) :
    scanExponent ('e' :: (sign ++ (ds ++ rest))) =
      (1 + sign.length + ds.length,
        some (if negative then -(digitsValue ds : Int) else digitsValue ds)) := by
  rw [scanExponent, if_pos (by decide), hsign]
  simp only [List.drop_left, takeWhile_isDigit hdigits hrest, List.isEmpty_eq_false_iff.mpr hds,
    Bool.false_eq_true, if_false]

/-- The scanner reads a power of ten, or sees that there is none. -/
theorem scanExponent_append {p : Option (Bool × List Char)} (hne : ∀ q ∈ p, q.2 ≠ [])
    (hdigits : ∀ q ∈ p, ∀ c ∈ q.2, c.isDigit = true) {rest : List Char} (hrest : Boundary rest) :
    scanExponent (powerText p ++ rest) = ((powerText p).length, some (exponent p)) := by
  cases p with
  | none =>
    cases rest with
    | nil => rfl
    | cons c cs =>
      have hc := (hrest c rfl).1
      have hmark : (c == 'e' || c == 'E') = false := by
        rw [Bool.or_eq_false_iff, beq_eq_false_iff_ne, beq_eq_false_iff_ne]
        constructor
        · rintro rfl
          exact absurd hc (by decide)
        · rintro rfl
          exact absurd hc (by decide)
      rw [powerText, List.nil_append, scanExponent, hmark]
      rfl
  | some q =>
    obtain ⟨negative, ds⟩ := q
    have hds : ds ≠ [] := hne _ rfl
    have hall : ∀ c ∈ ds, c.isDigit = true := hdigits _ rfl
    have hsign : exponentSign ((if negative then ['-'] else []) ++ (ds ++ rest)) =
        ((if negative then ['-'] else []).length, negative) := by
      cases negative with
      | false => exact exponentSign_of_digits hall hds rest
      | true => rfl
    have hscan := scanExponent_mark hsign hds hall fun c hc =>
      isDigit_eq_false_of_rest (hrest c hc).1
    rw [powerText, List.cons_append, List.append_assoc, hscan, List.length_cons,
      List.length_append, Nat.add_comm _ 1, Nat.add_assoc]
    rfl

/-- What follows the whole part, or the fraction, starts with no digit. -/
theorem isDigit_head_powerText {p : Option (Bool × List Char)} {rest : List Char}
    (hrest : Boundary rest) : ∀ c ∈ (powerText p ++ rest).head?, c.isDigit = false ∧ c ≠ '.' := by
  cases p with
  | none => exact fun c hc => ⟨isDigit_eq_false_of_rest (hrest c hc).1, (hrest c hc).2⟩
  | some q =>
    rintro _ ⟨⟩
    exact ⟨rfl, by decide⟩

section Parts

variable {whole rest : List Char} {width : Nat} {e : Int} (hne : whole ≠ [])
  (hwhole : ∀ c ∈ whole, c.isDigit = true) (hscan : scanExponent rest = (width, some e))
include hne hwhole hscan

theorem scanNumber_whole (hrest : ∀ c ∈ rest.head?, c.isDigit = false ∧ c ≠ '.') :
    scanNumber (whole ++ rest) = (whole.length + width, some (.ofDigits false whole [] e)) := by
  have htake : (whole ++ rest).takeWhile Char.isDigit = whole :=
    takeWhile_isDigit hwhole fun c hc => (hrest c hc).1
  cases rest with
  | nil =>
    rw [List.append_nil] at htake ⊢
    simp [scanNumber, htake, hscan, hne]
  | cons c cs =>
    have hpoint : c ≠ '.' := (hrest c rfl).2
    simp [scanNumber, htake, hpoint, hscan, hne]

theorem scanNumber_point {ds : List Char} (hds : ∀ c ∈ ds, c.isDigit = true)
    (hrest : ∀ c ∈ rest.head?, c.isDigit = false) :
    scanNumber (whole ++ '.' :: (ds ++ rest)) =
      (whole.length + 1 + ds.length + width, some (.ofDigits false whole ds e)) := by
  have htake : (whole ++ '.' :: (ds ++ rest)).takeWhile Char.isDigit = whole := by
    refine takeWhile_isDigit hwhole ?_
    rintro _ ⟨⟩
    rfl
  have hdrop : (whole ++ '.' :: (ds ++ rest)).drop (whole.length + 1 + ds.length) = rest := by
    rw [← List.drop_drop, ← List.drop_drop, List.drop_left, List.drop_one, List.tail_cons,
      List.drop_left]
  simp [scanNumber, htake, takeWhile_isDigit hds hrest, hdrop, hscan, hne]

end Parts

/-- The scanner reads the whole text of a number. -/
theorem scanNumber_append (s : NumberSpelling) {rest : List Char} (hrest : Boundary rest) :
    scanNumber (s.text ++ rest) = (s.text.length, some s.value) := by
  obtain ⟨whole, fraction, power, hne, hwhole, hfraction, hpne, hpower⟩ := s
  have hscan := scanExponent_append hpne hpower hrest
  have hhead := isDigit_head_powerText (p := power) hrest
  simp only [NumberSpelling.text, NumberSpelling.value, List.append_assoc, List.length_append]
  cases fraction with
  | none =>
    rw [fractionText, List.nil_append, scanNumber_whole hne hwhole hscan hhead, List.length_nil,
      Nat.zero_add]
    rfl
  | some ds =>
    rw [fractionText, List.cons_append, scanNumber_point hne hwhole hscan (hfraction ds rfl)
      fun c hc => (hhead c hc).1, List.length_cons, Nat.add_assoc whole.length, Nat.add_comm 1,
      Nat.add_assoc]
    rfl

/-- Without anything behind it, the text reads as the scalar nearest to the value. -/
theorem readNumber?_text {α : Type} [Numeral α] (s : NumberSpelling) :
    (readNumber? s.text : Option α) = some (Numeral.nearest s.value) := by
  have hscan := scanNumber_append s boundary_nil
  rw [List.append_nil] at hscan
  rw [readNumber?, hscan]
  exact if_pos rfl

/-- A number is one token. -/
theorem scanned_number {α : Type} [Numeral α] (names : List String) (s : NumberSpelling)
    {rest : List Char} (hrest : Boundary rest) :
    (scanned names (s.text ++ rest) : List (Token α)) =
      .number (Numeral.nearest s.value) :: scanned names rest := by
  have hscan := scanNumber_append s hrest
  obtain ⟨c, cs, htext, hc⟩ : ∃ c cs, s.text = c :: cs ∧ c.isDigit = true := by
    obtain ⟨c, cs, hwhole⟩ := List.exists_cons_of_ne_nil s.whole_ne_nil
    exact ⟨c, _, congrArg (· ++ _) hwhole, s.isDigit_whole c (hwhole ▸ List.mem_cons_self)⟩
  have hmark : ∀ d : Char, d.isDigit = false → (c == d) = false := by
    intro d hd
    rw [beq_eq_false_iff_ne]
    rintro rfl
    exact absurd (hc.symm.trans hd) (by decide)
  have htoken : (Token.scan names c (cs ++ rest) : Token α × Nat) =
      (.number (Numeral.nearest s.value), cs.length) := by
    rw [htext, List.cons_append] at hscan
    simp only [Token.scan, hmark '^' rfl, hmark '*' rfl, hmark '+' rfl, hmark '-' rfl, hc,
      Bool.true_or, Bool.false_eq_true, if_false, if_true, hscan, List.length_cons,
      Nat.add_sub_cancel]
  rw [htext, List.cons_append,
    scanned_cons names (isSeparator_eq_false (isIdentifierRest_of_isDigit hc)), htoken,
    List.drop_left]

/-! ## Writing -/

namespace NumberFormat

open Decimal

theorem isDigit_of_mem_paddedDigits {width n : Nat} {c : Char} (h : c ∈ paddedDigits width n) :
    c.isDigit = true := by
  rcases List.mem_append.mp h with h | h
  · rw [(List.mem_replicate.mp h).2]
    rfl
  · exact isDigit_of_mem_digits h

theorem le_length_paddedDigits (width n : Nat) : width ≤ (paddedDigits width n).length := by
  rw [paddedDigits, List.length_append, List.length_replicate]
  omega

/-- Zero is written with zeros only. -/
theorem digitsValue_paddedDigits_zero (width : Nat) : digitsValue (paddedDigits width 0) = 0 := by
  have hdigits : digits 0 = ['0'] := Nat.toDigits_zero 10
  rw [paddedDigits, hdigits]
  generalize width - ['0'].length = k
  rw [digitsValue, List.foldl_append]
  induction k with
  | zero => rfl
  | succ k ih => exact ih

/-- Digits with a point before the last of them are a whole part and a fraction. -/
theorem exists_pointed {ds : List Char} {places : Nat} (h : places < ds.length) :
    ∃ whole fraction, whole ≠ [] ∧ whole ++ fraction.getD [] = ds ∧
      pointed ds places = whole ++ fractionText fraction := by
  by_cases hplaces : places = 0
  · refine ⟨ds, none, List.ne_nil_of_length_pos (Nat.zero_lt_of_lt h), List.append_nil ds, ?_⟩
    rw [pointed, if_pos hplaces, fractionText, List.append_nil]
  · refine ⟨ds.take (ds.length - places), some (ds.drop (ds.length - places)), ?_,
      List.take_append_drop .., ?_⟩
    · apply List.ne_nil_of_length_pos
      rw [List.length_take]
      omega
    · rw [pointed, if_neg hplaces, fractionText]

theorem exponentText_eq (e : Int) :
    exponentText e = powerText (some (decide (e < 0), digits e.natAbs)) := by
  rw [exponentText, powerText]
  simp

/-- Pointed digits before a power of ten are an unsigned number, with the digits' value. -/
theorem exists_spelling_pointed (places q : Nat) (power : Option (Bool × List Char))
    (hne : ∀ p ∈ power, p.2 ≠ []) (hpower : ∀ p ∈ power, ∀ c ∈ p.2, c.isDigit = true) :
    ∃ s : NumberSpelling, pointed (paddedDigits (places + 1) q) places ++ powerText power = s.text ∧
      s.value.significand = digitsValue (paddedDigits (places + 1) q) := by
  obtain ⟨whole, fraction, hwhole, hds, hpointed⟩ :=
    exists_pointed (Nat.lt_of_succ_le (le_length_paddedDigits (places + 1) q))
  have hdigits : ∀ c ∈ whole ++ fraction.getD [], c.isDigit = true := fun c hc =>
    isDigit_of_mem_paddedDigits (hds ▸ hc)
  refine ⟨⟨whole, fraction, power, hwhole, fun c hc => hdigits c (List.mem_append_left _ hc), ?_,
    hne, hpower⟩, ?_, congrArg digitsValue hds⟩
  · rintro ds rfl c hc
    exact hdigits c (List.mem_append_right _ hc)
  · exact (congrArg (· ++ powerText power) hpointed).trans (List.append_assoc ..)

/-- Every format writes an unsigned number, and zero with digits of zero. -/
theorem exists_spelling (f : NumberFormat) (num den : Nat) :
    ∃ s : NumberSpelling, f.ratioText num den = s.text ∧ (num = 0 → s.value.significand = 0) := by
  cases f with
  | fixed places =>
    obtain ⟨s, htext, hvalue⟩ := exists_spelling_pointed places
      (roundHalfEven (num * tenPow places) den) none (fun _ h => absurd h (by simp))
      (fun _ h => absurd h (by simp))
    refine ⟨s, ?_, ?_⟩
    · rw [← htext, powerText, List.append_nil]
      rfl
    · rintro rfl
      have hzero : roundHalfEven (0 * tenPow places) den = 0 := by
        rw [Nat.zero_mul, roundHalfEven]
        simp [eq_comm]
      rw [hvalue, hzero, digitsValue_paddedDigits_zero]
  | scientific places =>
    obtain ⟨q, e, hq, hzero⟩ : ∃ q e,
        (if num = 0 then (0, 0) else roundSignificand num den places) = (q, e) ∧
          (num = 0 → q = 0) := by
      by_cases h : num = 0
      · exact ⟨0, 0, if_pos h, fun _ => rfl⟩
      · exact ⟨_, _, if_neg h, fun hnum => absurd hnum h⟩
    obtain ⟨s, htext, hvalue⟩ := exists_spelling_pointed places q
      (some (decide (e < 0), digits e.natAbs))
      (by rintro _ ⟨⟩; exact Nat.toDigits_ne_nil)
      (by rintro _ ⟨⟩ c hc; exact isDigit_of_mem_digits hc)
    refine ⟨s, ?_, ?_⟩
    · rw [← htext, ← exponentText_eq, ratioText, scientificText, hq]
    · intro h
      rw [hvalue, hzero h, digitsValue_paddedDigits_zero]

end NumberFormat

end GeometricAlgebra.Text
