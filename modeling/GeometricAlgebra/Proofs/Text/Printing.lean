/-
  GeometricAlgebra.Proofs.Text.Printing

  The tokens of a printed multivector.  In the usual notation, with any number format, each written
  term lexes as its sign, the token of its magnitude, and the vectors of its blade in ascending
  order.  A magnitude is a number, or the word that a format writes for what is no number.

    * `Format.usual`: the usual notation with a number format.
    * `PrintedTerm.tokens`: the tokens of a written term.
    * `Clifford.tokens_print`: the tokens of a printed multivector.
    * `PrintedTerm.Readable`, `PrintedTerm.summand`: the terms that are summands when read back.
-/

import GeometricAlgebra.Proofs.ExactSigns
import GeometricAlgebra.Proofs.Text.Names
import GeometricAlgebra.Proofs.Text.Numbers
import GeometricAlgebra.Text.Printer

namespace GeometricAlgebra

open Text

/-- The usual notation, with a number format. -/
def Text.Format.usual (number : NumberFormat) : Format := { Format.standard with number := number }

namespace Clifford.PrintedTerm

variable {α : Type} [Numeral α] (names : List String)

/-- The signs before a term. -/
def signs (first : Bool) (t : PrintedTerm) : List Sign :=
  if t.negative then [.minus] else if first then [] else [.plus]

/-- The token of a magnitude: a number, or a word. -/
def magnitudeToken (t : PrintedTerm) : Token α :=
  match (readNumber? t.magnitude.toList : Option α) with
  | some m => .number m
  | none => .ofIdentifier names t.magnitude.toList

/-- The tokens of a blade behind a magnitude. -/
def bladeTokens (t : PrintedTerm) : List (Token α) :=
  match t.blade.vectors with
  | [] => []
  | v :: vs => .times :: .vector v :: wedgeTokens vs

/-- The tokens of a term. -/
def tokens (first : Bool) (t : PrintedTerm) : List (Token α) :=
  (t.signs first).map signToken ++ t.magnitudeToken names :: t.bladeTokens

/-- The tokens of a list of terms; a zero if it is empty. -/
def printedTokens : List PrintedTerm → List (Token α)
  | [] => [.number 0]
  | t :: ts => t.tokens names true ++ ts.flatMap (tokens names false)

/-! ## Terms as summands -/

/-- A term that can be read back: its magnitude is a number, or a word that names a vector and has
    no blade behind it. -/
def Readable (t : PrintedTerm) : Prop :=
  (∃ s : NumberSpelling, t.magnitude = String.ofList s.text) ∨
    (Config.isIdentifier t.magnitude = true ∧ t.blade = 0 ∧ t.magnitude ∈ names)

/-- A term without its sign, as it is read back. -/
def body (t : PrintedTerm) : Body α :=
  match (readNumber? t.magnitude.toList : Option α), t.blade.vectors with
  | some m, [] => .number m
  | some m, v :: vs => .scaled m false v vs
  | none, _ => .blade ((names.findIdx? (· == t.magnitude)).getD 0) []

/-- A term as it is read back. -/
def summand (first : Bool) (t : PrintedTerm) : Summand α := ⟨t.signs first, t.body names⟩

/-- A list of terms as it is read back. -/
def summands : List PrintedTerm → List (Summand α)
  | [] => [⟨[], .number 0⟩]
  | t :: ts => t.summand names true :: ts.map (summand names false)

/-- A magnitude is a number or a word. -/
def Spelled (t : PrintedTerm) : Prop :=
  (∃ s : NumberSpelling, t.magnitude = String.ofList s.text) ∨
    Config.isIdentifier t.magnitude = true

end Clifford.PrintedTerm

/-! ## Numbers and words -/

namespace Text

/-- Numbers are written in ASCII. -/
theorem bytes_spelling (s : NumberSpelling) : bytes (String.ofList s.text) = s.text := by
  have hdigits : ∀ {ds : List Char}, (∀ c ∈ ds, c.isDigit = true) → ∀ c ∈ ds, c.toNat < 128 :=
    fun h c hc => (toNat_of_isIdentifierRest (isIdentifierRest_of_isDigit (h c hc))).2
  have hfraction : ∀ c ∈ NumberSpelling.fractionText s.fraction, c.toNat < 128 := by
    cases hfraction : s.fraction with
    | none => simp [NumberSpelling.fractionText]
    | some ds =>
      intro c hc
      rcases List.mem_cons.mp hc with rfl | hc
      · decide
      · exact hdigits (s.isDigit_fraction ds hfraction) c hc
  have hpower : ∀ c ∈ NumberSpelling.powerText s.power, c.toNat < 128 := by
    cases hpower : s.power with
    | none => simp [NumberSpelling.powerText]
    | some p =>
      obtain ⟨negative, ds⟩ := p
      intro c hc
      rcases List.mem_cons.mp hc with rfl | hc
      · decide
      · rcases List.mem_append.mp hc with hc | hc
        · cases negative with
          | false => exact absurd hc List.not_mem_nil
          | true => exact List.mem_singleton.mp hc ▸ by decide
        · exact hdigits (s.isDigit_power _ hpower) c hc
  rw [bytes_eq_toList, String.toList_ofList]
  intro c hc
  rw [String.toList_ofList, NumberSpelling.text, List.mem_append, List.mem_append] at hc
  rcases hc with hc | hc | hc
  · exact hdigits s.isDigit_whole c hc
  · exact hfraction c hc
  · exact hpower c hc

/-- No number starts like a word. -/
theorem readNumber?_of_isIdentifier {α : Type} [Numeral α] {name : String}
    (h : Config.isIdentifier name = true) : (readNumber? name.toList : Option α) = none := by
  unfold Config.isIdentifier at h
  cases hname : name.toList with
  | nil => exact absurd h (by simp [hname])
  | cons c cs =>
    simp only [hname, Bool.and_eq_true] at h
    have hc : isIdentifierStart c = true := h.1
    have hdigit := isDigit_eq_false hc
    have hpoint : c ≠ '.' := by
      rintro rfl
      exact absurd hc (by decide)
    simp [readNumber?, scanNumber, hdigit, hpoint]

end Text

/-! ## The texts of terms -/

namespace Clifford

open PrintedTerm

variable {α : Type} {number : NumberFormat} {A : Clifford α}

theorem bytes_separators : bytes " - " = [' ', '-', ' '] ∧ bytes " + " = [' ', '+', ' '] ∧
    bytes "" = [] ∧ bytes "*" = ['*'] := by decide

theorem separator_usual (first : Bool) (t : PrintedTerm) : separator (.usual number) first t =
    if t.negative then " - " else if first then "" else " + " := rfl

/-- A blade is written behind a `*`, if it has vectors. -/
theorem bladeText_usual (b : Blade) : A.bladeText (.usual number) b =
    match b.vectors with
    | [] => ""
    | v :: vs => "*" ++ "^".intercalate ((v :: vs).map A.vectorName) := by
  cases hb : b.vectors with
  | nil =>
    have hzero : b = 0 := by
      rw [← Blade.grade_eq_zero, ← Blade.length_vectors, hb, List.length_nil]
    exact if_pos hzero
  | cons v vs =>
    have hne : b ≠ 0 := by
      rintro rfl
      have hnone : Blade.vectors 0 = [] := by decide
      exact absurd (hnone.symm.trans hb) (by simp)
    rw [bladeText, if_neg hne, hb]
    rfl

/-- What follows a magnitude does not go on with it. -/
theorem boundary_bladeText (b : Blade) {rest : List Char} (hrest : Boundary rest) :
    Boundary (bytes (A.bladeText (.usual number) b) ++ rest) := by
  obtain ⟨-, -, -, htimes⟩ := bytes_separators
  rw [bladeText_usual]
  cases b.vectors with
  | nil => exact hrest
  | cons v vs =>
    rw [bytes_append, htimes]
    exact boundary_cons (by decide) (by decide) _

/-- Nor does what follows a term. -/
theorem boundary_termText (t : PrintedTerm) (rest : List Char) :
    Boundary (bytes (A.termText (.usual number) false t) ++ rest) := by
  obtain ⟨hminus, hplus, -, -⟩ := bytes_separators
  have hspace : ∀ cs, Boundary (' ' :: cs) := boundary_cons (by decide) (by decide)
  rw [termText, bytes_append, bytes_append, separator_usual]
  cases t.negative with
  | true =>
    rw [if_pos rfl, hminus]
    exact hspace _
  | false =>
    rw [if_neg (by decide), if_neg (by decide), hplus]
    exact hspace _

/-! ## The tokens of terms -/

variable [Numeral α]

theorem scanned_magnitude (names : List String) {t : PrintedTerm} (ht : t.Spelled)
    {rest : List Char} (hrest : Boundary rest) :
    (scanned names (bytes t.magnitude ++ rest) : List (Token α)) =
      t.magnitudeToken names :: scanned names rest := by
  rcases ht with ⟨s, hs⟩ | hword
  · rw [magnitudeToken, hs, bytes_spelling, String.toList_ofList, readNumber?_text,
      scanned_number names s hrest]
  · rw [magnitudeToken, readNumber?_of_isIdentifier hword, bytes_of_isIdentifier hword,
      scanned_name names hword hrest]

theorem scanned_separatorText (names : List String) (first : Bool) (t : PrintedTerm)
    (rest : List Char) :
    (scanned names (bytes (separator (.usual number) first t) ++ rest) : List (Token α)) =
      (t.signs first).map signToken ++ scanned names rest := by
  obtain ⟨hminus, hplus, hnone, -⟩ := bytes_separators
  have hspace : ∀ cs, (scanned names (' ' :: cs) : List (Token α)) = scanned names cs :=
    scanned_separator names (by decide)
  rw [separator_usual, signs]
  cases t.negative with
  | true =>
    rw [if_pos rfl, if_pos rfl, hminus, List.cons_append, List.cons_append, List.cons_append,
      List.nil_append, hspace, scanned_minus_mark, hspace]
    rfl
  | false =>
    simp only [Bool.false_eq_true, if_false]
    cases first with
    | true =>
      rw [if_pos rfl, if_pos rfl, hnone]
      rfl
    | false =>
      rw [if_neg (by decide), if_neg (by decide), hplus, List.cons_append, List.cons_append,
        List.cons_append, List.nil_append, hspace, scanned_plus_mark, hspace]
      rfl

/-- The text `0` is a zero. -/
theorem scanned_zero [Numeral.Readable α] (names : List String) :
    (scanned names (bytes "0") : List (Token α)) = [.number 0, .stop] := by
  let digit := NumberSpelling.ofDigits ['0'] (List.cons_ne_nil _ _)
    (List.forall_mem_singleton.mpr rfl)
  have hvalue : Numeral.nearest digit.value = (0 : α) := Numeral.Readable.nearest_zero rfl rfl
  have hnumber := scanned_number (α := α) names digit boundary_nil
  rwa [List.append_nil, hvalue, scanned_nil] at hnumber

section Terms

variable {c : Config α} (h : ofConfig c = .ok A)
include h

theorem scanned_bladeText {t : PrintedTerm} (ht : t.blade < 2 ^ A.dimension) {rest : List Char}
    (hrest : Boundary rest) :
    (scanned A.config.vectors (bytes (A.bladeText (.usual number) t.blade) ++ rest) :
        List (Token α)) = t.bladeTokens ++ scanned A.config.vectors rest := by
  obtain ⟨-, -, -, htimes⟩ := bytes_separators
  rw [bladeText_usual, bladeTokens]
  cases hvs : t.blade.vectors with
  | nil => rfl
  | cons v vs =>
    have hlt : ∀ u ∈ v :: vs, u < A.dimension := by
      intro u hu
      rw [← hvs, Blade.mem_vectors] at hu
      exact Blade.lt_of_testBit ht hu
    rw [bytes_append, htimes, List.append_assoc, List.singleton_append, scanned_times_mark,
      scanned_wedge h hlt hrest]
    rfl

/-- The tokens of a term. -/
theorem scanned_termText {t : PrintedTerm} (hspelled : t.Spelled) (ht : t.blade < 2 ^ A.dimension)
    (first : Bool) {rest : List Char} (hrest : Boundary rest) :
    (scanned A.config.vectors (bytes (A.termText (.usual number) first t) ++ rest) :
        List (Token α)) = t.tokens A.config.vectors first ++ scanned A.config.vectors rest := by
  rw [termText, bytes_append, bytes_append, List.append_assoc, List.append_assoc,
    scanned_separatorText, scanned_magnitude _ hspelled (boundary_bladeText _ hrest),
    scanned_bladeText h ht hrest, PrintedTerm.tokens, List.append_assoc, List.cons_append]

/-- The tokens of the terms behind the first. -/
theorem scanned_join {ts : List PrintedTerm} (hspelled : ∀ t ∈ ts, t.Spelled)
    (hblade : ∀ t ∈ ts, t.blade < 2 ^ A.dimension) :
    (scanned A.config.vectors (bytes (String.join (ts.map (A.termText (.usual number) false)))) :
        List (Token α)) = ts.flatMap (PrintedTerm.tokens A.config.vectors false) ++ [.stop] ∧
      Boundary (bytes (String.join (ts.map (A.termText (.usual number) false)))) := by
  induction ts with
  | nil => exact ⟨scanned_nil _, boundary_nil⟩
  | cons t ts ih =>
    obtain ⟨ht, hts⟩ := List.forall_mem_cons.mp hspelled
    obtain ⟨hb, hbs⟩ := List.forall_mem_cons.mp hblade
    obtain ⟨htokens, hboundary⟩ := ih hts hbs
    rw [List.map_cons, String.join_cons, bytes_append, scanned_termText h ht hb false hboundary,
      htokens, List.flatMap_cons, List.append_assoc]
    exact ⟨rfl, boundary_termText t _⟩

/-! ## The tokens of a text -/

/-- A printed multivector lexes term by term. -/
theorem tokens_print [Numeral.Readable α] {x : Multivector α}
    (hspelled : ∀ t ∈ A.printedTerms (.usual number) x, t.Spelled)
    (hblade : ∀ t ∈ A.printedTerms (.usual number) x, t.blade < 2 ^ A.dimension) :
    (Text.tokens A.config.vectors (A.print (.usual number) x) : List (Token α)) =
      printedTokens A.config.vectors (A.printedTerms (.usual number) x) := by
  have hprint : A.print (.usual number) x =
      A.termsText (.usual number) (A.printedTerms (.usual number) x) :=
    String.append_empty.trans String.empty_append
  rw [hprint]
  cases hterms : A.printedTerms (.usual number) x with
  | nil => exact tokens_eq A.config.vectors (scanned_zero A.config.vectors)
  | cons t ts =>
    rw [hterms] at hspelled hblade
    obtain ⟨ht, hts⟩ := List.forall_mem_cons.mp hspelled
    obtain ⟨hb, hbs⟩ := List.forall_mem_cons.mp hblade
    obtain ⟨hjoin, hboundary⟩ := scanned_join h hts hbs
    refine tokens_eq A.config.vectors ?_
    rw [termsText, bytes_append, scanned_termText h ht hb true hboundary, hjoin, printedTokens,
      List.append_assoc]

end Terms

/-! ## Terms read back -/

section Summands

variable {names : List String} {t : PrintedTerm} {ts : List PrintedTerm}

theorem tokens_summand (ht : t.Readable names) (first : Bool) :
    (t.summand names first : Summand α).tokens = t.tokens names first := by
  have hbody : (t.body names : Body α).tokens = t.magnitudeToken names :: t.bladeTokens := by
    rcases ht with ⟨s, hs⟩ | ⟨hword, hblade, hmem⟩
    · rw [body, magnitudeToken, bladeTokens, hs, String.toList_ofList, readNumber?_text]
      cases t.blade.vectors with
      | nil => rfl
      | cons v vs => rfl
    · obtain ⟨i, hi⟩ : ∃ i, names.findIdx? (· == t.magnitude) = some i := by
        rw [← Option.isSome_iff_exists, List.findIdx?_isSome, List.any_eq_true]
        exact ⟨t.magnitude, hmem, by simp⟩
      have hnone : Blade.vectors 0 = [] := by decide
      rw [body, magnitudeToken, bladeTokens, readNumber?_of_isIdentifier hword, hblade, hnone,
        Token.ofIdentifier, String.ofList_toList, hi]
      rfl
  rw [Summand.tokens, PrintedTerm.tokens, ← hbody]
  rfl

/-- The tokens of terms that can be read back are those of a sum. -/
theorem sumTokens_summands (hts : ∀ t ∈ ts, t.Readable names) :
    sumTokens (summands names ts : List (Summand α)) = printedTokens names ts := by
  cases ts with
  | nil => rfl
  | cons t ts =>
    obtain ⟨ht, hts⟩ := List.forall_mem_cons.mp hts
    rw [summands, sumTokens_cons, tokens_summand ht, sumTokens, List.flatMap_map, printedTokens]
    exact congrArg _ (List.flatMap_congr fun u hu => tokens_summand (hts u hu) false)

/-- Every term behind the first has a sign. -/
theorem isSum_summands : IsSum (summands names ts : List (Summand α)) := by
  cases ts with
  | nil => exact signed_nil
  | cons t ts =>
    intro w hw
    obtain ⟨u, -, rfl⟩ := List.mem_map.mp hw
    change u.signs false ≠ []
    rw [signs]
    cases u.negative with
    | true => exact List.cons_ne_nil _ _
    | false => exact List.cons_ne_nil _ _

end Summands

end Clifford

end GeometricAlgebra
