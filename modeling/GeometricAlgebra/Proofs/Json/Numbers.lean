/-
  GeometricAlgebra.Proofs.Json.Numbers

  Numbers in JSON texts.  A number that is written as the syntax wants it, without leading zeros,
  is read back wherever the text does not go on with a number; decimals are written so.

    * `Number.Valid`: what the syntax asks of the digits.
    * `readNumber?_render`: a valid number is read back.
    * `Number.valid_ofDecimal`: decimals give valid numbers.
-/

import GeometricAlgebra.Json.Reader
import GeometricAlgebra.Json.Writer
import GeometricAlgebra.Proofs.Digits

namespace GeometricAlgebra.Json

open Decimal (digits digitsValue)

/-! ## Parts of numbers -/

/-- A text that goes on with no number. -/
def EndsNumber (cs : List Char) : Prop :=
  ∀ c ∈ cs.head?, c.isDigit = false ∧ c ≠ '.' ∧ c ≠ 'e' ∧ c ≠ 'E'

theorem endsNumber_nil : EndsNumber [] := by simp [EndsNumber]

theorem endsNumber_cons {c : Char} (hdigit : c.isDigit = false)
    (hmarks : c ≠ '.' ∧ c ≠ 'e' ∧ c ≠ 'E') (cs : List Char) : EndsNumber (c :: cs) := by
  rintro _ ⟨⟩
  exact ⟨hdigit, hmarks⟩

namespace Number

/-- The digits of a number are digits, and the integer digits are a single zero or start with
    another digit. -/
structure Valid (n : Number) : Prop where
  integer : n.integer = ['0'] ∨ ∃ c cs, n.integer = c :: cs ∧ c ≠ '0'
  isDigit_integer : ∀ c ∈ n.integer, c.isDigit = true
  isDigit_fraction : ∀ c ∈ n.fraction, c.isDigit = true

/-- The fraction digits behind a point, if there are any. -/
def fractionText (ds : List Char) : List Char := if ds.isEmpty then [] else '.' :: ds

/-- The power of ten behind its mark, if there is one. -/
def powerText : Option Int → List Char
  | none => []
  | some e => 'e' :: (if 0 ≤ e then '+' else '-') :: digits e.natAbs

theorem render_eq (n : Number) : n.render = (if n.negative then ['-'] else []) ++
    (n.integer ++ (fractionText n.fraction ++ powerText n.exponent)) := by
  simp only [render, fractionText, List.append_assoc]
  rfl

end Number

open Number (fractionText powerText)

/-! ## Reading -/

variable {ds rest : List Char}

theorem readDigits?_append (hne : ds ≠ []) (hds : ∀ c ∈ ds, c.isDigit = true)
    (hrest : ∀ c ∈ rest.head?, c.isDigit = false) : readDigits? (ds ++ rest) = some (ds, rest) := by
  rw [readDigits?, takeWhile_append_of_head hds hrest, dropWhile_append_of_head hds hrest]
  cases ds with
  | nil => exact absurd rfl hne
  | cons c ds => rfl

theorem readInteger?_append {n : Number} (hn : n.Valid)
    (hrest : ∀ c ∈ rest.head?, c.isDigit = false) :
    readInteger? (n.integer ++ rest) = some (n.integer, rest) := by
  rcases hn.integer with hzero | ⟨c, cs, hdigits, hc⟩
  · rw [hzero]
    rfl
  · have hread := readDigits?_append (by simp [hdigits]) hn.isDigit_integer hrest
    rw [hdigits, List.cons_append] at hread ⊢
    rw [readInteger?, hread]
    rintro _ ⟨⟩
    exact hc rfl

theorem readFraction?_append (hds : ∀ c ∈ ds, c.isDigit = true)
    (hrest : ∀ c ∈ rest.head?, c.isDigit = false ∧ c ≠ '.') :
    readFraction? (fractionText ds ++ rest) = some (ds, rest) := by
  cases ds with
  | nil =>
    cases rest with
    | nil => rfl
    | cons c rest =>
      rw [fractionText, List.isEmpty_nil, if_pos rfl, List.nil_append, readFraction?]
      rintro _ ⟨⟩
      exact (hrest '.' rfl).2 rfl
  | cons d ds =>
    exact readDigits?_append (List.cons_ne_nil d ds) hds fun c hc => (hrest c hc).1

theorem readExponent?_append (power : Option Int) (hrest : EndsNumber rest) :
    readExponent? (powerText power ++ rest) = some (power, rest) := by
  cases power with
  | none =>
    cases rest with
    | nil => rfl
    | cons c rest =>
      obtain ⟨-, -, he, hE⟩ := hrest c rfl
      rw [powerText, List.nil_append, readExponent?, if_neg (by simp [he, hE])]
  | some e =>
    have hread : readDigits? (digits e.natAbs ++ rest) = some (digits e.natAbs, rest) :=
      readDigits?_append Nat.toDigits_ne_nil (fun c hc => Decimal.isDigit_of_mem_digits hc)
        fun c hc => (hrest c hc).1
    have hmark : ('e' == 'e' || 'e' == 'E') = true := rfl
    rw [powerText, List.cons_append, List.cons_append, readExponent?, if_pos hmark]
    by_cases he : 0 ≤ e
    · have hvalue : (e.natAbs : Int) = e := Int.natAbs_of_nonneg he
      simp only [if_pos he, readExponentSign, hread, Decimal.digitsValue_digits, hvalue,
        Option.bind_eq_bind, Option.bind_some, Option.pure_def, Bool.false_eq_true, if_false]
    · have hvalue : -(e.natAbs : Int) = e := by omega
      simp only [if_neg he, readExponentSign, hread, Decimal.digitsValue_digits, hvalue,
        Option.bind_eq_bind, Option.bind_some, Option.pure_def, if_true]

theorem readMinus_append {n : Number} (hn : n.Valid) (rest : List Char) :
    readMinus ((if n.negative then ['-'] else []) ++ (n.integer ++ rest)) =
      (n.negative, n.integer ++ rest) := by
  cases n.negative with
  | true => rfl
  | false =>
    -- the integer digits start with no minus
    have hminus : ∀ cs, n.integer ++ rest ≠ '-' :: cs := by
      intro cs h
      rcases hn.integer with hzero | ⟨c, ds, hdigits, -⟩
      · rw [hzero] at h
        exact absurd (List.cons.inj h).1 (by decide)
      · have hdigit := hn.isDigit_integer c (hdigits ▸ List.mem_cons_self)
        rw [hdigits] at h
        exact absurd ((List.cons.inj h).1 ▸ hdigit) (by decide)
    rw [if_neg (by decide), List.nil_append, readMinus]
    exact hminus

/-- A valid number is read back where the text goes on with no number. -/
theorem readNumber?_render {n : Number} (hn : n.Valid) (hrest : EndsNumber rest) :
    readNumber? (n.render ++ rest) = some (n, rest) := by
  have hexponent := readExponent?_append n.exponent hrest
  have hpower : ∀ c ∈ (powerText n.exponent ++ rest).head?, c.isDigit = false ∧ c ≠ '.' := by
    cases n.exponent with
    | none => exact fun c hc => ⟨(hrest c hc).1, (hrest c hc).2.1⟩
    | some e =>
      rintro _ ⟨⟩
      exact ⟨rfl, by decide⟩
  have hfraction := readFraction?_append hn.isDigit_fraction hpower
  have htail : ∀ c ∈ (fractionText n.fraction ++ (powerText n.exponent ++ rest)).head?,
      c.isDigit = false := by
    cases n.fraction with
    | nil => exact fun c hc => (hpower c hc).1
    | cons d ds =>
      rintro _ ⟨⟩
      rfl
  have hinteger := readInteger?_append hn htail
  rw [Number.render_eq, List.append_assoc, List.append_assoc, List.append_assoc, readNumber?,
    readMinus_append hn]
  simp only [hinteger, hfraction, hexponent, Option.bind_eq_bind, Option.bind_some, Option.pure_def]

/-! ## Decimals -/

/-- A decimal gives a number that the syntax allows. -/
theorem Number.valid_ofDecimal (d : Decimal) : (Number.ofDecimal d).Valid := by
  have hzeros : ∀ k, ∀ c ∈ List.replicate k '0', c.isDigit = true := by
    intro k c hc
    rw [(List.mem_replicate.mp hc).2]
    rfl
  have hdigits : ∀ c ∈ digits d.significand, c.isDigit = true := fun c hc =>
    Decimal.isDigit_of_mem_digits hc
  have hzero : ∀ c ∈ ['0'], c.isDigit = true := hzeros 1
  unfold Number.ofDecimal
  by_cases hsignificand : d.significand = 0
  · simp only [hsignificand, if_true]
    exact ⟨.inl rfl, hzero, hzero⟩
  obtain ⟨c, cs, hcons, hc⟩ := Decimal.exists_digits_eq_cons hsignificand
  rw [hcons] at hdigits
  simp only [hsignificand, if_false, hcons]
  split
  · -- one integer digit and a power of ten
    exact ⟨.inr ⟨c, [], rfl, hc⟩, fun a ha => hdigits a (List.mem_of_mem_take ha),
      fun a ha => hdigits a (List.mem_of_mem_drop ha)⟩
  · split
    · -- zeros behind the digits
      refine ⟨.inr ⟨c, _, List.cons_append, hc⟩, fun a ha => ?_, hzero⟩
      exact (List.mem_append.mp ha).elim (hdigits a) (hzeros _ a)
    · split
      · -- zeros between the point and the digits
        exact ⟨.inl rfl, hzero, fun a ha => (List.mem_append.mp ha).elim (hzeros _ a) (hdigits a)⟩
      · -- a point among the digits
        exact ⟨.inr ⟨c, _, List.take_succ_cons, hc⟩,
          fun a ha => hdigits a (List.mem_of_mem_take ha),
          fun a ha => hdigits a (List.mem_of_mem_drop ha)⟩

end GeometricAlgebra.Json
