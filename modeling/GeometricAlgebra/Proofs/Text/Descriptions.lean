/-
  GeometricAlgebra.Proofs.Text.Descriptions

  Descriptions of number formats, and formats as documents.  A description is a percent sign, a
  width, perhaps a point with a precision behind it, and a conversion letter; exactly these are
  read.  Formats are written and read back, whatever texts they put between terms.

    * `NumberFormat.Describes`: the texts that describe a number format.
    * `NumberFormat.read?_eq_some_iff`: the reader accepts exactly these.
    * `NumberFormat.describes_describe`: the written description is one of them.
    * `Format.ofValue?_toValue`: what the value of a format describes.
    * `Format.descriptions_roundtrip`: the laws together.
-/

import GeometricAlgebra.Proofs.Digits
import GeometricAlgebra.Proofs.Json.Records
import GeometricAlgebra.Text.Format

namespace GeometricAlgebra.Text

open Decimal (digitsValue)
open Json (Value)

namespace NumberFormat

/-! ## Descriptions -/

/-- The number of decimals. -/
def places : NumberFormat → Nat
  | fixed places => places
  | scientific places => places

/-- The digits of a precision. -/
structure IsPrecision (ds : List Char) (n : Nat) : Prop where
  ne_nil : ds ≠ []
  isDigit : ∀ c ∈ ds, c.isDigit = true
  digitsValue_eq : digitsValue ds = n
  lt : n < precisionBound

/-- A precision, perhaps with a plus sign. -/
inductive PrecisionText : List Char → Nat → Prop where
  | unsigned {ds : List Char} {n : Nat} (h : IsPrecision ds n) : PrecisionText ds n
  | plus {ds : List Char} {n : Nat} (h : IsPrecision ds n) : PrecisionText ('+' :: ds) n

/-- What stands between the percent sign and the conversion letter, and the decimals it asks for. -/
inductive PlacesText : List Char → Nat → Prop where
  | width {w : List Char} (hw : ∀ c ∈ w, c.isDigit = true) : PlacesText w 6
  | point {w : List Char} (hw : ∀ c ∈ w, c.isDigit = true) : PlacesText (w ++ ['.']) 0
  | precision {w cs : List Char} {n : Nat} (hw : ∀ c ∈ w, c.isDigit = true)
      (hcs : PrecisionText cs n) : PlacesText (w ++ '.' :: cs) n

/-- A description of a number format. -/
inductive Describes : String → NumberFormat → Prop where
  | fixed {cs : List Char} {n : Nat} {c : Char} (hcs : PlacesText cs n) (hc : c = 'f' ∨ c = 'F') :
      Describes (String.ofList ('%' :: (cs ++ [c]))) (fixed n)
  | scientific {cs : List Char} {n : Nat} {c : Char} (hcs : PlacesText cs n)
      (hc : c = 'e' ∨ c = 'E') : Describes (String.ofList ('%' :: (cs ++ [c]))) (scientific n)

/-! ## Reading -/

/-- The number that the digits of a precision denote. -/
def precision? (ds : List Char) : Option Nat :=
  if !ds.isEmpty && ds.all Char.isDigit && digitsValue ds < precisionBound then
    some (digitsValue ds)
  else none

theorem precision?_eq_some_iff {ds : List Char} {n : Nat} :
    precision? ds = some n ↔ IsPrecision ds n := by
  rw [precision?, Option.ite_none_right_eq_some]
  simp only [Bool.and_eq_true, Bool.not_eq_true', List.isEmpty_eq_false_iff, List.all_eq_true,
    decide_eq_true_eq, Option.some.injEq]
  constructor
  · rintro ⟨⟨⟨hne, hds⟩, hlt⟩, rfl⟩
    exact ⟨hne, hds, rfl, hlt⟩
  · rintro ⟨hne, hds, rfl, hlt⟩
    exact ⟨⟨⟨hne, hds⟩, hlt⟩, rfl⟩

theorem PrecisionText.ne_nil {cs : List Char} {n : Nat} (h : PrecisionText cs n) : cs ≠ [] := by
  cases h with
  | unsigned h => exact h.ne_nil
  | plus h => exact List.cons_ne_nil _ _

theorem readPrecision?_plus (ds : List Char) : readPrecision? ('+' :: ds) = precision? ds := rfl

theorem readPrecision?_unsigned {cs : List Char} (hcs : ∀ ds, cs ≠ '+' :: ds) :
    readPrecision? cs = precision? cs := by
  rw [readPrecision?, precision?]
  exact hcs

theorem readPrecision?_eq_some_iff {cs : List Char} {n : Nat} :
    readPrecision? cs = some n ↔ PrecisionText cs n := by
  by_cases hplus : ∃ ds, cs = '+' :: ds
  · obtain ⟨ds, rfl⟩ := hplus
    rw [readPrecision?_plus, precision?_eq_some_iff]
    constructor
    · exact .plus
    · rintro (h | h)
      · -- a plus sign is no digit
        exact absurd (h.isDigit '+' List.mem_cons_self) (by decide)
      · exact h
  · rw [readPrecision?_unsigned (not_exists.mp hplus), precision?_eq_some_iff]
    constructor
    · exact .unsigned
    · rintro (h | h)
      · exact h
      · exact absurd ⟨_, rfl⟩ hplus

section Width

variable {w : List Char} (hw : ∀ c ∈ w, c.isDigit = true)
include hw

/-- A width ends with the text or at the first point. -/
theorem takeWhile_width {rest : List Char} (hrest : ∀ c ∈ rest.head?, c = '.') :
    (w ++ rest).takeWhile (· != '.') = w := by
  apply takeWhile_append_of_head
  · intro c hc
    have hdigit := hw c hc
    rw [bne_iff_ne]
    rintro rfl
    exact absurd hdigit (by decide)
  · intro c hc
    rw [hrest c hc]
    rfl

theorem readPlaces?_width : readPlaces? w = some 6 := by
  have hwidth : (w ++ []).takeWhile (· != '.') = w := takeWhile_width hw nofun
  rw [List.append_nil] at hwidth
  rw [readPlaces?, hwidth, if_pos (List.all_eq_true.mpr hw), List.drop_length]

theorem readPlaces?_point (cs : List Char) : readPlaces? (w ++ '.' :: cs) =
    if cs = [] then some 0 else readPrecision? cs := by
  have hwidth : (w ++ '.' :: cs).takeWhile (· != '.') = w := takeWhile_width hw (by simp)
  rw [readPlaces?, hwidth, if_pos (List.all_eq_true.mpr hw), List.drop_left]
  cases cs with
  | nil => rfl
  | cons c cs => rfl

end Width

theorem readPlaces?_eq_some_iff {cs : List Char} {n : Nat} :
    readPlaces? cs = some n ↔ PlacesText cs n := by
  constructor
  · intro h
    have hw : ∀ c ∈ cs.takeWhile (· != '.'), c.isDigit = true := by
      rw [readPlaces?, Option.ite_none_right_eq_some] at h
      exact List.all_eq_true.mp h.1
    have hhead := List.head?_dropWhile_not (· != '.') cs
    rw [← List.takeWhile_append_dropWhile (p := (· != '.')) (l := cs)] at h ⊢
    cases hrest : cs.dropWhile (· != '.') with
    | nil =>
      rw [hrest, List.append_nil] at h
      rw [List.append_nil, ← Option.some.inj ((readPlaces?_width hw).symm.trans h)]
      exact .width hw
    | cons c rest =>
      rw [hrest] at hhead h
      obtain rfl : c = '.' := by simpa using hhead
      rw [readPlaces?_point hw] at h
      by_cases hnil : rest = []
      · rw [if_pos hnil] at h
        rw [hnil, ← Option.some.inj h]
        exact .point hw
      · rw [if_neg hnil] at h
        exact .precision hw (readPrecision?_eq_some_iff.mp h)
  · rintro (hw | hw | ⟨hw, hcs⟩)
    · exact readPlaces?_width hw
    · exact (readPlaces?_point hw []).trans (if_pos rfl)
    · rw [readPlaces?_point hw, if_neg hcs.ne_nil]
      exact readPrecision?_eq_some_iff.mpr hcs

theorem ofConversion?_eq_some_iff {c : Char} {n : Nat} {f : NumberFormat} :
    ofConversion? c n = some f ↔
      (c = 'f' ∨ c = 'F') ∧ f = fixed n ∨ (c = 'e' ∨ c = 'E') ∧ f = scientific n := by
  rw [ofConversion?]
  simp only [Bool.or_eq_true, beq_iff_eq]
  by_cases hfixed : c = 'f' ∨ c = 'F'
  · have hscientific : ¬ (c = 'e' ∨ c = 'E') := by
      rcases hfixed with rfl | rfl <;> decide
    simp only [hfixed, hscientific, if_true, true_and, false_and, or_false, Option.some.injEq]
    exact eq_comm
  · by_cases hscientific : c = 'e' ∨ c = 'E'
    · simp only [hfixed, hscientific, if_true, if_false, true_and, false_and, false_or,
        Option.some.injEq]
      exact eq_comm
    · simp [hfixed, hscientific]

theorem read?_ofList (cs : List Char) (c : Char) :
    read? (String.ofList ('%' :: (cs ++ [c]))) = (readPlaces? cs).bind (ofConversion? c) := by
  rw [read?, String.toList_ofList]
  simp

theorem read?_eq_some_iff {spec : String} {f : NumberFormat} :
    read? spec = some f ↔ Describes spec f := by
  constructor
  · intro h
    have hread := h
    rw [read?] at hread
    split at hread
    · next cs hspec =>
      rcases List.eq_nil_or_concat cs with rfl | ⟨cs, c, rfl⟩
      · exact absurd hread (by simp)
      · obtain rfl : spec = String.ofList ('%' :: (cs ++ [c])) := by
          rw [← List.concat_eq_append, ← hspec, String.ofList_toList]
        rw [read?_ofList, Option.bind_eq_some_iff] at h
        obtain ⟨n, hn, hf⟩ := h
        have hcs := readPlaces?_eq_some_iff.mp hn
        rcases ofConversion?_eq_some_iff.mp hf with ⟨hc, rfl⟩ | ⟨hc, rfl⟩
        · exact .fixed hcs hc
        · exact .scientific hcs hc
    · exact absurd hread (by simp)
  · rintro (⟨hcs, hc⟩ | ⟨hcs, hc⟩)
    · rw [read?_ofList, readPlaces?_eq_some_iff.mpr hcs, Option.bind_some]
      exact ofConversion?_eq_some_iff.mpr (.inl ⟨hc, rfl⟩)
    · rw [read?_ofList, readPlaces?_eq_some_iff.mpr hcs, Option.bind_some]
      exact ofConversion?_eq_some_iff.mpr (.inr ⟨hc, rfl⟩)

theorem read_eq_ok_iff {spec : String} {f : NumberFormat} :
    read spec = .ok f ↔ Describes spec f := by
  rw [← read?_eq_some_iff, read]
  cases read? spec with
  | none => simp
  | some g => simp

theorem read_eq_error {spec : String} (h : ∀ f, ¬ Describes spec f) :
    read spec = .error (.config (.numberFormat spec)) := by
  have hnone : read? spec = none :=
    Option.eq_none_iff_forall_ne_some.mpr fun f hf => h f (read?_eq_some_iff.mp hf)
  rw [read, hnone]

/-! ## Writing -/

theorem placesText_digits {n : Nat} (hn : n < precisionBound) :
    PlacesText ('.' :: Decimal.digits n) n := by
  have hdigits : IsPrecision (Decimal.digits n) n :=
    { ne_nil := Nat.toDigits_ne_nil
      isDigit := fun _ => Decimal.isDigit_of_mem_digits
      digitsValue_eq := Decimal.digitsValue_digits n
      lt := hn }
  exact .precision (w := []) nofun (.unsigned hdigits)

/-- The description of a format describes it. -/
theorem describes_describe {f : NumberFormat} (hf : f.places < precisionBound) :
    Describes f.describe f := by
  cases f with
  | fixed n => exact .fixed (placesText_digits hf) (.inl rfl)
  | scientific n => exact .scientific (placesText_digits hf) (.inl rfl)

end NumberFormat

/-! ## Documents -/

namespace Format

/-- The fields of a format as values, in the order of `fieldNames`. -/
theorem record?_toValue (f : Format) : f.toValue.record? fieldNames = some
    [some (.ofText f.number.describe), some (.ofText f.opening), some (.ofText f.closing),
      some (.ofText f.times), some (.ofText f.wedge), some (.ofText f.plus),
      some (.ofText f.minus)] :=
  Value.record?_record (show fieldNames.Nodup by decide)

theorem field?_ofText (missing s : String) :
    field? Value.text? missing (some (.ofText s)) = some s := rfl

theorem ofValue?_toValue {f : Format} (hf : f.number.places < NumberFormat.precisionBound) :
    ofValue? f.toValue = some f := by
  have hnumber : field? (fun v => v.text?.bind NumberFormat.read?) standard.number
      (some (.ofText f.number.describe)) = some f.number :=
    NumberFormat.read?_eq_some_iff.mpr (NumberFormat.describes_describe hf)
  simp only [ofValue?, record?_toValue, hnumber, field?_ofText, Option.bind_eq_bind,
    Option.bind_some, Option.pure_def]

theorem valid_toValue (f : Format) : f.toValue.Valid := by
  apply Value.valid_record
  simp only [List.forall_mem_cons, Value.valid_ofText, List.not_mem_nil, false_implies,
    implies_true, and_true]

/-- A format is read back from any text that is read as its value. -/
theorem ofJson_of_read? {f : Format} (hf : f.number.places < NumberFormat.precisionBound)
    {text : String} (h : Json.read? text = some f.toValue) : ofJson text = .ok f := by
  rw [ofJson, h, Option.bind_some, ofValue?_toValue hf]

/-- The written description of a number format is read as that format; a text is read as a format
    exactly if it describes it, and any other text is refused by name; and a format is read back
    from its document, in one line or in several. -/
theorem descriptions_roundtrip :
    (∀ f : NumberFormat, f.places < NumberFormat.precisionBound →
      NumberFormat.read f.describe = .ok f) ∧
    (∀ (spec : String) (f : NumberFormat),
      NumberFormat.read spec = .ok f ↔ NumberFormat.Describes spec f) ∧
    (∀ spec : String, (∀ f, ¬ NumberFormat.Describes spec f) →
      NumberFormat.read spec = .error (.config (.numberFormat spec))) ∧
    ∀ f : Format, f.number.places < NumberFormat.precisionBound →
      ofJson f.toJson = .ok f ∧ ofJson f.toValue.pretty = .ok f := by
  refine ⟨fun f hf => ?_, fun spec f => NumberFormat.read_eq_ok_iff,
    fun spec => NumberFormat.read_eq_error, fun f hf => ⟨?_, ?_⟩⟩
  · exact NumberFormat.read_eq_ok_iff.mpr (NumberFormat.describes_describe hf)
  · exact ofJson_of_read? hf (Json.read?_compact (valid_toValue f))
  · exact ofJson_of_read? hf (Json.read?_pretty (valid_toValue f))

/-- A width and a signed precision; a letter that is no conversion and a precision that is too
    large; and a document whose texts hold quotes, a backslash, a control character and characters
    of several bytes. -/
theorem descriptions_roundtrip_escapes :
    let f : Format := {
      number := .scientific 20
      opening := "\"[\\"
      closing := "]\n\x01"
      times := "·"
      wedge := "∧"
      plus := ""
      minus := " − " }
    f.number.places < NumberFormat.precisionBound ∧
      NumberFormat.read f.number.describe = .ok f.number ∧
      NumberFormat.Describes "%12.+020E" f.number ∧
      NumberFormat.read "%12.+020E" = .ok f.number ∧
      (∀ g, ¬ NumberFormat.Describes "%2.2d" g) ∧
      NumberFormat.read "%2.2d" = .error (.config (.numberFormat "%2.2d")) ∧
      (∀ g, ¬ NumberFormat.Describes "%.18446744073709551616f" g) ∧
      NumberFormat.read "%.18446744073709551616f" =
        .error (.config (.numberFormat "%.18446744073709551616f")) ∧
      ofJson f.toJson = .ok f ∧ ofJson f.toValue.pretty = .ok f := by
  intro f
  have hplaces : f.number.places < NumberFormat.precisionBound := by decide +kernel
  have hread : NumberFormat.read? "%12.+020E" = some f.number := by decide +kernel
  have hdescribes := NumberFormat.read?_eq_some_iff.mp hread
  have hnot : ∀ spec, NumberFormat.read? spec = none → ∀ g, ¬ NumberFormat.Describes spec g := by
    intro spec hspec g hg
    rw [NumberFormat.read?_eq_some_iff.mpr hg] at hspec
    cases hspec
  have hletter := hnot "%2.2d" (by decide +kernel)
  have hlarge := hnot "%.18446744073709551616f" (by decide +kernel)
  obtain ⟨hdescribe, hiff, herror, hjson⟩ := descriptions_roundtrip
  obtain ⟨hcompact, hpretty⟩ := hjson f hplaces
  exact ⟨hplaces, hdescribe f.number hplaces, hdescribes, (hiff _ _).mpr hdescribes, hletter,
    herror _ hletter, hlarge, herror _ hlarge, hcompact, hpretty⟩

end Format

end GeometricAlgebra.Text
