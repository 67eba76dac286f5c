/-
  GeometricAlgebra.Text.Format

  How multivectors are written: the number format and the texts around and between terms,
  factors and basis vectors.  A format can be read from a JSON document, in which every field
  may be missing.
-/

import GeometricAlgebra.Json.Reader
import GeometricAlgebra.Json.Writer
import GeometricAlgebra.Text.NumberFormat

namespace GeometricAlgebra.Text

open Json (Value)

/-- How multivectors are written. -/
structure Format where
  number : NumberFormat := .fixed 2
  -- Before the first term.
  opening : String := ""
  -- Behind the last term.
  closing : String := ""
  -- Between a coordinate and its blade.
  times : String := "*"
  -- Between the vectors of a blade.
  wedge : String := "^"
  -- Before a term that is not negative, except the first.
  plus : String := " + "
  -- Before every other term.
  minus : String := " - "
deriving DecidableEq, Repr

namespace Format

/-- The usual format. -/
def standard : Format := {}

/-- The fields of a format document. -/
def fieldNames : List String := ["number", "start", "end", "mul", "wedge", "plus", "minus"]

/-- A field that may be missing, read by `read`. -/
def field? {β : Type} (read : Value → Option β) (missing : β) : Option Value → Option β
  | none => some missing
  | some v => read v

/-- The format that a JSON value describes. -/
def ofValue? (v : Value) : Option Format := do
  match ← v.record? fieldNames with
  | [number, opening, closing, times, wedge, plus, minus] =>
    return {
      number := ← field? (fun v => v.text?.bind NumberFormat.read?) standard.number number
      opening := ← field? Value.text? standard.opening opening
      closing := ← field? Value.text? standard.closing closing
      times := ← field? Value.text? standard.times times
      wedge := ← field? Value.text? standard.wedge wedge
      plus := ← field? Value.text? standard.plus plus
      minus := ← field? Value.text? standard.minus minus }
  | _ => none

/-- The format that a JSON text describes. -/
def ofJson (text : String) : Except Error Format :=
  match (Json.read? text).bind ofValue? with
  | some f => .ok f
  | none => .error (.config .formatDocument)

/-- The format as a JSON value. -/
def toValue (f : Format) : Value :=
  .record [
    ("number", .ofText f.number.describe),
    ("start", .ofText f.opening),
    ("end", .ofText f.closing),
    ("mul", .ofText f.times),
    ("wedge", .ofText f.wedge),
    ("plus", .ofText f.plus),
    ("minus", .ofText f.minus)]

/-- The format as JSON text. -/
def toJson (f : Format) : String := f.toValue.compact

end Format

end GeometricAlgebra.Text
