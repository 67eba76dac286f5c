/-
  GeometricAlgebra.Text.NumberText

  Unsigned numbers in a text: digits with at most one point among them, then perhaps an
  exponent.  At least one digit is needed, and at least one after an exponent mark.
-/

import GeometricAlgebra.Numeral

namespace GeometricAlgebra.Text

/-- The length of an exponent sign at the start of a text, and whether it is a minus. -/
def exponentSign : List Char → Nat × Bool
  | '+' :: _ => (1, false)
  | '-' :: _ => (1, true)
  | _ => (0, false)

/-- An exponent at the start of a text: its length and its value, zero of length zero if the
    text starts with no exponent mark.  The value is missing if no digit follows the mark. -/
def scanExponent : List Char → Nat × Option Int
  | c :: cs =>
    if c == 'e' || c == 'E' then
      let (width, negative) := exponentSign cs
      let ds := (cs.drop width).takeWhile Char.isDigit
      let e : Int := Decimal.digitsValue ds
      (1 + width + ds.length,
        if ds.isEmpty then none else some (if negative then -e else e))
    else (0, some 0)
  | [] => (0, some 0)

/-- The longest number at the start of a text: its length and its value.  The value is
    missing if digits are. -/
def scanNumber (cs : List Char) : Nat × Option Decimal :=
  let whole := cs.takeWhile Char.isDigit
  let rest := cs.drop whole.length
  let fraction :=
    match rest with
    | '.' :: r => r.takeWhile Char.isDigit
    | _ => []
  let point := if rest.head? == some '.' then 1 else 0
  let width := whole.length + point + fraction.length
  if whole.isEmpty && fraction.isEmpty then (width, none)
  else
    let (extra, exponent) := scanExponent (cs.drop width)
    (width + extra, exponent.map (Decimal.ofDigits false whole fraction))

/-- The scalar that a whole text denotes, if the text is an unsigned number. -/
def readNumber? {α : Type} [Numeral α] (cs : List Char) : Option α :=
  match scanNumber cs with
  | (width, some d) => if width = cs.length then some (Numeral.nearest d) else none
  | (_, none) => none

end GeometricAlgebra.Text
