/-
  GeometricAlgebra.Text.NumberFormat

  How numbers are written: with a fixed number of decimals, or in scientific form with a fixed
  number of decimals.  A format is described by a text such as `%.2f` or `%.6e`; a field width
  is accepted and has no effect, and a missing precision means six.
-/

import GeometricAlgebra.Decimal.Rounded
import GeometricAlgebra.Error
import GeometricAlgebra.Numeral

namespace GeometricAlgebra.Text

/-- How numbers are written. -/
inductive NumberFormat where
  -- With the given number of decimals.
  | fixed (places : Nat)
  -- In scientific form, with the given number of decimals.
  | scientific (places : Nat)
deriving DecidableEq, Repr

namespace NumberFormat

/-! ## Writing numbers -/

/-- A ratio in this format. -/
def ratioText (f : NumberFormat) (num den : Nat) : List Char :=
  match f with
  | fixed places => Decimal.fixedText num den places
  | scientific places => Decimal.scientificText num den places

/-- A minus sign before a negative number. -/
def minusIf (negative : Bool) : List Char := if negative then ['-'] else []

/-- A number in this format.  The sign of a number that rounds to zero is kept. -/
def expansionText (f : NumberFormat) : Expansion → List Char
  | .nan => ['N', 'a', 'N']
  | .infinite negative => minusIf negative ++ ['i', 'n', 'f']
  | .finite negative num den => minusIf negative ++ f.ratioText num den

/-- A scalar in this format. -/
def format {α : Type} [Numeral α] (f : NumberFormat) (x : α) : String :=
  String.ofList (f.expansionText (Numeral.expand x))

/-! ## Describing formats -/

/-- The description with a precision and a conversion letter. -/
def description (places : Nat) (conversion : Char) : String :=
  String.ofList ('%' :: '.' :: Decimal.digits places ++ [conversion])

/-- The description of a format. -/
def describe : NumberFormat → String
  | fixed places => description places 'f'
  | scientific places => description places 'e'

/-- Precisions are below this bound. -/
def precisionBound : Nat := 1 <<< 64

/-- A number below the bound, with an optional plus sign. -/
def readPrecision? (cs : List Char) : Option Nat :=
  let ds :=
    match cs with
    | '+' :: ds => ds
    | ds => ds
  let n := Decimal.digitsValue ds
  if !ds.isEmpty && ds.all Char.isDigit && n < precisionBound then some n else none

/-- The precision in a description between the percent sign and the last letter: a width, then
    perhaps a point and the precision.  No precision after the point means none. -/
def readPlaces? (cs : List Char) : Option Nat :=
  let width := cs.takeWhile (· != '.')
  if width.all Char.isDigit then
    match cs.drop width.length with
    | [] => some 6
    | [_] => some 0
    | _ :: ds => readPrecision? ds
  else none

/-- The format with a conversion letter and a precision. -/
def ofConversion? (c : Char) (places : Nat) : Option NumberFormat :=
  if c == 'f' || c == 'F' then some (fixed places)
  else if c == 'e' || c == 'E' then some (scientific places)
  else none

/-- The format of a description. -/
def read? (spec : String) : Option NumberFormat :=
  match spec.toList with
  | '%' :: cs => do
    let conversion ← cs.getLast?
    ofConversion? conversion (← readPlaces? cs.dropLast)
  | _ => none

/-- The format of a description, or the fault that it is none. -/
def read (spec : String) : Except Error NumberFormat :=
  match read? spec with
  | some f => .ok f
  | none => .error (.config (.numberFormat spec))

end NumberFormat

end GeometricAlgebra.Text
