/-
  GeometricAlgebra.Text.Printer

  Writing multivectors.  Coordinates are written with respect to canonical blades, so the signs
  of stored orientations enter the printed values.  A term whose written magnitude reads as zero
  is left out; if none is left, a zero is written.
-/

import GeometricAlgebra.Multivector
import GeometricAlgebra.Text.Format
import GeometricAlgebra.Text.NumberText

namespace GeometricAlgebra.Clifford

open Text (Format)

variable {α : Type} [Numeral α] (A : Clifford α) (f : Format)

/-- A term to be written: a magnitude, whether a minus precedes it, and its blade. -/
structure PrintedTerm where
  magnitude : String
  negative : Bool
  blade : Blade
deriving DecidableEq, Repr

/-- The term of a stored coordinate, unless its written magnitude reads as zero.  What is not
    at least zero counts as negative. -/
def printedTerm? (c : α) (i : Nat) : Option PrintedTerm :=
  let value := (A.table.sign i).toScalar * c
  let magnitude := f.number.format (Scalar.abs value)
  match (Text.readNumber? magnitude.toList : Option α) with
  | some m => if m == 0 then none else some ⟨magnitude, !decide (0 ≤ value), A.table.blade i⟩
  | none => some ⟨magnitude, !decide (0 ≤ value), A.table.blade i⟩

/-- The terms of a multivector that are written. -/
def printedTerms (x : Multivector α) : List PrintedTerm :=
  (A.stored x).filterMap fun (c, i) => A.printedTerm? f c i

/-- The vectors of a canonical blade, behind the factor sign; nothing for the scalar blade. -/
def bladeText (b : Blade) : String :=
  if b = 0 then ""
  else f.times ++ f.wedge.intercalate (b.vectors.map A.vectorName)

/-- What precedes a term. -/
def separator (first : Bool) (t : PrintedTerm) : String :=
  if t.negative then f.minus else if first then "" else f.plus

/-- A term with what precedes it. -/
def termText (first : Bool) (t : PrintedTerm) : String :=
  separator f first t ++ t.magnitude ++ A.bladeText f t.blade

/-- Terms one after the other; a zero if there is none. -/
def termsText : List PrintedTerm → String
  | [] => "0"
  | t :: ts => A.termText f true t ++ String.join (ts.map (A.termText f false))

/-- The text of a multivector. -/
def print (x : Multivector α) : String :=
  f.opening ++ A.termsText f (A.printedTerms f x) ++ f.closing

end GeometricAlgebra.Clifford
