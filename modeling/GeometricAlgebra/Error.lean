/-
  GeometricAlgebra.Error

  Why a request is refused.  Each way to fail is a constructor with the data that
  its message names; the wording of every message stands in one function per type.

    * `AlgebraFault`: a description that defines no algebra, or a request that an
      algebra cannot meet.
    * `ConfigFault`: a document or a number format that cannot be read.
    * `ParseFault`, `ParseError`: a text that is no multivector, and where.
    * `Error`: any of these, or a coordinate list of the wrong length.
-/

namespace GeometricAlgebra

/-! ## Invalid algebras and requests -/

/-- The ways an algebra, or something asked of it, is invalid. -/
inductive AlgebraFault where
  -- The number of basis vectors is outside the supported range.
  | dimension (algebra : String) (largest got : Nat)
  -- An algebra by dimension alone needs at least one vector.
  | noDimension
  | notIdentifier (algebra vector : String)
  | duplicateVector (algebra vector : String)
  -- The metric does not have one entry per basis vector.
  | metricLength (algebra : String) (entries vectors : Nat)
  -- The blade list does not have one entry per basis blade.
  | bladeCount (algebra : String) (expected got : Nat)
  -- The blade list names a vector that the algebra does not have.
  | unknownVector (algebra vector : String)
  -- A listed blade names a vector twice.
  | repeatedVector (algebra : String) (blade : List String)
  -- A listed blade has a lower grade than the one before it.
  | gradeOrder (algebra : String) (blade : List String)
  -- A blade is listed again, in whatever orientation.
  | duplicateBlade (algebra : String) (blade : List String)
  -- A blade of higher grade than there are basis vectors to build it from.
  | gradeTooHigh (grade available : Nat)
  -- A random versor needs a basis vector to draw from.
  | noVectors
  -- Every draw of a random product was rejected.
  | noAcceptableDraw (grade attempts : Nat)
  -- A half turn needs two basis vectors of square one.
  | noEuclideanPlane (algebra : String)
deriving DecidableEq, Repr

/-- A list of names in brackets, each in quotes.  The names are identifiers, so
    none needs an escape. -/
def quotedList (names : List String) : String :=
  "[" ++ ", ".intercalate (names.map fun n => "\"" ++ n ++ "\"") ++ "]"

/-- What is wrong, in words. -/
def AlgebraFault.message : AlgebraFault → String
  | dimension a largest got => s!"{a}: dimension must be in 1..={largest}, got {got}"
  | noDimension => "dimension must be at least 1"
  | notIdentifier a v => s!"{a}: basis vector name '{v}' is not an identifier"
  | duplicateVector a v => s!"{a}: duplicate basis vector name '{v}'"
  | metricLength a entries vectors =>
    s!"{a}: metric has {entries} entries for {vectors} basis vectors"
  | bladeCount a expected got => s!"{a}: expected {expected} basis blades, got {got}"
  | unknownVector a v => s!"{a}: unknown basis vector '{v}' in basis blade list"
  | repeatedVector a blade => a ++ ": basis blade " ++ quotedList blade ++ " repeats a vector"
  | gradeOrder a blade =>
    a ++ ": basis blades must be listed by ascending grade (" ++ quotedList blade ++ ")"
  | duplicateBlade a blade => a ++ ": basis blade " ++ quotedList blade ++ " listed twice"
  | gradeTooHigh g available =>
    s!"cannot build a grade {g} blade from {available} basis vectors"
  | noVectors => "no basis vectors selected"
  | noAcceptableDraw g attempts =>
    s!"no acceptable random grade {g} product after {attempts} attempts"
  | noEuclideanPlane a => s!"'{a}' has fewer than two Euclidean basis vectors"

/-! ## Documents -/

/-- The ways a document or a format description cannot be read. -/
inductive ConfigFault where
  -- The text is no description of an algebra.
  | algebraDocument
  -- The text is no description of a text format.
  | formatDocument
  -- The document has no text.
  | unreadable
  -- A number format is not of a supported form.
  | numberFormat (spec : String)
deriving DecidableEq, Repr

/-- What is wrong, in words. -/
def ConfigFault.message : ConfigFault → String
  | algebraDocument => "invalid algebra config JSON"
  | formatDocument => "invalid format config"
  | unreadable => "failed to read"
  | numberFormat spec => s!"unsupported number format '{spec}'"

/-! ## Texts -/

/-- What is wrong with the first token that cannot continue a multivector. -/
inductive ParseFault where
  -- A character that starts no token.
  | badCharacter
  -- A number without digits, or an exponent mark without exponent digits.
  | badNumber
  -- An identifier that names no basis vector.
  | badIdentifier
  -- A term after another one without a sign between them.
  | expectedSign
  -- `*` or `^` without a basis vector after it.
  | expectedBasisVector
  -- A token that starts no term.
  | unexpectedToken
deriving DecidableEq, Repr

/-- What is wrong, in words. -/
def ParseFault.message : ParseFault → String
  | badCharacter => "Bad character"
  | badNumber => "Bad number"
  | badIdentifier => "Bad identifier"
  | expectedSign => "Expected '+' or '-'"
  | expectedBasisVector => "Expected basis vector"
  | unexpectedToken => "Unexpected token"

/-- A parse fault at a position of a named text.  Lines and columns count from
    one; columns count bytes. -/
structure ParseError where
  fault : ParseFault
  line : Nat
  column : Nat
  source : String
deriving DecidableEq, Repr

/-- The fault and where it is, in words. -/
def ParseError.message (e : ParseError) : String :=
  e.fault.message ++ " at " ++ e.source ++ s!", line {e.line}, column {e.column}"

/-! ## All errors -/

/-- Why a request is refused. -/
inductive Error where
  | invalidAlgebra (fault : AlgebraFault)
  | config (fault : ConfigFault)
  -- A coordinate list is not of the length that its use needs.
  | coordinateCount (expected got : Nat)
  | parse (error : ParseError)
deriving DecidableEq, Repr

/-- The error in words. -/
def Error.message : Error → String
  | invalidAlgebra f => "invalid algebra: " ++ f.message
  | config f => "configuration error: " ++ f.message
  | coordinateCount expected got =>
    s!"coordinate count mismatch: group usage needs {expected} coordinates, got {got}"
  | parse e => e.message

end GeometricAlgebra
