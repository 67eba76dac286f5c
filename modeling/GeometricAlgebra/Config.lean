/-
  GeometricAlgebra.Config

  The description of an algebra: the names of its basis vectors, the diagonal of
  its metric and the order of its basis blades.

    * `Config.validate` checks dimension, names and metric.
    * `Config.basisOrder` resolves a declared blade list: every basis blade once,
      in any orientation, by ascending grade.  Without a list the standard order
      holds.
-/

import GeometricAlgebra.Scalar
import GeometricAlgebra.Blade
import GeometricAlgebra.BasisOrder
import GeometricAlgebra.Error

namespace GeometricAlgebra

/-- What an algebra is made from. -/
structure Config (α : Type) where
  -- A short name, for messages.
  name : String
  -- The names of the basis vectors, by index.
  vectors : List String
  -- The squares of the basis vectors; all one when absent.
  metric : Option (List α) := none
  -- Every basis blade as an ordered list of vector names, by ascending grade;
  -- the standard order when absent.
  blades : Option (List (List String)) := none
deriving BEq, Repr

namespace Config

variable {α : Type}

/-- The largest supported number of basis vectors. -/
def maxDimension : Nat := 12

/-- The number of basis vectors. -/
def dimension (c : Config α) : Nat := c.vectors.length

/-- The squares of the basis vectors. -/
def metricDiagonal [Scalar α] (c : Config α) : List α :=
  c.metric.getD (List.replicate c.dimension 1)

/-- The index of the basis vector called `name`, the first if several are. -/
def vectorIndex? (c : Config α) (name : String) : Option Nat :=
  c.vectors.findIdx? (· == name)

/-! ## Names -/

/-- Letters of the Latin alphabet and the underscore start a name. -/
def isNameStart (c : Char) : Bool := c.isAlpha || c == '_'

/-- Digits may follow. -/
def isNameRest (c : Char) : Bool := c.isAlphanum || c == '_'

/-- A letter or underscore, then letters, digits and underscores. -/
def isIdentifier (name : String) : Bool :=
  match name.toList with
  | [] => false
  | c :: cs => isNameStart c && cs.all isNameRest

/-- Checks names in order against those before them. -/
def checkNames (algebra : String) : List String → List String → Except Error Unit
  | _, [] => .ok ()
  | earlier, v :: vs =>
    if !isIdentifier v then .error (.invalidAlgebra (.notIdentifier algebra v))
    else if earlier.contains v then .error (.invalidAlgebra (.duplicateVector algebra v))
    else checkNames algebra (earlier ++ [v]) vs

/-- Checks that the metric, if given, has one entry per vector. -/
def checkMetric (c : Config α) : Except Error Unit :=
  match c.metric with
  | none => .ok ()
  | some m =>
    if m.length = c.dimension then .ok ()
    else .error (.invalidAlgebra (.metricLength c.name m.length c.dimension))

/-- Checks the dimension, then the names, then the metric. -/
def validate (c : Config α) : Except Error Unit := do
  if c.dimension = 0 ∨ maxDimension < c.dimension then
    throw (.invalidAlgebra (.dimension c.name maxDimension c.dimension))
  checkNames c.name [] c.vectors
  c.checkMetric

/-! ## Blade lists -/

/-- The indices of the vectors of a listed blade. -/
def resolveBlade (c : Config α) (names : List String) : Except Error (List Nat) :=
  names.mapM fun v =>
    match c.vectorIndex? v with
    | some i => .ok i
    | none => .error (.invalidAlgebra (.unknownVector c.name v))

/-- Resolves listed blades in order.  `grade` is the grade of the blade before,
    `seen` are the blades so far. -/
def resolveBlades (c : Config α) : Nat → List Blade → List (List String) →
    Except Error BasisOrder
  | _, _, [] => .ok []
  | grade, seen, names :: rest => do
    let vectors ← c.resolveBlade names
    match Blade.wedge? vectors with
    | none => throw (.invalidAlgebra (.repeatedVector c.name names))
    | some (_, blade) =>
      if vectors.length < grade then throw (.invalidAlgebra (.gradeOrder c.name names))
      if seen.contains blade then throw (.invalidAlgebra (.duplicateBlade c.name names))
      return vectors :: (← c.resolveBlades vectors.length (blade :: seen) rest)

/-- Every basis blade as ordered vector indices, by ascending grade. -/
def basisOrder (c : Config α) : Except Error BasisOrder := do
  c.validate
  match c.blades with
  | none => return .standard c.dimension
  | some blades =>
    if blades.length ≠ 1 <<< c.dimension then
      throw (.invalidAlgebra (.bladeCount c.name (1 <<< c.dimension) blades.length))
    c.resolveBlades 0 [] blades

end Config

end GeometricAlgebra
