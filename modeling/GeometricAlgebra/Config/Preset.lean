/-
  GeometricAlgebra.Config.Preset

  Configurations of well-known algebras.
-/

import GeometricAlgebra.Config

namespace GeometricAlgebra.Config

variable {α : Type}

/-- The names `e1` to `en`. -/
def numberedVectors (n : Nat) : List String :=
  (List.range n).map fun i => s!"e{i + 1}"

/-- The plane. -/
def e2ga : Config α where
  name := "e2ga"
  vectors := numberedVectors 2

/-- Three-dimensional space, with the bivectors in cyclic order: the third one is
    `e3^e1`. -/
def e3ga : Config α where
  name := "e3ga"
  vectors := numberedVectors 3
  blades := some [[], ["e1"], ["e2"], ["e3"], ["e1", "e2"], ["e2", "e3"], ["e3", "e1"],
    ["e1", "e2", "e3"]]

/-- Four-dimensional Euclidean space. -/
def e4ga : Config α where
  name := "e4ga"
  vectors := numberedVectors 4

/-- Eleven-dimensional Euclidean space. -/
def e11ga : Config α where
  name := "e11ga"
  vectors := numberedVectors 11

/-- Space-time with three spatial vectors of square one and a time vector of
    square minus one. -/
def minkowski3 [Scalar α] : Config α where
  name := "minkowski3"
  vectors := numberedVectors 4
  metric := some [1, 1, 1, -1]

/-- The conformal model of space on a diagonal basis: `ep` squares to one and
    `em` to minus one. -/
def conformalDiag [Scalar α] : Config α where
  name := "conformal_diag"
  vectors := ["e1", "e2", "e3", "ep", "em"]
  metric := some [1, 1, 1, 1, -1]

/-- Euclidean space of dimension `n`. -/
def euclidean (n : Nat) : Config α where
  name := s!"e{n}ga"
  vectors := numberedVectors n

end GeometricAlgebra.Config
