/-
  GeometricAlgebra.Multivector.Exponential

  Exponential, hyperbolic and trigonometric functions of multivectors, and the
  logarithm of a rotor.

  If the square of the argument is a scalar, the functions have closed forms.
  Otherwise `exp` sums its Taylor polynomial at the argument halved `k` times and
  squares the result `k` times; `sinh` and `cosh` follow from `exp`; `sin` and
  `cos` sum their own polynomials.
-/

import GeometricAlgebra.Multivector.Versor

namespace GeometricAlgebra.Clifford

variable {α : Type} [Elementary α] (A : Clifford α)

open Elementary

/-! ## The square of the argument -/

/-- Squares count as scalar if the squares of their other coordinates add up to less
    than this. -/
def scalarSquareBound : α := 1 / ((1000000 : Nat) : α)

/-- The value of `x` squared, if that is a scalar. -/
def scalarSquare? (x : Multivector α) : Option α :=
  let square := A.gp x x
  let rest := if square.grades.has 0 then square.coords.toList.drop 1 else square.coords.toList
  if Scalar.sum (rest.map fun c => c * c) < scalarSquareBound then some square.scalarPart
  else none

/-- The three signs a scalar square can have, with the square root of its absolute
    value. -/
inductive SquareRoot (α : Type) where
  -- The square is `-a²`.
  | circular (a : α)
  -- The square is `a²`.
  | hyperbolic (a : α)
  -- The square is zero, or does not compare with zero.
  | parabolic

/-- The root of a scalar square. -/
def SquareRoot.of (s : α) : SquareRoot α :=
  if s < 0 then .circular (sqrt (-s))
  else if 0 < s then .hyperbolic (sqrt s)
  else .parabolic

/-! ## The exponential -/

/-- How often to halve a coordinate of this size to bring it below one: once for each
    bit of its integer part, once more if that is at least two, and never more than
    1023 times. -/
def scaleExponent (largest : α) : Nat :=
  let whole := trunc largest
  if (1 : α) ≤ whole then
    let bits := floor (log2 whole) + 1
    let k := if ((2 : Nat) : α) ≤ whole then bits + 1 else bits
    toNat (if k < ((1023 : Nat) : α) then k else ((1023 : Nat) : α))
  else 0

/-- One step of a Taylor sum: the last term times `x`, divided by the next number. -/
def nextTerm (x term : Multivector α) (i : Nat) : Multivector α :=
  A.scale (A.gp term x) (1 / (i : α))

/-- The Taylor polynomial of the exponential. -/
def taylorExp (x : Multivector α) (order : Nat) : Multivector α :=
  ((List.range' 1 order).foldl
    (fun (sum, term) i =>
      let next := A.nextTerm x term i
      (A.add sum next, next))
    (.scalar 1, .scalar 1)).1

/-- `x` squared `k` times. -/
def squareTimes : Nat → Multivector α → Multivector α
  | 0, x => x
  | k + 1, x => squareTimes k (A.gp x x)

/-- The exponential by halving, summing and squaring. -/
def expSeries (x : Multivector α) (order : Nat) : Multivector α :=
  if order = 0 then .scalar 1
  else
    let k := scaleExponent x.largestCoordinate
    A.squareTimes k (A.taylorExp (A.scale x (1 / Scalar.twoPow k)) order)

/-- The exponential. -/
def exp (x : Multivector α) (order : Nat) : Multivector α :=
  match (A.scalarSquare? x).map SquareRoot.of with
  | some (.circular a) => A.scaleAndAdd x (sin a / a) (cos a)
  | some (.hyperbolic a) => A.scaleAndAdd x (sinh a / a) (cosh a)
  | some .parabolic => A.increment x
  | none => A.expSeries x order

/-! ## Hyperbolic functions -/

/-- One half. -/
def half : α := 1 / ((2 : Nat) : α)

/-- The hyperbolic sine. -/
def sinh (x : Multivector α) (order : Nat) : Multivector α :=
  match (A.scalarSquare? x).map SquareRoot.of with
  | some (.circular a) => A.scale x (sin a / a)
  | some (.hyperbolic a) => A.scale x (Elementary.sinh a / a)
  | some .parabolic => x
  | none => A.scale (A.subtract (A.exp x order) (A.exp x.negate order)) half

/-- The hyperbolic cosine. -/
def cosh (x : Multivector α) (order : Nat) : Multivector α :=
  match (A.scalarSquare? x).map SquareRoot.of with
  | some (.circular a) => .scalar (cos a)
  | some (.hyperbolic a) => .scalar (Elementary.cosh a)
  | some .parabolic => .scalar 1
  | none => A.scale (A.add (A.exp x order) (A.exp x.negate order)) half

/-! ## Circular functions -/

/-- The sum of `(-1)^j x^i / i!` over the `i = 2j + parity` from one to `order`, and the
    constant one if `parity` is zero. -/
def alternatingSeries (x : Multivector α) (order parity : Nat) : Multivector α :=
  ((List.range' 1 order).foldl
    (fun (sum, term) i =>
      let next := A.nextTerm x term i
      if i % 2 ≠ parity then (sum, next)
      else if i / 2 % 2 = 0 then (A.add sum next, next)
      else (A.subtract sum next, next))
    (if parity = 0 then .scalar 1 else .zero, .scalar 1)).1

/-- The sine. -/
def sin (x : Multivector α) (order : Nat) : Multivector α :=
  match (A.scalarSquare? x).map SquareRoot.of with
  | some (.circular a) => A.scale x (Elementary.sinh a / a)
  | some (.hyperbolic a) => A.scale x (Elementary.sin a / a)
  | some .parabolic => x
  | none => A.alternatingSeries x order 1

/-- The cosine. -/
def cos (x : Multivector α) (order : Nat) : Multivector α :=
  match (A.scalarSquare? x).map SquareRoot.of with
  | some (.circular a) => .scalar (Elementary.cosh a)
  | some (.hyperbolic a) => .scalar (Elementary.cos a)
  | some .parabolic => .scalar 1
  | none => A.alternatingSeries x order 0

/-! ## The logarithm -/

/-- The plane of the first two basis vectors of square one. -/
def euclideanPlane : Except Error Blade :=
  match (List.range A.dimension).filter fun i => A.metric.getD i 0 == 1 with
  | i :: j :: _ => .ok (Blade.ofVector i ||| Blade.ofVector j)
  | _ => .error (.invalidAlgebra (.noEuclideanPlane A.config.name))

/-- The logarithm of a rotor `cos t + sin t B` of a Euclidean plane `B`: the bivector
    `t B`.  Minus one is half a turn in the first Euclidean plane of the algebra. -/
def log (r : Multivector α) : Except Error (Multivector α) :=
  let bivector := A.extract r (GradeSet.insert 0 2)
  let n := A.norm2 bivector
  let s := r.scalarPart
  if n ≤ 0 then
    if 0 ≤ s then .ok .zero
    else do
      let plane ← A.euclideanPlane
      return A.setCoordinate .zero plane (pi * (A.table.signOf plane).toScalar)
  else
    let a := sqrt n
    .ok (A.scale bivector (atan2 a s / a))

end GeometricAlgebra.Clifford
