/-
  GeometricAlgebra.Random

  Random blades and versors: products of random vectors with coordinates in `[-1, 1)`, scaled to
  a random norm.  A product with a tiny norm or with a coordinate that would become too large is
  drawn again, a limited number of times.

  Randomness comes from a source of 64-bit words, a state and a step; every function returns the
  state after its draws.
-/

import GeometricAlgebra.Multivector.Versor

namespace GeometricAlgebra

/-! ## Sources -/

/-- A source of words: the next word and the state after it. -/
abbrev WordSource (σ : Type) := σ → UInt64 × σ

namespace WordSource

/-- The splitmix generator. -/
def splitmix : WordSource UInt64 := fun s =>
  let s := s + 0x9E3779B97F4A7C15
  let z := (s ^^^ s >>> 30) * 0xBF58476D1CE4E5B9
  let z := (z ^^^ z >>> 27) * 0x94D049BB133111EB
  (z ^^^ z >>> 31, s)

/-- The given words in turn, over and over. -/
def cycle (words : Array UInt64) : WordSource Nat := fun i =>
  (words.getD (i % words.size) 0, (i + 1) % words.size)

end WordSource

namespace Random

variable {α : Type}

/-- A number in `[0, 1)` from the upper 53 bits of a word. -/
def unitDraw [Scalar α] (w : UInt64) : α := ((w >>> 11).toNat : α) / ((1 <<< 53 : Nat) : α)

/-- A number in `[-1, 1)` from the upper 52 bits of a word. -/
def signedDraw [Scalar α] (w : UInt64) : α :=
  ((w >>> 12).toNat : α) / ((1 <<< 52 : Nat) : α) * ((2 : Nat) : α) - 1

/-- How often a product is drawn before giving up. -/
def maxAttempts : Nat := 1000

/-- The usual least norm of a product before scaling. -/
def defaultMinimumNorm [Scalar α] : α := 1 / ((100 : Nat) : α)

/-- The usual bound on the coordinates of a product of norm below `scale`. -/
def defaultLargest [Scalar α] (scale : α) : α := scale * ((4 : Nat) : α)

/-- What a random product has to satisfy. -/
structure Request (α : Type) where
  -- The norm of the result is below this.
  scale : α
  -- The number of vectors in the product.
  grade : Nat
  -- The basis vectors that the vectors are combined from.
  basis : Blade
  -- The least norm of the product before scaling.
  minimumNorm : α
  -- The largest coordinate of the result.
  largest : α
deriving Repr

/-- The request with the usual bounds. -/
def Request.standard [Scalar α] (scale : α) (grade : Nat) : Request α :=
  { scale := scale, grade := grade, basis := 1 <<< 32 - 1
    minimumNorm := defaultMinimumNorm, largest := defaultLargest scale }

end Random

namespace Clifford

open GeometricAlgebra.Random (Request)

variable {α σ : Type} [Elementary α] (A : Clifford α) (next : WordSource σ)

/-- The components of a random vector: one word for each vector of `basis` among those left,
    zero for the others. -/
def randomComponents (basis : Blade) : List Nat → σ → List α × σ
  | [], s => ([], s)
  | i :: is, s =>
    if basis.testBit i then
      let (w, s) := next s
      let (xs, s) := randomComponents basis is s
      (Random.signedDraw w :: xs, s)
    else
      let (xs, s) := randomComponents basis is s
      (0 :: xs, s)

/-- A random vector in the span of the basis vectors in `basis`. -/
def randomVector (basis : Blade) (s : σ) : Multivector α × σ :=
  let (xs, s) := randomComponents next basis (List.range A.dimension) s
  (A.vector xs.toArray, s)

/-- `x` times `k` random vectors. -/
def randomFactors (kind : ProductKind) (basis : Blade) : Nat → Multivector α → σ →
    Multivector α × σ
  | 0, x, s => (x, s)
  | k + 1, x, s =>
    let (v, s) := A.randomVector next basis s
    randomFactors kind basis k (A.product kind x v) s

/-- One draw: a scaled product, or nothing if the product is rejected.  A product with a tiny
    norm takes no word for the scale. -/
def drawProduct (kind : ProductKind) (r : Request α) (s : σ) : Option (Multivector α) × σ :=
  let (x, s) := A.randomFactors next kind r.basis r.grade (.scalar 1) s
  let n := Scalar.abs (A.norm2 x)
  if n ≤ r.minimumNorm * r.minimumNorm then (none, s)
  else
    let (w, s) := next s
    let factor := r.scale * Random.unitDraw w / Elementary.sqrt n
    if r.largest < x.largestCoordinate * factor then (none, s)
    else (some (A.scale x factor), s)

/-- The first accepted draw among a number of attempts. -/
def drawUntil (kind : ProductKind) (r : Request α) : Nat → σ → Option (Multivector α) × σ
  | 0, s => (none, s)
  | attempts + 1, s =>
    match A.drawProduct next kind r s with
    | (some x, s) => (some x, s)
    | (none, s) => drawUntil kind r attempts s

/-- A random product. -/
def randomProduct (kind : ProductKind) (r : Request α) (s : σ) :
    Except Error (Multivector α) × σ :=
  match A.drawUntil next kind r Random.maxAttempts s with
  | (some x, s) => (.ok x, s)
  | (none, s) => (.error (.invalidAlgebra (.noAcceptableDraw r.grade Random.maxAttempts)), s)

/-- The basis vectors of the algebra in a request. -/
def availableVectors (r : Request α) : Blade := r.basis &&& A.pseudoscalar

/-- A random blade: an outer product of random vectors. -/
def randomBlade (r : Request α) (s : σ) : Except Error (Multivector α) × σ :=
  let available := (A.availableVectors r).grade
  if available < r.grade then (.error (.invalidAlgebra (.gradeTooHigh r.grade available)), s)
  else A.randomProduct next .outer r s

/-- A random versor: a geometric product of random vectors. -/
def randomVersor (r : Request α) (s : σ) : Except Error (Multivector α) × σ :=
  if 0 < r.grade ∧ A.availableVectors r = 0 then (.error (.invalidAlgebra .noVectors), s)
  else A.randomProduct next .geometric r s

end Clifford

end GeometricAlgebra
