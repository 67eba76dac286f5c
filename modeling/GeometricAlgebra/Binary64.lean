/-
  GeometricAlgebra.Binary64

  Floating point numbers of 64 bits as scalars.  A finite number is a whole mantissa
  times a power of two; the numbers that round to it form an interval, closed if the
  mantissa is even.
-/

import GeometricAlgebra.Numeral
import GeometricAlgebra.Decimal.Shortest

namespace GeometricAlgebra

/-! ## Bits -/

namespace Binary64

/-- Bits `low` to `low + count - 1` of a number. -/
def field (bits low count : Nat) : Nat := bits >>> low % 1 <<< count

/-- The bits of the integer part: those behind the point are cleared, and of a magnitude
    below one all but the sign. -/
def wholeBits (bits : Nat) : Nat :=
  let biased := field bits 52 11
  let cleared := if biased < 1023 then 63 else 1075 - biased
  bits >>> cleared <<< cleared

/-! ## Arithmetic -/

/-- The integer part, toward zero. -/
def truncate (x : Float) : Float := .ofBits (.ofNat (wholeBits x.toBits.toNat))

/-- The greatest integer that is not larger. -/
def floor (x : Float) : Float :=
  let whole := truncate x
  if x < whole then whole - 1 else whole

instance natCast : NatCast Float := ⟨Float.ofNat⟩

end Binary64

instance : Scalar Float where
  abs := Float.abs
  decidableLT := inferInstance
  decidableLE := inferInstance

instance : Elementary Float where
  sqrt := Float.sqrt
  sin := Float.sin
  cos := Float.cos
  sinh := Float.sinh
  cosh := Float.cosh
  atan2 := Float.atan2
  pi := 3.141592653589793
  log2 := Float.log2
  trunc := Binary64.truncate
  floor := Binary64.floor
  toNat x := x.toUInt64.toNat

namespace Binary64

/-! ## Parts -/

/-- The parts of a number that is neither infinite nor not-a-number. -/
structure Parts where
  negative : Bool
  mantissa : Nat
  -- The power of two of the mantissa's last bit.
  exponent : Int
  -- Whether the mantissa is the least one of its exponent, so that the next smaller
  -- number is only half as far away as the next larger one.
  lowest : Bool
deriving DecidableEq, Repr

/-- The sign of a number. -/
def isNegative (bits : Nat) : Bool := field bits 63 1 == 1

/-- The parts of a finite number. -/
def parts (bits : Nat) : Parts :=
  let fraction := field bits 0 52
  let biased := field bits 52 11
  if biased = 0 then
    { negative := isNegative bits, mantissa := fraction, exponent := -1074, lowest := false }
  else
    { negative := isNegative bits
      mantissa := 1 <<< 52 + fraction
      exponent := (biased : Int) - 1075
      lowest := fraction == 0 && biased != 1 }

/-- `n * 2 ^ e` as a ratio. -/
def powerRatio (n : Nat) (e : Int) : Nat × Nat :=
  if 0 ≤ e then (n <<< e.toNat, 1) else (n, 1 <<< (-e).toNat)

/-- The number behind 64 bits. -/
def expandBits (bits : Nat) : Expansion :=
  if field bits 52 11 = 2047 then
    if field bits 0 52 = 0 then .infinite (isNegative bits) else .nan
  else
    let p := parts bits
    let (num, den) := powerRatio p.mantissa p.exponent
    .finite p.negative num den

/-- The numbers that round to a finite number, in quarters of its last bit. -/
def roundingInterval (p : Parts) : Decimal.Interval :=
  let unit := p.exponent - 2
  { low := (powerRatio (4 * p.mantissa - if p.lowest then 1 else 2) unit).1
    value := (powerRatio (4 * p.mantissa) unit).1
    high := (powerRatio (4 * p.mantissa + 2) unit).1
    den := (powerRatio 1 unit).2
    closed := p.mantissa % 2 == 0 }

/-- The shortest decimal that rounds to a finite number.  Seventeen digits are always
    enough. -/
def shortestBits (bits : Nat) : Decimal :=
  let p := parts bits
  if p.mantissa = 0 then { negative := p.negative, significand := 0, exponent := 0 }
  else (roundingInterval p).shortest p.negative 17

/-! ## Nearest numbers -/

/-- Decimals whose leading digit stands at this place or above are too large. -/
def overflowPlace : Int := 400

/-- Decimals whose leading digit stands below this place round to zero. -/
def underflowPlace : Int := -400

/-- The magnitude nearest to `n * 10 ^ e`. -/
def nearestMagnitude (n : Nat) (e : Int) : Float :=
  let place := e + Decimal.digitCount n - 1
  if n = 0 ∨ place < underflowPlace then 0
  else if overflowPlace ≤ place then 1 / 0
  else if 0 ≤ e then OfScientific.ofScientific n false e.toNat
  else OfScientific.ofScientific n true (-e).toNat

end Binary64

instance : Numeral Float where
  expand x := Binary64.expandBits x.toBits.toNat
  nearest d :=
    let m := Binary64.nearestMagnitude d.significand d.exponent
    if d.negative then -m else m
  shortest x := Binary64.shortestBits x.toBits.toNat

end GeometricAlgebra
