/-
  GeometricAlgebra.Json

  JSON documents as trees.  A number is kept as its digits and a string may hold escapes
  that denote no text, because a reader has to pass over both in places where it does not
  use them.

    * `Json.Value.record?`: a record given by named members or by position.
    * `Json.Number.toScalar?`: the scalar that a number denotes.
-/

import GeometricAlgebra.Numeral

namespace GeometricAlgebra.Json

/-! ## Trees -/

/-- A number as written: a sign, integer digits, fraction digits and a power of ten. -/
structure Number where
  negative : Bool
  integer : List Char
  fraction : List Char
  exponent : Option Int
deriving DecidableEq, Repr

/-- The text of a string; `none` if an escape in it is half of a surrogate pair. -/
abbrev Text := Option String

/-- A JSON value. -/
inductive Value where
  | null
  | bool (b : Bool)
  | number (n : Number)
  | string (s : Text)
  | array (items : List Value)
  | object (members : List (Text × Value))
deriving Repr

namespace Value

/-- The text of a string value. -/
def text? : Value → Option String
  | string s => s
  | _ => none

/-- The items of an array, each read by `read`. -/
def list? {β : Type} (read : Value → Option β) : Value → Option (List β)
  | array items => items.mapM read
  | _ => none

/-- Reads a value that may be absent or null. -/
def optional? {β : Type} (read : Value → Option β) : Option Value → Option (Option β)
  | none => some none
  | some null => some none
  | some v => (read v).map some

/-- The value of the member called `name`: refused if there are two. -/
def member? (name : String) (members : List (String × Value)) : Option (Option Value) :=
  match members.filter fun m => m.1 == name with
  | [] => some none
  | [m] => some (some m.2)
  | _ => none

/-- The fields of a record in the order of `names`, `none` where a field is absent.  An
    object may have further members; every member needs a name, and no field may be given
    twice.  An array gives the fields by position and may leave out the last ones. -/
def record? (names : List String) : Value → Option (List (Option Value))
  | object members => do
    let named ← members.mapM fun m => m.1.map (·, m.2)
    names.mapM (member? · named)
  | array items =>
    if items.length ≤ names.length then
      some (items.map some ++ List.replicate (names.length - items.length) none)
    else none
  | _ => none

end Value

/-! ## Numbers -/

namespace Number

variable {α : Type}

/-- Significands stay below this bound. -/
def significandBound : Nat := 1 <<< 64

/-- Appends digits to a significand up to the bound.  The second number counts the digits
    that are left out, from the first that does not fit. -/
def takeDigits : Nat → List Char → Nat × Nat
  | n, [] => (n, 0)
  | n, c :: cs =>
    let m := n * 10 + Decimal.digitValue c
    if m < significandBound then takeDigits m cs else (n, (c :: cs).length)

/-- The significand and the power of ten of a number.  Integer digits that do not fit count
    as zeros, fraction digits that do not fit are dropped. -/
def significand (n : Number) : Nat × Int :=
  let (whole, lost) := takeDigits 0 n.integer
  let (all, dropped) := takeDigits whole n.fraction
  (all, n.exponent.getD 0 + lost - (n.fraction.length - dropped : Nat))

/-- The largest power of ten that scales a number in one step. -/
def maxPower : Nat := 308

/-- `10 ^ k`. -/
def tenPow [Numeral α] (k : Nat) : α :=
  Numeral.nearest { negative := false, significand := 1, exponent := k }

/-- `x / 10 ^ k`, in steps, or zero as soon as a step gives zero. -/
def scaleDown [Numeral α] (x : α) (k : Nat) : α :=
  if h : k ≤ maxPower then x / tenPow k
  else if x == 0 then x
  else scaleDown (x / tenPow maxPower) (k - maxPower)
termination_by k
decreasing_by
  have : 0 < maxPower := by decide
  omega

/-- `x * 10 ^ k`, refused if it is too large. -/
def scaleUp? [Numeral α] (x : α) (k : Nat) : Option α :=
  if k ≤ maxPower then
    let y := x * tenPow k
    if Numeral.isInfinite y then none else some y
  else if x == 0 then some x
  else none

/-- The scalar that a number denotes: the significand, scaled by the power of ten.  A number
    that is too large is refused. -/
def toScalar? [Numeral α] (n : Number) : Option α := do
  let (s, e) := n.significand
  let x : α := Numeral.nearest { negative := false, significand := s, exponent := 0 }
  let y ← if 0 ≤ e then scaleUp? x e.toNat else some (scaleDown x (-e).toNat)
  return if n.negative then -y else y

/-- A whole number that is not negative and has neither fraction nor exponent. -/
def toNat? (n : Number) : Option Nat :=
  if n.negative || !n.fraction.isEmpty || n.exponent.isSome then none
  else some (Decimal.digitsValue n.integer)

/-- A natural number. -/
def ofNat (n : Nat) : Number :=
  { negative := false, integer := Decimal.digits n, fraction := [], exponent := none }

/-- Decimals are written out between `10 ^ -5` and `10 ^ 16`. -/
def positionalPlaces : Int × Int := (-5, 16)

/-- A decimal as a number: written out with at least one fraction digit, or with one integer
    digit and a power of ten where that would be long. -/
def ofDecimal (d : Decimal) : Number :=
  let ds := Decimal.digits d.significand
  let place := d.exponent + ds.length - 1
  if d.significand = 0 then
    { negative := d.negative, integer := ['0'], fraction := ['0'], exponent := none }
  else if place < positionalPlaces.1 ∨ positionalPlaces.2 ≤ place then
    { negative := d.negative, integer := ds.take 1, fraction := ds.drop 1, exponent := some place }
  else if 0 ≤ d.exponent then
    { negative := d.negative
      integer := ds ++ List.replicate d.exponent.toNat '0'
      fraction := ['0']
      exponent := none }
  else if place < 0 then
    { negative := d.negative
      integer := ['0']
      fraction := List.replicate (-place - 1).toNat '0' ++ ds
      exponent := none }
  else
    { negative := d.negative
      integer := ds.take (place.toNat + 1)
      fraction := ds.drop (place.toNat + 1)
      exponent := none }

end Number

namespace Value

variable {α : Type} [Numeral α]

/-- The scalar of a number value. -/
def scalar? : Value → Option α
  | number n => n.toScalar?
  | _ => none

/-- A scalar as a value: its shortest decimal, null if it is not finite. -/
def ofScalar (x : α) : Value :=
  if Numeral.isFinite x then number (.ofDecimal (Numeral.shortest x)) else null

/-- A text as a value. -/
def ofText (s : String) : Value := string (some s)

/-- A natural number as a value. -/
def ofNat (n : Nat) : Value := number (.ofNat n)

/-- An object with named members. -/
def record (members : List (String × Value)) : Value :=
  object (members.map fun m => (some m.1, m.2))

end Value

end GeometricAlgebra.Json
