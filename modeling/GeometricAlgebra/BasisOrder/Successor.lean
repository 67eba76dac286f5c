/-
  GeometricAlgebra.BasisOrder.Successor

  The standard order, one blade after the other.  The successor of an ascending
  list of vectors raises the last vector that can be raised and lets the vectors
  behind it follow.  Every place and every difference is checked: a step that
  reads or writes past the end of a list, or subtracts below zero, has no result.
-/

import GeometricAlgebra.BasisOrder

namespace GeometricAlgebra.BasisOrder

/-- The difference of two numbers, unless it is below zero. -/
def difference? (a b : Nat) : Option Nat := if b ≤ a then some (a - b) else none

/-- The number of leading vectors up to the last one that can be raised, looking at the first `i`
    places; zero if all of them are as high as their place allows. -/
def raisable? (n g : Nat) (vs : List Nat) : Nat → Option Nat
  | 0 => some 0
  | i + 1 => do
    let v ← vs[i]?
    let highest ← difference? ((← difference? n g) + (i + 1)) 1
    if v = highest then raisable? n g vs i else return i + 1

/-- Writes at place `j` the vector after the one before it. -/
def follow? (vs : List Nat) (j : Nat) : Option (List Nat) := do
  let v ← vs[← difference? j 1]?
  if j < vs.length then return vs.set j (v + 1) else none

/-- The next list of `g` vectors below `n`; `some none` after the last one. -/
def successor? (n g : Nat) (vs : List Nat) : Option (Option (List Nat)) := do
  match ← raisable? n g vs g with
  | 0 => return none
  | i + 1 =>
    let v ← vs[i]?
    return some (← (List.range' (i + 1) (g - (i + 1))).foldlM follow? (vs.set i (v + 1)))

/-- The walk from a list of `g` vectors to the last one, and the lists on its way.  There is none if a
    step has no result, or if the steps do not end. -/
inductive Walk (n g : Nat) : List Nat → BasisOrder → Prop
  | last {vs : List Nat} : successor? n g vs = some none → Walk n g vs [vs]
  | next {vs next : List Nat} {rest : BasisOrder} : successor? n g vs = some (some next) →
      Walk n g next rest → Walk n g vs (vs :: rest)

/-- The walks of some grades, each from the first vectors on. -/
inductive Walks (n : Nat) : List Nat → BasisOrder → Prop
  | nil : Walks n [] []
  | cons {g : Nat} {gs : List Nat} {order rest : BasisOrder} : Walk n g (List.range g) order →
      Walks n gs rest → Walks n (g :: gs) (order ++ rest)

/-- The walks of all grades of dimension `n`. -/
def Enumeration (n : Nat) (order : BasisOrder) : Prop := Walks n (List.range (n + 1)) order

end GeometricAlgebra.BasisOrder
