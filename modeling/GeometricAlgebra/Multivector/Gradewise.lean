/-
  GeometricAlgebra.Multivector.Gradewise

  Operations that work grade by grade: sign changes, sums and differences, grade
  selection, entrywise products and comparison.  No operation here looks at the
  metric, and each keeps exactly the grades that it names.
-/

import GeometricAlgebra.Multivector

namespace GeometricAlgebra.Clifford

variable {α : Type} [Scalar α] (A : Clifford α)

/-! ## One operand -/

/-- Applies a function to every stored group. -/
def mapGroups (f : Nat → Coordinates α → Coordinates α) (x : Multivector α) : Multivector α :=
  ⟨x.grades, (A.storedGroups x).foldl (fun cs (g, c) => cs ++ f g c) #[]⟩

/-- Multiplies each grade by its sign. -/
def signGrades (sign : Nat → Sign) (x : Multivector α) : Multivector α :=
  A.mapGroups (fun g c => c.scaled (sign g).toScalar) x

/-- Reverses the order of the vectors in every blade. -/
def reverse (x : Multivector α) : Multivector α := A.signGrades Blade.reverseSign x

/-- Negates every vector. -/
def gradeInvolution (x : Multivector α) : Multivector α := A.signGrades Blade.involutionSign x

/-- Reverses the order of the vectors in every blade and negates them. -/
def cliffordConjugate (x : Multivector α) : Multivector α := A.signGrades Blade.conjugateSign x

/-- `x` times `factor` plus `offset`.  The scalar grade is stored if something is
    added. -/
def scaleAndAdd (x : Multivector α) (factor offset : α) : Multivector α :=
  let y := x.map (· * factor)
  if offset == 0 then y
  else
    let z := A.reserve y 0
    { z with coords := z.coords.modify 0 (· + offset) }

/-! ## Two operands -/

/-- Combines two multivectors over the grades `s`, group by group. -/
def zipGroups (f : Option (Coordinates α) → Option (Coordinates α) → Coordinates α)
    (s : GradeSet) (x y : Multivector α) : Multivector α :=
  ⟨s, (A.table.groups.filter s.has).foldl
    (fun cs g => cs ++ f (A.group? x g) (A.group? y g)) #[]⟩

/-- The sum stores every grade that either operand stores. -/
def add (x y : Multivector α) : Multivector α :=
  A.zipGroups
    (fun
      | some c, some d => c.sum d
      | some c, none => c
      | none, some d => d
      | none, none => #[])
    (x.grades ||| y.grades) x y

/-- The difference stores every grade that either operand stores. -/
def subtract (x y : Multivector α) : Multivector α :=
  A.zipGroups
    (fun
      | some c, some d => c.difference d
      | some c, none => c
      | none, some d => d.negated
      | none, none => #[])
    (x.grades ||| y.grades) x y

/-- `x + 1`. -/
def increment (x : Multivector α) : Multivector α := A.add x (.scalar 1)

/-- `x - 1`. -/
def decrement (x : Multivector α) : Multivector α := A.subtract x (.scalar 1)

/-- The part of `x` in the grades of `mask`. -/
def extract (x : Multivector α) (mask : GradeSet) : Multivector α :=
  A.zipGroups (fun c _ => c.getD #[]) (x.grades &&& mask) x x

/-- Combines the groups that both operands store. -/
def zipCommon (f : Coordinates α → Coordinates α → Coordinates α) (x y : Multivector α) :
    Multivector α :=
  A.zipGroups (fun c d => f (c.getD #[]) (d.getD #[])) (x.grades &&& y.grades) x y

/-- Entrywise product over the common grades. -/
def hadamard (x y : Multivector α) : Multivector α := A.zipCommon Coordinates.hadamard x y

/-- Entrywise quotient over the common grades.  Zero divisors are not looked for. -/
def hadamardQuotient (x y : Multivector α) : Multivector α := A.zipCommon Coordinates.quotient x y

/-- Whether every coordinate of `x - y` is within `eps` of zero. -/
def equals (x y : Multivector α) (eps : α) : Bool :=
  (A.table.groups).all fun g =>
    match A.group? x g, A.group? y g with
    | some c, some d => c.equals d eps
    | some c, none => c.isZero eps
    | none, some d => d.isZero eps
    | none, none => true

end GeometricAlgebra.Clifford

namespace GeometricAlgebra.Multivector

/-- Every coordinate negated. -/
def negate {α : Type} [Scalar α] (x : Multivector α) : Multivector α := x.map fun c => -c

end GeometricAlgebra.Multivector
