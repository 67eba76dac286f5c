/-
  GeometricAlgebra.Multivector.Versor

  Norms, inverses of versors and the sandwich product.  Inverses divide by the
  squared norm without looking for zero.
-/

import GeometricAlgebra.Multivector.Gradewise
import GeometricAlgebra.Multivector.Product

namespace GeometricAlgebra.Clifford

section Algebraic

variable {α : Type} [Scalar α] (A : Clifford α)

/-- The scalar part of `x` times its reverse.  It may be negative when the metric
    is. -/
def norm2 (x : Multivector α) : α := A.sp x (A.reverse x)

/-- The inverse of a versor: its reverse divided by its squared norm. -/
def versorInverse (v : Multivector α) : Multivector α :=
  let n := A.norm2 v
  A.mapGroups (fun g c => c.divided ((Blade.reverseSign g).toScalar * n)) v

/-- `x` times the inverse of the versor `v`. -/
def igp (x v : Multivector α) : Multivector α := A.gp x (A.versorInverse v)

/-- `v x w` in the grades of `x`, where `w` is the inverse of the versor `v`. -/
def applyVersorWith (v x w : Multivector α) : Multivector α :=
  A.extract (A.gp (A.gp v x) w) x.grades

/-- `v x` times the inverse of the versor `v`, in the grades of `x`. -/
def applyVersor (v x : Multivector α) : Multivector α :=
  A.applyVersorWith v x (A.versorInverse v)

/-- `v x` times the reverse of the unit versor `v`, in the grades of `x`. -/
def applyUnitVersor (v x : Multivector α) : Multivector α :=
  A.applyVersorWith v x (A.reverse v)

end Algebraic

section Normed

variable {α : Type} [Elementary α] (A : Clifford α)

/-- The square root of the absolute squared norm. -/
def norm (x : Multivector α) : α := Elementary.sqrt (Scalar.abs (A.norm2 x))

/-- `x` divided by its norm. -/
def unit (x : Multivector α) : Multivector α :=
  let n := A.norm x
  x.map (· / n)

end Normed

end GeometricAlgebra.Clifford
