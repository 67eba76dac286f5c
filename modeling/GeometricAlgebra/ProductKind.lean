/-
  GeometricAlgebra.ProductKind

  The bilinear products of a Clifford algebra.  Each is the geometric product with
  some grades of the result left out: `ProductKind.accepts` says which stay.
-/

namespace GeometricAlgebra

/-- The bilinear products. -/
inductive ProductKind where
  -- Every grade of the geometric product.
  | geometric
  -- The part of grade `r + s`.
  | outer
  -- The part of grade zero.
  | scalar
  -- The part of grade `s - r`.
  | leftContraction
  -- The part of grade `r - s`.
  | rightContraction
  -- The part of grade `|r - s|`, without scalar operands.
  | hestenes
  -- The part of grade `|r - s|`.
  | modifiedHestenes
deriving DecidableEq, Repr

namespace ProductKind

/-- All products, in the order of their numbers. -/
def all : List ProductKind :=
  [geometric, outer, scalar, leftContraction, rightContraction, hestenes, modifiedHestenes]

/-- The number of a product. -/
def index : ProductKind → Nat
  | geometric => 0
  | outer => 1
  | scalar => 2
  | leftContraction => 3
  | rightContraction => 4
  | hestenes => 5
  | modifiedHestenes => 6

/-- The usual short name. -/
def name : ProductKind → String
  | geometric => "gp"
  | outer => "op"
  | scalar => "sp"
  | leftContraction => "lc"
  | rightContraction => "rc"
  | hestenes => "hip"
  | modifiedHestenes => "mhip"

/-- The product with a short name. -/
def ofName? (s : String) : Option ProductKind := all.find? fun k => k.name == s

/-- Whether the product of blades of grades `r` and `s` keeps a result of grade
    `t`. -/
def accepts (k : ProductKind) (r s t : Nat) : Bool :=
  match k with
  | geometric => true
  | outer => t == r + s
  | scalar => t == 0
  | leftContraction => t + r == s
  | rightContraction => t + s == r
  | hestenes => r != 0 && s != 0 && (t + r == s || t + s == r)
  | modifiedHestenes => t + r == s || t + s == r

end ProductKind

end GeometricAlgebra
