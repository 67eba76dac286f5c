import GeometricAlgebra.Multivector.Dual
import GeometricAlgebra.Multivector.Exponential
import GeometricAlgebra.Outermorphism
import GeometricAlgebra.Binary64
import GeometricAlgebra.Config.Json
import GeometricAlgebra.Random
import GeometricAlgebra.Text.Expression
import GeometricAlgebra.Text.Printer
import GeometricAlgebra.Proofs.Multivector.Associativity
import GeometricAlgebra.Proofs.Multivector.Outermorphism
import GeometricAlgebra.Proofs.Multivector.Versor
import GeometricAlgebra.Proofs.Session
import GeometricAlgebra.Proofs.Text.Parsing
import GeometricAlgebra.Proofs.Text.Faults
import GeometricAlgebra.Proofs.Text.Numbers
import GeometricAlgebra.Proofs.Binary64.Arithmetic
import GeometricAlgebra.Proofs.Binary64.Magnitudes
import GeometricAlgebra.Proofs.ExactSigns
import GeometricAlgebra.Proofs.Binary64.Signs
import GeometricAlgebra.Proofs.Text.Names
import GeometricAlgebra.Proofs.Multivector.Represents
import GeometricAlgebra.Proofs.Multivector.UnitBlades
import GeometricAlgebra.Proofs.Text.Sums
import GeometricAlgebra.Proofs.Text.Wedges
import GeometricAlgebra.Proofs.Text.Printing
import GeometricAlgebra.Proofs.Text.Roundtrip
import GeometricAlgebra.Proofs.Text.NonFinite
import GeometricAlgebra.Proofs.Blade.Involution
import GeometricAlgebra.Proofs.Multivector.Involution
import GeometricAlgebra.Proofs.Multivector.Contraction
import GeometricAlgebra.Proofs.Multivector.Duality
import GeometricAlgebra.Proofs.BasisChange
import GeometricAlgebra.Proofs.Multivector.VersorOutermorphism
import GeometricAlgebra.Proofs.Multivector.Matrices
import GeometricAlgebra.Proofs.Multivector.RandomSpan
import GeometricAlgebra.Proofs.Multivector.InnerProducts
import GeometricAlgebra.Proofs.Multivector.DenseRoundtrip
import GeometricAlgebra.Proofs.Multivector.GradeProjection
import GeometricAlgebra.Proofs.Multivector.RandomBounds
import GeometricAlgebra.Proofs.Multivector.SetCoordinate
import GeometricAlgebra.Proofs.Multivector.Comparison
import GeometricAlgebra.Proofs.Multivector.GradeParts
import GeometricAlgebra.Proofs.Multivector.Scaling
import GeometricAlgebra.Proofs.Multivector.ScalarProduct
import GeometricAlgebra.Proofs.Multivector.Gram
import GeometricAlgebra.Proofs.Multivector.Independence
import GeometricAlgebra.Proofs.Multivector.Series
import GeometricAlgebra.Proofs.Multivector.TaylorSums
import GeometricAlgebra.Proofs.Multivector.Halving
import GeometricAlgebra.Proofs.Multivector.LargestBlade
import GeometricAlgebra.Proofs.Multivector.Logarithm
import GeometricAlgebra.Proofs.Acceptance
import GeometricAlgebra.Proofs.Text.MaximalMunch
import GeometricAlgebra.Proofs.Text.Tiling
import GeometricAlgebra.Proofs.Json.Numbers
import GeometricAlgebra.Proofs.Json.Roundtrip
import GeometricAlgebra.Proofs.ConfigJson
import GeometricAlgebra.Proofs.Text.Descriptions
import GeometricAlgebra.Proofs.Blade.Rewriting
import GeometricAlgebra.Proofs.BasisOrder.Enumeration
import GeometricAlgebra.Proofs.ProductTable.GradeSelection
import GeometricAlgebra.Proofs.ProductTable.Sizes
