import GeometricAlgebra.Main
import GeometricAlgebra.Multivector.Text
import GeometricAlgebra.Proofs.KernelRefinement
import GeometricAlgebra.Proofs.Reordering
import GeometricAlgebra.Proofs.Coefficients
import GeometricAlgebra.Proofs.BuiltValues
import GeometricAlgebra.Proofs.GradedLaws
import GeometricAlgebra.Proofs.Inverses
import GeometricAlgebra.Proofs.FieldNames
import GeometricAlgebra.Proofs.KernelInventory
import GeometricAlgebra.Proofs.ModuleReader
import GeometricAlgebra.Proofs.EmittedModule
import GeometricAlgebra.Proofs.ReversalLaws
import GeometricAlgebra.Proofs.KernelListing
import GeometricAlgebra.Proofs.ConformalPoints
import GeometricAlgebra.Proofs.SettingsRoundTrip
import GeometricAlgebra.Proofs.NullBasis
import GeometricAlgebra.Proofs.MultivectorText
import GeometricAlgebra.Proofs.CommandReport
import GeometricAlgebra.Proofs.Magnitudes
import GeometricAlgebra.Proofs.Duality
import GeometricAlgebra.Proofs.BuiltPolynomials
import GeometricAlgebra.Proofs.IteratedWedge
import GeometricAlgebra.Proofs.SettingsDocuments
import GeometricAlgebra.Proofs.ProductCoefficients
import GeometricAlgebra.Proofs.VectorProducts
import GeometricAlgebra.Proofs.FlatPoints
import GeometricAlgebra.Proofs.ValidSettings
import GeometricAlgebra.Proofs.Spellings
import GeometricAlgebra.Proofs.ScalarDivision
import GeometricAlgebra.Proofs.Refusals
import GeometricAlgebra.Proofs.WholeSums
import GeometricAlgebra.Proofs.ScalarProducts
import GeometricAlgebra.Proofs.TypesetPowers
import GeometricAlgebra.Proofs.KernelGrades
import GeometricAlgebra.Proofs.CutDocuments
import GeometricAlgebra.Proofs.IndexTuples
import GeometricAlgebra.Proofs.LabelTranslation
import GeometricAlgebra.Proofs.ExponentForms
