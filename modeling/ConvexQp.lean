import ConvexQp.Binary64.Basic
import ConvexQp.Decimal.Basic
import ConvexQp.Decimal.Shortest
import ConvexQp.Decimal.Scientific
import ConvexQp.Decimal.Read
import ConvexQp.Decimal.Scaled
import ConvexQp.Dense.Basic
import ConvexQp.Dense.Display
import ConvexQp.Sort.Quicksort
import ConvexQp.Sparse.Basic
import ConvexQp.Mat.Basic
import ConvexQp.Mat.Lhs
import ConvexQp.Problem.Error
import ConvexQp.Problem.Basic
import ConvexQp.Problem.Check
import ConvexQp.Problem.Normalize
import ConvexQp.Problem.Safer
import ConvexQp.Solver.Registry
import ConvexQp.Solver.Params
import ConvexQp.Solver.Engine
import ConvexQp.Solver.Dispatch
import ConvexQp.Proofs.FloatArithmetic
import ConvexQp.Proofs.Entries
import ConvexQp.Proofs.SolveOrder
import ConvexQp.Proofs.SortPermutation
import ConvexQp.Proofs.SparseAssembly
import ConvexQp.Proofs.Stacking
import ConvexQp.Proofs.NormalForm
import ConvexQp.Proofs.RelaxedSolve
import ConvexQp.Proofs.Relaxation
import ConvexQp.Proofs.SparseProduct
import ConvexQp.Proofs.SparseRefinement
import ConvexQp.Proofs.ExactReading
import ConvexQp.Proofs.SortOrder
import ConvexQp.Proofs.Compression
import ConvexQp.Proofs.Conversion
import ConvexQp.Proofs.SparseStructure
import ConvexQp.Proofs.SymmetricProjection
import ConvexQp.Proofs.Halving
import ConvexQp.Proofs.ProjectionAgreement
import ConvexQp.Proofs.BlockLayout
import ConvexQp.Proofs.Filling
import ConvexQp.Proofs.BlockSymmetry
import ConvexQp.Proofs.DecimalExponent
import ConvexQp.Proofs.ScientificRounding
import ConvexQp.Proofs.ScientificText
import ConvexQp.Proofs.ConstraintStack
import ConvexQp.Proofs.DenseStorage
