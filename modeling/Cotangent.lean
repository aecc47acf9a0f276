import Cotangent.Capacity
import Cotangent.Scalar.Binary64
import Cotangent.Matrix.Arithmetic
import Cotangent.Pattern.Basic
import Cotangent.Pattern.Transposition
import Cotangent.Pattern.Matching
import Cotangent.SparseMatrix
import Cotangent.Assembly
import Cotangent.Factor.Basic
import Cotangent.Factor.DenseLU
import Cotangent.Factor.QR
import Cotangent.Factor.Reach
import Cotangent.Factor.SparseLU
import Cotangent.Factor.CheckedLU
import Cotangent.Factor.Workspace
import Cotangent.Factor.Cholesky
import Cotangent.Factor.RowWrites
import Cotangent.Solver.Backend
import Cotangent.Solver.BuiltIn
import Cotangent.Solver.Slot
import Cotangent.Solver.Catalogue
import Cotangent.Solver.Handle
import Cotangent.Expression.Elementwise
import Cotangent.Expression.Graph
import Cotangent.Expression.Building
import Cotangent.Plan.Basic
import Cotangent.Plan.Sweep
import Cotangent.Plan.Traversal
import Cotangent.Plan.CursorSearch
import Cotangent.Program.Basic
import Cotangent.Program.Jacobian
import Cotangent.Proofs.Computation
import Cotangent.Proofs.Arena
import Cotangent.Proofs.Layout
import Cotangent.Proofs.PostOrder
import Cotangent.Proofs.Refusals
import Cotangent.Proofs.TraversalOrder
import Cotangent.Proofs.Recursion
import Cotangent.Proofs.Cells
import Cotangent.Proofs.ExactScalar
import Cotangent.Proofs.Walk
import Cotangent.Proofs.ValueSweep
import Cotangent.Proofs.ForwardSweep
import Cotangent.Proofs.AdjointSweep
import Cotangent.Proofs.Calls
import Cotangent.Proofs.History
import Cotangent.Proofs.Directions
import Cotangent.Proofs.Meaning
import Cotangent.Proofs.AdjointColumns
import Cotangent.Proofs.Dependencies
import Cotangent.Proofs.InnerProduct
import Cotangent.Proofs.Transposition
import Cotangent.Proofs.Levels
import Cotangent.Proofs.Augmentation
import Cotangent.Proofs.MaximumMatching
import Cotangent.Proofs.Exchanges
import Cotangent.Proofs.Phases
import Cotangent.Proofs.StructuralRank
import Cotangent.Proofs.Coefficients
import Cotangent.Proofs.Elimination
import Cotangent.Proofs.LowerUpper
import Cotangent.Proofs.SparseExact
import Cotangent.Proofs.Backends
import Cotangent.Proofs.SafeCalls
import Cotangent.Proofs.Sessions
import Cotangent.Proofs.Caches
import Cotangent.Proofs.SharedSolves
import Cotangent.Proofs.CallStages
import Cotangent.Proofs.RecordedCalls
import Cotangent.Proofs.Evaluations
import Cotangent.Proofs.OverwrittenSlots
import Cotangent.Proofs.FailedCalls
import Cotangent.Proofs.FlatForm
import Cotangent.Proofs.TransposedPatterns
import Cotangent.Proofs.FlatSearch
import Cotangent.Proofs.FlatBuilders
import Cotangent.Proofs.Assemblies
import Cotangent.Proofs.RowSearch
import Cotangent.Proofs.CheckedColumns
import Cotangent.Proofs.ColumnStates
import Cotangent.Proofs.Blocks
import Cotangent.Proofs.DenseFactors
import Cotangent.Proofs.DenseExact
import Cotangent.Proofs.RankRevealing
import Cotangent.Proofs.ExactSolves
import Cotangent.Proofs.Motions
import Cotangent.Proofs.Contract
import Cotangent.Proofs.Cursors
import Cotangent.Proofs.Lifecycle
import Cotangent.Proofs.SymmetricExact
import Cotangent.Proofs.SolveMotions
import Cotangent.Proofs.ChainRule
import Cotangent.Proofs.Derivatives
import Cotangent.Proofs.SolveColumns
import Cotangent.Proofs.SingleDirections
import Cotangent.Proofs.SingleSweeps
import Cotangent.Proofs.SeparateDirections
import Cotangent.Proofs.SymmetricSolves
import Cotangent.Proofs.LowerTriangle
import Cotangent.Proofs.CursorWrites
import Cotangent.Proofs.Comparisons
import Cotangent.Proofs.AcceptedPivots
import Cotangent.Proofs.SeparateSlots
import Cotangent.Proofs.Scaling
import Cotangent.Proofs.ScaledPivots
import Cotangent.Proofs.ScaledReflections
import Cotangent.Proofs.Rescaling
import Cotangent.Proofs.Refactorization
import Cotangent.Proofs.JacobianModes
import Cotangent.Proofs.ColumnwiseSolves
import Cotangent.Proofs.LocalDuality
import Cotangent.Proofs.SparseArithmetic
import Cotangent.Proofs.Insertion
