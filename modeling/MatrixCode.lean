import MatrixCode.Context.Basic
import MatrixCode.Listing
import MatrixCode.Proofs.Addressing
import MatrixCode.Proofs.Evaluation
import MatrixCode.Proofs.Liveness
import MatrixCode.Proofs.Binary
import MatrixCode.Proofs.Decimal
import MatrixCode.Proofs.NumberText
import MatrixCode.Proofs.Literals
import MatrixCode.Proofs.Reduction
import MatrixCode.Proofs.Folding
import MatrixCode.Proofs.Replacement
import MatrixCode.Proofs.Agreement
import MatrixCode.Proofs.Usage
import MatrixCode.Proofs.Sharing
import MatrixCode.Proofs.TrailingCopy
import MatrixCode.Proofs.Building
import MatrixCode.Proofs.Optimization
import MatrixCode.Proofs.Execution
import MatrixCode.Proofs.Reassignment
import MatrixCode.Proofs.FailedExecution
import MatrixCode.Proofs.FailedFolding
import MatrixCode.Proofs.Repetition
import MatrixCode.Proofs.Backends
import MatrixCode.Proofs.Expressions
import MatrixCode.Proofs.StaleTexts
import MatrixCode.Proofs.SymbolicOptimization
import MatrixCode.Proofs.IndexTexts
import MatrixCode.Proofs.IntegerTrees
import MatrixCode.Proofs.Packing
import MatrixCode.Proofs.Reuse
import MatrixCode.Proofs.Aliasing
import MatrixCode.Proofs.Idempotence
import MatrixCode.Proofs.Selections
import MatrixCode.Proofs.UnitSteps
import MatrixCode.Proofs.Accounting
import MatrixCode.Proofs.Passes
import MatrixCode.Proofs.Blocks
import MatrixCode.Proofs.Echelon
import MatrixCode.Proofs.Concatenation
import MatrixCode.Proofs.InPlace
import MatrixCode.Proofs.FailedConstruction
import MatrixCode.Proofs.Rollback
import MatrixCode.Proofs.Interning
import MatrixCode.Proofs.Capture
import MatrixCode.Proofs.Leaves
import MatrixCode.Proofs.DoubleIndices
import MatrixCode.Proofs.Substitution
import MatrixCode.Proofs.OpenRanges
import MatrixCode.Proofs.Sampling
