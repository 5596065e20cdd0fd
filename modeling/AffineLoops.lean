import AffineLoops.Case.Basic
import AffineLoops.Case.Catalog
import AffineLoops.Case.Program
import AffineLoops.Case.Subsequence
import AffineLoops.Case.Summary
import AffineLoops.CommandLine.Command
import AffineLoops.CommandLine.FileTree
import AffineLoops.CommandLine.Options
import AffineLoops.CommandLine.Script
import AffineLoops.Dependence.Access
import AffineLoops.Dependence.Pattern
import AffineLoops.Derivation.General
import AffineLoops.Derivation.Permuted
import AffineLoops.Derivation.Planar
import AffineLoops.Domain
import AffineLoops.Error
import AffineLoops.Fault
import AffineLoops.Grid.Basic
import AffineLoops.Grid.Keystream
import AffineLoops.Grid.Random
import AffineLoops.Json.Decode
import AffineLoops.Json.Encode
import AffineLoops.Json.Schema
import AffineLoops.Json.Value
import AffineLoops.Lattice.Diagonal
import AffineLoops.Lattice.Hermite
import AffineLoops.Lattice.Steps
import AffineLoops.Main
import AffineLoops.Matrix.Basic
import AffineLoops.Matrix.Determinant
import AffineLoops.Matrix.Elementary
import AffineLoops.Matrix.Pivot
import AffineLoops.Nest.Basic
import AffineLoops.Nest.Bound
import AffineLoops.Nest.Coverage
import AffineLoops.Nest.Walk
import AffineLoops.Oracle.Check
import AffineLoops.Oracle.Observation
import AffineLoops.Oracle.Sweep
import AffineLoops.Point
import AffineLoops.Rounding
import AffineLoops.Rule.Expr
import AffineLoops.Rule.Update
import AffineLoops.Text.Indented
import AffineLoops.Text.Linear
import AffineLoops.Transform.Basic
import AffineLoops.Transform.Inverse
import AffineLoops.Proofs.Matrix.View
import AffineLoops.Proofs.Matrix.Operations
import AffineLoops.Proofs.Iteration
import AffineLoops.Proofs.Lattice.Hermite
import AffineLoops.Proofs.Matrix.Elimination
import AffineLoops.Proofs.Matrix.Determinant
import AffineLoops.Proofs.Matrix.Adjugate
import AffineLoops.Proofs.Transform.WellFormed
import AffineLoops.Proofs.Except
import AffineLoops.Proofs.Transform.Inverse
import AffineLoops.Proofs.Lattice.Steps
import AffineLoops.Proofs.Nest.Bound
import AffineLoops.Proofs.Nest.Walk
import AffineLoops.Proofs.Domain
import AffineLoops.Proofs.Derivation.Permuted
import AffineLoops.Proofs.Derivation.General
import AffineLoops.Proofs.Dependence.Legality
import AffineLoops.Proofs.Grid
import AffineLoops.Proofs.Rule.Run
import AffineLoops.Proofs.Case.Build
import AffineLoops.Proofs.Case.Subsequence
import AffineLoops.Proofs.Oracle.Sweep
import AffineLoops.Proofs.Case.Sound
import AffineLoops.Proofs.Case.Catalog
import AffineLoops.Proofs.Case.Execution
import AffineLoops.Proofs.Derivation.Planar
import AffineLoops.Proofs.Lattice.Diagonal
import AffineLoops.Proofs.Dependence.Pattern
import AffineLoops.Proofs.Dependence.Schedule
import AffineLoops.Proofs.Rule.Locality
import AffineLoops.Proofs.Nest.Coverage
import AffineLoops.Proofs.Point
import AffineLoops.Proofs.Nest.Reference
import AffineLoops.Proofs.Oracle.Equivalence
import AffineLoops.Proofs.Transform.Images
import AffineLoops.Proofs.Transform.Permutation
import AffineLoops.Proofs.Lattice.Diagonalization
import AffineLoops.Proofs.Lattice.System
import AffineLoops.Proofs.Nest.Checks
import AffineLoops.Proofs.CText.Denotes
import AffineLoops.Proofs.CText.Linear
import AffineLoops.Proofs.Nest.Text
import AffineLoops.Proofs.Lattice.Canonical
import AffineLoops.Proofs.Lattice.Membership
import AffineLoops.Proofs.Dependence.Wavefront
import AffineLoops.Proofs.Oracle.Failure
import AffineLoops.Proofs.Oracle.Accounting
import AffineLoops.Proofs.Dependence.Extraction
import AffineLoops.Proofs.CText.Cell
import AffineLoops.Proofs.Case.Acceptance
import AffineLoops.Proofs.Nest.IntegerPoints
import AffineLoops.Proofs.Rule.Text
import AffineLoops.Proofs.CText.Array
import AffineLoops.Proofs.CText.Declaration
import AffineLoops.Proofs.Case.Program
import AffineLoops.Proofs.Nest.Run
import AffineLoops.Proofs.Derivation.Leading
import AffineLoops.Proofs.Lattice.Progress
import AffineLoops.Proofs.Lattice.Termination
import AffineLoops.Proofs.Dependence.Termination
import AffineLoops.Proofs.Grid.Writes
