import ConicForm.Affine.Basic
import ConicForm.Column.Block
import ConicForm.Column.Bound
import ConicForm.Column.Type
import ConicForm.Constraint
import ConicForm.Constraint.Bounds
import ConicForm.Constraint.Collection
import ConicForm.Constraint.Cone
import ConicForm.Constraint.Convex
import ConicForm.Constraint.Linear
import ConicForm.Convex.Expression
import ConicForm.Convex.Kind
import ConicForm.Error
import ConicForm.Matrix.Dense
import ConicForm.Matrix.Operations
import ConicForm.Matrix.Sparse
import ConicForm.Model.Cache
import ConicForm.Model.Cone
import ConicForm.Model.Linear
import ConicForm.Model.Piece
import ConicForm.Model.Store
import ConicForm.Program.Cone
import ConicForm.Program.ConeDual
import ConicForm.Program.Linear
import ConicForm.Program.LinearDual
import ConicForm.Program.Report
import ConicForm.Proofs.Affine.Entries
import ConicForm.Proofs.Affine.Sums
import ConicForm.Proofs.Affine.Term
import ConicForm.Proofs.Affine.Value
import ConicForm.Proofs.Canonical.Arrangement
import ConicForm.Proofs.Canonical.Assembly
import ConicForm.Proofs.Canonical.Bounds
import ConicForm.Proofs.Canonical.Demand
import ConicForm.Proofs.Canonical.Embedding
import ConicForm.Proofs.Canonical.Exactness
import ConicForm.Proofs.Canonical.Existence
import ConicForm.Proofs.Canonical.Expansion
import ConicForm.Proofs.Canonical.Identity
import ConicForm.Proofs.Canonical.Insertion
import ConicForm.Proofs.Canonical.Layout
import ConicForm.Proofs.Canonical.Objective
import ConicForm.Proofs.Canonical.Parts
import ConicForm.Proofs.Canonical.Pivot
import ConicForm.Proofs.Canonical.Realization
import ConicForm.Proofs.Canonical.Scope
import ConicForm.Proofs.Canonical.Widening
import ConicForm.Proofs.Constraint.Collection
import ConicForm.Proofs.Constraint.Meaning
import ConicForm.Proofs.Constraint.Ownership
import ConicForm.Proofs.Constraint.Walk
import ConicForm.Proofs.Convex.Comparison
import ConicForm.Proofs.Convex.Expression
import ConicForm.Proofs.Duality.Cone
import ConicForm.Proofs.Duality.Conic
import ConicForm.Proofs.Duality.Double
import ConicForm.Proofs.Duality.Gap
import ConicForm.Proofs.Duality.Linear
import ConicForm.Proofs.Duality.Model
import ConicForm.Proofs.Duality.Records
import ConicForm.Proofs.Duality.Slices
import ConicForm.Proofs.Exact
import ConicForm.Proofs.Matrix.Cells
import ConicForm.Proofs.Matrix.Dense
import ConicForm.Proofs.Matrix.Gap
import ConicForm.Proofs.Matrix.Insertion
import ConicForm.Proofs.Matrix.NormalForm
import ConicForm.Proofs.Matrix.Pattern
import ConicForm.Proofs.Matrix.Rows
import ConicForm.Proofs.Matrix.Weight
import ConicForm.Proofs.Model.Adding
import ConicForm.Proofs.Model.Admission
import ConicForm.Proofs.Model.Base
import ConicForm.Proofs.Model.Built
import ConicForm.Proofs.Model.Caching
import ConicForm.Proofs.Model.Calls
import ConicForm.Proofs.Model.Copies
import ConicForm.Proofs.Model.Current
import ConicForm.Proofs.Model.Declaring
import ConicForm.Proofs.Model.Intake
import ConicForm.Proofs.Model.Ledger
import ConicForm.Proofs.Model.NormBounds
import ConicForm.Proofs.Model.Orientation
import ConicForm.Proofs.Model.Ownership
import ConicForm.Proofs.Model.Reachable
import ConicForm.Proofs.Model.Refinement
import ConicForm.Proofs.Model.Session
import ConicForm.Proofs.Model.Valid
import ConicForm.Proofs.Model.WellFormed
import ConicForm.Proofs.Model.Workspace
import ConicForm.Proofs.Program.Feasible
import ConicForm.Proofs.Program.RecordTable
import ConicForm.Proofs.RightUnit
import ConicForm.Proofs.Text.Table
import ConicForm.Proofs.Traversal
import ConicForm.Scalar
import ConicForm.Shape
import ConicForm.Sorting.Heap
import ConicForm.Sorting.Hybrid
import ConicForm.Sorting.Insertion
import ConicForm.Sorting.Network
import ConicForm.Text.FixedPoint
import ConicForm.Text.Table
