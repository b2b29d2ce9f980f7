import ConicForm.Column.Bound
import ConicForm.Constraint.Linear

/-!
# Linear programs

A linear program minimizes a linear objective under rows of linear constraints, with a
type and two bounds for each column.

## Main definitions

* `LinearProgram`: rows, columns and objective
* `LinearProgram.Consistent`: the lists have an entry for each row or column
-/

namespace ConicForm

/-- Minimize `objective x` under the rows `linear x (senses) constants` and the bounds
`lower ≤ x ≤ upper`. -/
structure LinearProgram (α : Type) [Scalar α] where
  linear : SparseMatrix α
  /-- The right-hand side of each row. -/
  constants : List α
  /-- The relation of each row. -/
  senses : List Sense
  /-- The type of each column. -/
  types : List VariableType
  /-- The upper bound of each column. -/
  upper : List (Bound α)
  /-- The lower bound of each column. -/
  lower : List (Bound α)
  /-- The objective coefficient of each column. -/
  objective : List α

namespace LinearProgram

variable {α : Type} [Scalar α]

instance : BEq (LinearProgram α) where
  beq p q :=
    p.linear == q.linear && p.constants == q.constants && p.senses == q.senses &&
    p.types == q.types && p.upper == q.upper && p.lower == q.lower && p.objective == q.objective

/-- The number of rows. -/
def nrows (p : LinearProgram α) : Nat := p.linear.nrows

/-- The number of columns. -/
def ncols (p : LinearProgram α) : Nat := p.linear.ncols

/-- Every list has an entry for each row or for each column. -/
structure Consistent (p : LinearProgram α) : Prop where
  constants : p.constants.length = p.nrows
  senses : p.senses.length = p.nrows
  types : p.types.length = p.ncols
  upper : p.upper.length = p.ncols
  lower : p.lower.length = p.ncols
  objective : p.objective.length = p.ncols

/-- The number of columns of a type. -/
def countType (p : LinearProgram α) (t : VariableType) : Nat := p.types.count t

/-- The number of inequality rows. -/
def countInequalities (p : LinearProgram α) : Nat := p.senses.count .le

end LinearProgram

end ConicForm
