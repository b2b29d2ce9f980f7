import ConicForm.Affine.Basic

/-!
# Linear constraints

A linear constraint is a block of rows of one sense. Comparing two affine expressions
moves all columns to the left and all constants to the right.

## Main definitions

* `Sense`: the relation of a row
* `LinearConstraint`: rows with right-hand sides
* `Affine.le`, `Affine.ge`, `Affine.eq`: comparisons of expressions
-/

namespace ConicForm

/-- The relation between the two sides of a row. -/
inductive Sense where
  | le
  | eq
  deriving DecidableEq, Repr

/-- The text of a relation. -/
def Sense.text : Sense → String
  | le => "<="
  | eq => "=="

/-- Rows `A x ≤ b` or `A x = b`. -/
structure LinearConstraint (α : Type) [Scalar α] where
  owner : Option ModelId
  linear : SparseMatrix α
  /-- The right-hand sides. -/
  constant : List α
  sense : Sense
  length_constant : constant.length = linear.nrows

namespace LinearConstraint

variable {α : Type} [Scalar α]

instance : BEq (LinearConstraint α) where
  beq c d :=
    c.owner == d.owner && c.linear == d.linear && c.constant == d.constant && c.sense == d.sense

/-- The number of rows. -/
def length (c : LinearConstraint α) : Nat := c.linear.nrows

/-- The rows that compare an expression with zero. -/
def ofResidual (residual : Affine α) (sense : Sense) : LinearConstraint α where
  owner := residual.owner
  linear := residual.linear
  constant := residual.constant.map (- ·)
  sense := sense
  length_constant := by simp [residual.length_constant, residual.nrows_linear]

@[simp] theorem length_ofResidual (residual : Affine α) (sense : Sense) :
    (ofResidual residual sense).length = residual.size := residual.nrows_linear

end LinearConstraint

namespace Affine

variable {α : Type} [Scalar α]

/-- The constraint that `a` is at most `b`, elementwise. -/
def le (a b : Affine α) : Except Error (LinearConstraint α) :=
  return .ofResidual (← a.sub b) .le

/-- The constraint that `a` is at least `b`, elementwise. -/
def ge (a b : Affine α) : Except Error (LinearConstraint α) :=
  return .ofResidual (← b.sub a) .le

/-- The constraint that `a` equals `b`, elementwise. -/
def eq (a b : Affine α) : Except Error (LinearConstraint α) :=
  return .ofResidual (← a.sub b) .eq

end Affine

end ConicForm
