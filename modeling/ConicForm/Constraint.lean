import ConicForm.Constraint.Bounds
import ConicForm.Constraint.Cone
import ConicForm.Constraint.Convex
import ConicForm.Constraint.Linear

/-!
# Constraints

## Main definitions

* `Constraint`: a constraint of any sort
-/

namespace ConicForm

/-- A constraint of any sort. -/
inductive Constraint (α : Type) [Scalar α] where
  | linear (c : LinearConstraint α)
  | bounds (c : Bounds α)
  | convex (c : ConvexConstraint ConvexKind α)
  | cone (c : ConeConstraint)
  | expCone (c : ExpConeConstraint)

namespace Constraint

variable {α : Type} [Scalar α]

instance : BEq (Constraint α) where
  beq
    | linear c, linear d => c == d
    | bounds c, bounds d => c == d
    | convex c, convex d => c == d
    | cone c, cone d => c == d
    | expCone c, expCone d => c == d
    | _, _ => false

/-- The owner of the columns, none if there are only constants. -/
def owner : Constraint α → Option ModelId
  | linear c => c.owner
  | bounds c => some c.owner
  | convex c => c.owner
  | cone c => some c.owner
  | expCone c => some c.owner

/-- The sort of a constraint. -/
def sort : Constraint α → ConstraintSort
  | linear _ => .linear
  | bounds _ => .bounds
  | convex _ => .convex
  | cone _ => .cone
  | expCone _ => .expCone

end Constraint

end ConicForm
