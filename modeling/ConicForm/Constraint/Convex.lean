import ConicForm.Affine.Basic

/-!
# Convex constraints

A convex constraint relates the value of a convex function to an affine expression. The
norms, the absolute value and the exponential are bounded by the output; the squares are
kept with a negated bound, so that the square and the output sum to at most zero.

## Main definitions

* `ConvexConstraint`: a function between two expressions
* `ConvexConstraint.ofResidual`: the constraint that a function and a residual sum to at
  most zero
-/

namespace ConicForm

/-- A convex function of the input, bounded by means of the output. Functions of elements
have an output of the size of the input, the others one of a single element. -/
structure ConvexConstraint (κ α : Type) [Scalar α] where
  owner : Option ModelId
  input : Affine α
  output : Affine α
  kind : κ

namespace ConvexConstraint

variable {κ α : Type} [Scalar α]

instance [BEq κ] : BEq (ConvexConstraint κ α) where
  beq c d := c.owner == d.owner && c.input == d.input && c.output == d.output && c.kind == d.kind

/-- The residual in the size that the function needs: for a function of elements that of
the input, where a single element is repeated, and one element otherwise. -/
def fitResidual (kind : ConvexKind) (input residual : Affine α) : Except Error (Affine α) :=
  if kind.elementwise then
    if h : residual.size = input.size ∨ residual.size = 1 then
      .ok ((residual.broadcast input.size).reshape input.shape (Affine.size_broadcast h).symm)
    else .error (.mismatch (.shapes input.shape residual.shape))
  else if residual.size = 1 then .ok residual
  else .error (.mismatch (.shapes .scalar residual.shape))

/-- The constraint that a function of the input and the residual sum to at most zero. -/
def ofResidual (kind : ConvexKind) (input residual : Affine α) :
    Except Error (ConvexConstraint ConvexKind α) := do
  let owner ← mergeOwners input.owner residual.owner
  let residual ← fitResidual kind input residual
  return { owner, input, output := if kind.squared then residual else residual.neg, kind }

end ConvexConstraint

end ConicForm
