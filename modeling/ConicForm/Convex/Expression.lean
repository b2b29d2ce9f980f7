import ConicForm.Constraint.Convex

/-!
# Convex expressions

A convex expression is a convex function of an affine input, or its negation, plus an
affine offset. It may be bounded on the side that its curvature allows.

## Main definitions

* `ConvexExpression`: a function or its negation, with an offset
* `ConvexExpression.le`, `ConvexExpression.ge`: the constraints it may form
-/

namespace ConicForm

/-- A function of the input, or its negation, plus an offset. -/
structure ConvexExpression (α : Type) [Scalar α] where
  input : Affine α
  offset : Affine α
  kind : ConvexKind
  curvature : Curvature

namespace ConvexExpression

variable {α : Type} [Scalar α]

instance : BEq (ConvexExpression α) where
  beq c d :=
    c.input == d.input && c.offset == d.offset && c.kind == d.kind && c.curvature == d.curvature

/-- A function of an input, without offset. -/
def apply (kind : ConvexKind) (input : Affine α) : ConvexExpression α where
  input := input
  offset := .zeros (if kind.elementwise then input.shape else .scalar)
  kind := kind
  curvature := .convex

/-- The owner of the columns of input and offset. -/
def owner (c : ConvexExpression α) : Option ModelId := c.input.owner.or c.offset.owner

/-- The shape of the value. -/
def shape (c : ConvexExpression α) : Shape := c.offset.shape

/-- The negated expression. -/
def neg (c : ConvexExpression α) : ConvexExpression α :=
  { c with offset := c.offset.neg, curvature := c.curvature.flip }

/-- Adds an affine expression, which must not widen the value. -/
def add (c : ConvexExpression α) (a : Affine α) : Except Error (ConvexExpression α) := do
  let offset ← c.offset.add a
  if h : offset.size = c.offset.size then
    let _ ← mergeOwners c.input.owner offset.owner
    return { c with offset := offset.reshape c.shape h.symm }
  else throw (.mismatch (.shapes c.shape offset.shape))

/-- Subtracts an affine expression. -/
def sub (c : ConvexExpression α) (a : Affine α) : Except Error (ConvexExpression α) := c.add a.neg

/-- The constraint that a convex expression is at most `a`. -/
def le (c : ConvexExpression α) (a : Affine α) : Except Error (ConvexConstraint ConvexKind α) :=
  match c.curvature with
  | .convex => do ConvexConstraint.ofResidual c.kind c.input (← c.offset.sub a)
  | .concave => .error (.curvature (.comparison .concave c.kind))

/-- The constraint that a concave expression is at least `a`. -/
def ge (c : ConvexExpression α) (a : Affine α) : Except Error (ConvexConstraint ConvexKind α) :=
  match c.curvature with
  | .concave => c.neg.le a.neg
  | .convex => .error (.curvature (.comparison .convex c.kind))

end ConvexExpression

end ConicForm
