import ConicForm.Scalar

/-!
# Bounds of columns

A bound is a number, or infinite on one side. The infinite bounds are values of their
own, so that a program over any type of scalars can leave its columns unbounded.

## Main definitions

* `Bound`: a number or an infinity
* `Bound.ofFloat`, `Bound.toFloat`: bounds written as floats
-/

namespace ConicForm

/-- An upper or lower bound of a column. -/
inductive Bound (α : Type) where
  | minusInf
  | value (x : α)
  | plusInf
  deriving Repr

namespace Bound

variable {α : Type}

instance [BEq α] : BEq (Bound α) where
  beq
    | minusInf, minusInf => true
    | value x, value y => x == y
    | plusInf, plusInf => true
    | _, _ => false

/-- The number of a bound, if it is an ordinary one. -/
def finite? [Scalar α] : Bound α → Option α
  | value x => if Scalar.isFinite x then some x else none
  | _ => none

/-- Whether a bound is zero. -/
def isZero [Scalar α] : Bound α → Bool
  | value x => Scalar.isZero x
  | _ => false

/-- The bound that a float writes. A NaN is kept as a number that bounds nothing. -/
def ofFloat (x : Float) : Bound Float :=
  if x.isInf then (if x < 0 then minusInf else plusInf) else value x

/-- A bound written as a float. -/
def toFloat : Bound Float → Float
  | minusInf => -(1.0 / 0.0)
  | value x => x
  | plusInf => 1.0 / 0.0

end Bound

end ConicForm
