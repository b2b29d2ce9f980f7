/-!
# Scalars

Coefficients, right-hand sides and bounds are taken from one type of scalars. The
library computes with it through the operations below only, so that the same
definitions run on machine floats and can be read in exact arithmetic.

## Main definitions

* `Scalar`: the operations on coefficients
-/

namespace ConicForm

/-- The operations on coefficients. Equality is the comparison of the number type:
for floats it identifies the two zeros and separates a NaN from itself. -/
class Scalar (α : Type) extends Zero α, One α, Add α, Neg α, Mul α, BEq α where
  /-- One half. -/
  half : α
  /-- Whether a value is an ordinary number. -/
  isFinite : α → Bool

-- where a number type has operations of its own, those are found first
attribute [instance (low)] Scalar.toZero Scalar.toOne Scalar.toAdd Scalar.toNeg Scalar.toMul
  Scalar.toBEq

namespace Scalar

variable {α : Type} [Scalar α]

/-- Whether a value compares equal to zero. -/
def isZero (x : α) : Bool := x == 0

/-- The sum of a list, taken from left to right starting at zero. -/
def sum (xs : List α) : α := xs.foldl (· + ·) 0

/-- The sum of a list, taken from left to right starting at its first element. -/
def sumFromFirst : List α → α
  | [] => 0
  | x :: xs => xs.foldl (· + ·) x

end Scalar

instance : Scalar Float where
  zero := 0.0
  one := 1.0
  half := 0.5
  isFinite := Float.isFinite

end ConicForm
