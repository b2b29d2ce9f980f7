import Mathlib
import ConicForm.Matrix.Operations

/-!
# Exact arithmetic

The definitions of this library run on any scalars. Their meaning is stated in exact
arithmetic, that is over an ordered field, where every value is an ordinary number. What
does not depend on the values asks for less, which machine floats have as well.

## Main definitions

* `exactScalar`: the operations on coefficients in an ordered field
* `Scalar.Units`: scalars whose zero and units behave as in a ring

## Main results

* `sum_eq_sum`, `sumFromFirst_eq_sum`: both orders of summation give the sum of a list
-/

namespace ConicForm

variable {K : Type} [Field K]

instance exactScalar [LinearOrder K] : Scalar K where
  half := 2⁻¹
  isFinite _ := true

namespace Scalar

theorem foldl_add_eq (x : K) (xs : List K) : xs.foldl (· + ·) x = x + xs.sum := by
  induction xs generalizing x with
  | nil => simp
  | cons y ys ih => rw [List.foldl_cons, ih, List.sum_cons, add_assoc]

variable [LinearOrder K]

@[simp] theorem half_eq : (half : K) = 2⁻¹ := rfl

@[simp] theorem isZero_iff {x : K} : isZero x = true ↔ x = 0 := beq_iff_eq

@[simp] theorem isZero_eq_false_iff {x : K} : isZero x = false ↔ x ≠ 0 := beq_eq_false_iff_ne

@[simp] theorem sum_eq_sum (xs : List K) : sum xs = xs.sum := by
  rw [sum, foldl_add_eq, zero_add]

@[simp] theorem sumFromFirst_eq_sum (xs : List K) : sumFromFirst xs = xs.sum := by
  cases xs with
  | nil => rfl
  | cons x xs => rw [sumFromFirst, foldl_add_eq, List.sum_cons]

end Scalar

/-! ## Units -/

/-- Scalars whose zero and units compare and multiply as in a ring. -/
class Scalar.Units (α : Type) [Scalar α] : Prop where
  isZero_zero : Scalar.isZero (0 : α) = true
  isZero_one : Scalar.isZero (1 : α) = false
  isZero_neg_one : Scalar.isZero (-1 : α) = false
  one_mul_one : (1 : α) * 1 = 1
  one_mul_neg_one : (1 : α) * -1 = -1

instance [LinearOrder K] : Scalar.Units K where
  isZero_zero := Scalar.isZero_iff.mpr rfl
  isZero_one := Scalar.isZero_eq_false_iff.mpr one_ne_zero
  isZero_neg_one := Scalar.isZero_eq_false_iff.mpr (neg_ne_zero.mpr one_ne_zero)
  one_mul_one := one_mul 1
  one_mul_neg_one := one_mul (-1)

instance : Scalar.Units Float where
  isZero_zero := rfl
  isZero_one := rfl
  isZero_neg_one := rfl
  one_mul_one := rfl
  one_mul_neg_one := rfl

end ConicForm
