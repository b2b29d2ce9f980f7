/-!
# Insertion sort

Insertion sort keeps the order of elements of which neither is less than the other. It is
used for lists that are short or hardly out of order.

## Main definitions

* `insertionSort`: the stable sort of a list
* `ascending`, `descending`: the lists that are one run already

## Main results

* `insertionSort_perm`: sorting permutes a list
-/

namespace ConicForm.Sorting

variable {τ : Type} (lt : τ → τ → Bool)

/-- Puts an element into a sorted list, before the elements that are not less. -/
def insertSorted (x : τ) : List τ → List τ
  | [] => [x]
  | y :: ys => if lt y x then y :: insertSorted x ys else x :: y :: ys

/-- The elements in ascending order, equal ones in the order of the list. -/
def insertionSort : List τ → List τ
  | [] => []
  | x :: xs => insertSorted lt x (insertionSort xs)

/-- Whether no element is less than the one before it. -/
def ascending : List τ → Bool
  | x :: y :: ys => !lt y x && ascending (y :: ys)
  | _ => true

/-- Whether every element is less than the one before it. -/
def descending : List τ → Bool
  | x :: y :: ys => lt y x && descending (y :: ys)
  | _ => true

theorem insertSorted_perm (x : τ) (xs : List τ) : (insertSorted lt x xs).Perm (x :: xs) := by
  induction xs with
  | nil => exact .refl _
  | cons y ys ih =>
    unfold insertSorted
    split
    · exact (ih.cons y).trans (.swap x y ys)
    · exact .refl _

theorem insertionSort_perm (xs : List τ) : (insertionSort lt xs).Perm xs := by
  induction xs with
  | nil => exact .refl _
  | cons x xs ih => exact (insertSorted_perm lt x _).trans (ih.cons x)

end ConicForm.Sorting
