import ConicForm.Sorting.Network

/-!
# Heap sort

Heap sort arranges an array as a binary heap, in which no element is less than a child of
it, and then moves the first element behind the heap until the heap is empty.

## Main definitions

* `siftDown`: moves an element down until no child of it is greater
* `heapSort`: the sort of a list by a heap

## Main results

* `heapSort_perm`: sorting permutes a list
-/

namespace ConicForm.Sorting

variable {τ : Type} (lt : τ → τ → Bool)

/-- The greater child of a node in the heap of the first `size` elements, the first of two
equal ones. -/
def greaterChild (v : Array τ) (size node : Nat) : Nat :=
  if 2 * node + 2 < size && lessAt lt v (2 * node + 1) (2 * node + 2) then 2 * node + 2
  else 2 * node + 1

theorem lt_greaterChild (v : Array τ) (size node : Nat) : node < greaterChild lt v size node := by
  unfold greaterChild
  split <;> omega

/-- Moves the element of a node down the heap of the first `size` elements, as long as a
child is greater. -/
def siftDown (size : Nat) (v : Array τ) (node : Nat) : Array τ :=
  if 2 * node + 1 < size then
    if lessAt lt v node (greaterChild lt v size node) then
      siftDown size (v.swapIfInBounds node (greaterChild lt v size node))
        (greaterChild lt v size node)
    else v
  else v
termination_by size - node
decreasing_by
  have := lt_greaterChild lt v size node
  omega

/-- Arranges the first `size` elements as a heap, from the last parent to the root. -/
def heapify (size : Nat) (v : Array τ) : Array τ :=
  (List.range (size / 2)).reverse.foldl (siftDown lt size) v

/-- Ends the heap of the elements up to a position by moving its root there. -/
def extractRoot (v : Array τ) (last : Nat) : Array τ :=
  siftDown lt last (v.swapIfInBounds 0 last) 0

/-- Sorts a list by moving the greatest of the remaining elements to their end. -/
def heapSort (xs : List τ) : List τ :=
  ((List.range xs.length).reverse.foldl (extractRoot lt) (heapify lt xs.length xs.toArray)).toList

/-! ## Permutation -/

theorem siftDown_perm (size : Nat) (v : Array τ) (node : Nat) :
    (siftDown lt size v node).Perm v := by
  fun_induction siftDown lt size v node with
  | case1 v node _ _ ih => exact ih.trans (swapIfInBounds_perm _ _ _)
  | case2 => exact .refl _
  | case3 => exact .refl _

theorem extractRoot_perm (v : Array τ) (last : Nat) : (extractRoot lt v last).Perm v :=
  (siftDown_perm lt _ _ _).trans (swapIfInBounds_perm _ _ _)

theorem heapSort_perm (xs : List τ) : (heapSort lt xs).Perm xs :=
  ((foldl_perm (extractRoot_perm lt) _ _).trans
    (foldl_perm (siftDown_perm lt xs.length) _ xs.toArray)).toList

end ConicForm.Sorting
