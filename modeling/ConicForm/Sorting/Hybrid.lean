import ConicForm.Sorting.Heap

/-!
# Hybrid sort

A list is sorted by the method that suits it: insertion for up to twenty elements and for
lists that are one run, else quicksort, which leaves parts of up to thirty-two elements to
the sorting networks and parts that remain large after too many splits to heap sort.

Up to twenty elements the sort is stable. In longer lists the order of equal elements is
fixed by the exchanges made, so it is part of the definition: whoever adds up equal
elements in turn sees it in the last digits of the sum.

## Main definitions

* `representative`: the position of the pivot
* `split`: the elements less than a pivot and the others
* `quickSort`, `hybridSort`: the sorts

## Main results

* `hybridSort_perm`: sorting permutes a list
-/

namespace ConicForm.Sorting

variable {τ : Type} (lt : τ → τ → Bool)

/-! ## The pivot -/

/-- The middle of three positions by the elements there. -/
def middle (v : Array τ) (i j k : Nat) : Nat :=
  if lessAt lt v i j == lessAt lt v i k then
    if lessAt lt v j k != lessAt lt v i j then k else j
  else i

/-- A position with a middling element among the `count` positions from `start`: the first
of fewer than eight, else the middle one of the representatives of the first, fifth and
last eighth. -/
def representative (v : Array τ) (count start : Nat) : Nat :=
  if count < 8 then start
  else
    middle lt v (representative v (count / 8) start)
      (representative v (count / 8) (start + 4 * (count / 8)))
      (representative v (count / 8) (start + 7 * (count / 8)))
termination_by count

/-- The element at a position of a nonempty list, and the list's tail with the head in its
place. -/
def takeOut (x : τ) : List τ → Nat → τ × List τ
  | xs, 0 => (x, xs)
  | [], _ + 1 => (x, [])
  | y :: ys, 1 => (y, x :: ys)
  | y :: ys, n + 2 => ((takeOut x ys (n + 1)).1, y :: (takeOut x ys (n + 1)).2)

/-! ## Splitting at a pivot -/

/-- Moves the first element of a list to the end. -/
def firstToEnd : List τ → List τ
  | [] => []
  | x :: xs => xs ++ [x]

/-- Moves the last element of a list to the front. -/
def lastToFront (xs : List τ) : List τ := xs.getLast?.toList ++ xs.dropLast

/-- Takes an element into a split: one less than the pivot moves the first of the others to
their end, one that is not comes before them. -/
def place (pivot : τ) (parts : List τ × List τ) (x : τ) : List τ × List τ :=
  if lt x pivot then (parts.1 ++ [x], firstToEnd parts.2) else (parts.1, x :: firstToEnd parts.2)

/-- The elements less than a pivot, and the others. The first element is placed last. -/
def split (pivot : τ) (xs : List τ) : List τ × List τ :=
  let parts := (firstToEnd xs).foldl (place lt pivot) ([], [])
  (lastToFront parts.1, parts.2)

/-! ## The sorts -/

/-- Quicksort with at most `limit` nested splits. No element is less than `floor`, the pivot
next below the list; where the new pivot is not greater, its equals are split off and are
in place. -/
def quickSort : Nat → Option τ → List τ → List τ
  | _, _, [] => []
  | 0, _, x :: xs => if xs.length < 32 then shortSort lt (x :: xs) else heapSort lt (x :: xs)
  | limit + 1, floor, x :: xs =>
    if xs.length < 32 then shortSort lt (x :: xs)
    else
      let (pivot, others) :=
        takeOut x xs (representative lt (x :: xs).toArray (xs.length + 1) 0)
      if floor.any fun y => !lt y pivot then
        let (equal, above) := split (fun y z => !lt z y) pivot others
        equal ++ pivot :: quickSort limit none above
      else
        let (below, above) := split lt pivot others
        quickSort limit floor below ++ pivot :: quickSort limit (some pivot) above

/-- Sorts a list, stably up to twenty elements. -/
def hybridSort (xs : List τ) : List τ :=
  if xs.length ≤ 20 || ascending lt xs || descending lt xs then insertionSort lt xs
  else quickSort lt (2 * xs.length.log2) none xs

/-! ## Permutation -/

theorem takeOut_perm (x : τ) (xs : List τ) (n : Nat) :
    ((takeOut x xs n).1 :: (takeOut x xs n).2).Perm (x :: xs) := by
  fun_induction takeOut x xs n with
  | case1 => exact .refl _
  | case2 => exact .refl _
  | case3 y ys => exact .swap x y ys
  | case4 y ys n ih => exact (List.Perm.swap _ _ _).trans ((ih.cons y).trans (.swap _ _ _))

theorem firstToEnd_perm (xs : List τ) : (firstToEnd xs).Perm xs := by
  cases xs with
  | nil => exact .refl _
  | cons x xs => exact List.perm_append_singleton x xs

theorem lastToFront_perm (xs : List τ) : (lastToFront xs).Perm xs := by
  by_cases h : xs = []
  · subst h
    exact .refl _
  · have hl := (List.perm_append_singleton (xs.getLast h) xs.dropLast).symm
    rw [List.dropLast_concat_getLast] at hl
    simpa only [lastToFront, List.getLast?_eq_some_getLast h, Option.toList_some,
      List.singleton_append] using hl

theorem place_perm (pivot : τ) (parts : List τ × List τ) (x : τ) :
    ((place lt pivot parts x).1 ++ (place lt pivot parts x).2).Perm
      (x :: (parts.1 ++ parts.2)) := by
  have h := (firstToEnd_perm parts.2).append_left parts.1
  unfold place
  split
  · simpa using List.perm_middle.trans (h.cons x)
  · exact List.perm_middle.trans (h.cons x)

theorem foldl_place_perm (pivot : τ) (xs : List τ) (parts : List τ × List τ) :
    ((xs.foldl (place lt pivot) parts).1 ++ (xs.foldl (place lt pivot) parts).2).Perm
      (xs ++ (parts.1 ++ parts.2)) := by
  induction xs generalizing parts with
  | nil => exact .refl _
  | cons x xs ih =>
    exact (ih _).trans (((place_perm lt pivot parts x).append_left xs).trans List.perm_middle)

theorem split_perm (pivot : τ) (xs : List τ) :
    ((split lt pivot xs).1 ++ (split lt pivot xs).2).Perm xs := by
  have h := foldl_place_perm lt pivot (firstToEnd xs) ([], [])
  simp only [List.append_nil] at h
  exact ((lastToFront_perm _).append_right _).trans (h.trans (firstToEnd_perm xs))

/-- A pivot between sorted parts of the others makes a permutation of the list. -/
theorem append_cons_perm {pivot x : τ} {below above others xs : List τ} {parts : List τ × List τ}
    (hb : below.Perm parts.1) (ha : above.Perm parts.2)
    (hp : (parts.1 ++ parts.2).Perm others) (ho : (pivot :: others).Perm (x :: xs)) :
    (below ++ pivot :: above).Perm (x :: xs) :=
  List.perm_middle.trans ((((hb.append ha).trans hp).cons pivot).trans ho)

theorem quickSort_perm (limit : Nat) (floor : Option τ) (xs : List τ) :
    (quickSort lt limit floor xs).Perm xs := by
  induction limit generalizing floor xs with
  | zero =>
    cases xs with
    | nil => exact .refl _
    | cons x xs =>
      unfold quickSort
      split
      · exact shortSort_perm lt _
      · exact heapSort_perm lt _
  | succ limit ih =>
    cases xs with
    | nil => exact .refl _
    | cons x xs =>
      unfold quickSort
      split
      · exact shortSort_perm lt _
      · dsimp only
        split
        · exact append_cons_perm (.refl _) (ih _ _) (split_perm _ _ _) (takeOut_perm _ _ _)
        · exact append_cons_perm (ih _ _) (ih _ _) (split_perm _ _ _) (takeOut_perm _ _ _)

theorem hybridSort_perm (xs : List τ) : (hybridSort lt xs).Perm xs := by
  unfold hybridSort
  split
  · exact insertionSort_perm lt xs
  · exact quickSort_perm lt _ _ xs

end ConicForm.Sorting
