import ConicForm.Sorting.Insertion

/-!
# Sorting networks

A sorting network is a fixed list of pairs of positions. Each pair puts its two elements in
order, and together the pairs sort any list of the network's size. A short list is sorted by
a network on its first nine or thirteen elements and by inserting the rest.

A network exchanges distant elements, so it does not keep the order of equal ones.

## Main definitions

* `exchange`: one pair of a network
* `nine`, `thirteen`: the networks of nine and thirteen positions
* `networkSort`, `shortSort`: the sorts of lists of up to seventeen and thirty-two elements

## Main results

* `networkSort_perm`, `shortSort_perm`: sorting permutes a list
-/

namespace ConicForm.Sorting

variable {τ : Type} (lt : τ → τ → Bool)

/-- Whether the element at one position is less than that at another. -/
def lessAt (v : Array τ) (i j : Nat) : Bool :=
  match v[i]?, v[j]? with
  | some x, some y => lt x y
  | _, _ => false

/-- Puts the elements at two positions in order. -/
def exchange (v : Array τ) (pair : Nat × Nat) : Array τ :=
  if lessAt lt v pair.2 pair.1 then v.swapIfInBounds pair.1 pair.2 else v

/-- The network of nine positions. -/
def nine : List (Nat × Nat) :=
  [(0, 3), (1, 7), (2, 5), (4, 8), (0, 7), (2, 4), (3, 8), (5, 6), (0, 2), (1, 3), (4, 5), (7, 8),
    (1, 4), (3, 6), (5, 7), (0, 1), (2, 4), (3, 5), (6, 8), (2, 3), (4, 5), (6, 7), (1, 2), (3, 4),
    (5, 6)]

/-- The network of thirteen positions. -/
def thirteen : List (Nat × Nat) :=
  [(0, 12), (1, 10), (2, 9), (3, 7), (5, 11), (6, 8), (1, 6), (2, 3), (4, 11), (7, 9), (8, 10),
    (0, 4), (1, 2), (3, 6), (7, 8), (9, 10), (11, 12), (4, 6), (5, 9), (8, 11), (10, 12), (0, 5),
    (3, 8), (4, 7), (6, 11), (9, 10), (0, 1), (2, 5), (6, 9), (7, 8), (10, 11), (1, 3), (2, 4),
    (5, 6), (9, 10), (1, 2), (3, 4), (5, 7), (6, 8), (2, 3), (4, 5), (6, 7), (8, 9), (3, 4), (5, 6)]

/-- The list after the exchanges of a network. -/
def runNetwork (network : List (Nat × Nat)) (xs : List τ) : List τ :=
  (network.foldl (exchange lt) xs.toArray).toList

/-- Sorts a list by the widest network that it fills and by insertion of the rest. -/
def networkSort (xs : List τ) : List τ :=
  if 13 ≤ xs.length then insertionSort lt (runNetwork lt thirteen xs)
  else if 9 ≤ xs.length then insertionSort lt (runNetwork lt nine xs)
  else insertionSort lt xs

/-- Sorts a short list: from eighteen elements on, the halves are sorted and merged. -/
def shortSort (xs : List τ) : List τ :=
  if xs.length < 18 then networkSort lt xs
  else
    (networkSort lt (xs.take (xs.length / 2))).merge (networkSort lt (xs.drop (xs.length / 2)))
      fun x y => !lt y x

/-! ## Permutation -/

theorem swapIfInBounds_perm (v : Array τ) (i j : Nat) : (v.swapIfInBounds i j).Perm v := by
  unfold Array.swapIfInBounds
  split
  · split
    · exact Array.swap_perm _ _
    · exact .refl _
  · exact .refl _

theorem exchange_perm (v : Array τ) (pair : Nat × Nat) : (exchange lt v pair).Perm v := by
  unfold exchange
  split
  · exact swapIfInBounds_perm _ _ _
  · exact .refl _

/-- A fold of steps that permute an array permutes it. -/
theorem foldl_perm {σ : Type} {step : Array τ → σ → Array τ} (h : ∀ v s, (step v s).Perm v)
    (ss : List σ) (v : Array τ) : (ss.foldl step v).Perm v := by
  induction ss generalizing v with
  | nil => exact .refl _
  | cons s ss ih => exact (ih _).trans (h v s)

theorem runNetwork_perm (network : List (Nat × Nat)) (xs : List τ) :
    (runNetwork lt network xs).Perm xs :=
  (foldl_perm (exchange_perm lt) network xs.toArray).toList

theorem networkSort_perm (xs : List τ) : (networkSort lt xs).Perm xs := by
  unfold networkSort
  split
  · exact (insertionSort_perm lt _).trans (runNetwork_perm lt _ _)
  · split
    · exact (insertionSort_perm lt _).trans (runNetwork_perm lt _ _)
    · exact insertionSort_perm lt _

theorem shortSort_perm (xs : List τ) : (shortSort lt xs).Perm xs := by
  unfold shortSort
  split
  · exact networkSort_perm lt xs
  · have h := (networkSort_perm lt (xs.take (xs.length / 2))).append
      (networkSort_perm lt (xs.drop (xs.length / 2)))
    rw [List.take_append_drop] at h
    exact (List.merge_perm_append _).trans h

end ConicForm.Sorting
