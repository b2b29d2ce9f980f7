import ConicForm.Proofs.Exact

/-!
# Weighted sums of triplets

In exact arithmetic a list of triplets is described by its weighted sums: the value of each
triplet, times a weight that depends on the cell. Neither the order of the triplets nor
adding up those of one cell changes such a sum, so a matrix built from triplets has the
weighted sums of its triplets. The value of a row at an assignment of the columns is an
instance.

## Main definitions

* `weightedSum`: the sum of the triplets under a weight
* `SparseMatrix.rowValue`: `(A x)ᵢ`

## Main results

* `SparseMatrix.weightedSum_ofTriplets`: a matrix has the weighted sums of its triplets
* `sum_mul_weightedSum_row`: the rows of triplets, added up under multipliers
* `SparseMatrix.sum_mul_rowValue`: `y · (A x)` as one sum
-/

namespace ConicForm

variable {K : Type} [Field K]

/-- The sum over a list with positions is a sum over the positions. -/
theorem sum_map_zipIdx {τ : Type} (f : τ → Nat → K) (l : List τ) (d : τ) :
    (l.zipIdx.map fun q => f q.1 q.2).sum = ∑ k ∈ Finset.range l.length, f (l.getD k d) k := by
  induction l using List.reverseRecOn with
  | nil => simp
  | append_singleton l a ih =>
    rw [List.zipIdx_append, List.map_append, List.sum_append, ih, List.length_append,
      List.length_singleton, Finset.sum_range_succ]
    congr 1
    · refine Finset.sum_congr rfl fun k hk => ?_
      rw [List.getD_append _ _ _ _ (Finset.mem_range.mp hk)]
    · simp

/-- The sum of the values of triplets, each times the weight of its cell. -/
def weightedSum (w : Nat → Nat → K) (ts : List (Entry K)) : K :=
  (ts.map fun e => e.value * w e.row e.col).sum

section WeightedSum

variable (w : Nat → Nat → K)

@[simp] theorem weightedSum_nil : weightedSum w [] = 0 := rfl

@[simp] theorem weightedSum_cons (e : Entry K) (ts : List (Entry K)) :
    weightedSum w (e :: ts) = e.value * w e.row e.col + weightedSum w ts := by
  simp [weightedSum]

@[simp] theorem weightedSum_append (ts us : List (Entry K)) :
    weightedSum w (ts ++ us) = weightedSum w ts + weightedSum w us := by
  simp [weightedSum]

theorem weightedSum_perm {ts us : List (Entry K)} (h : ts.Perm us) :
    weightedSum w ts = weightedSum w us :=
  (h.map _).sum_eq

variable {w} in
theorem weightedSum_congr {w' : Nat → Nat → K} {ts : List (Entry K)}
    (h : ∀ e ∈ ts, w e.row e.col = w' e.row e.col) : weightedSum w ts = weightedSum w' ts := by
  unfold weightedSum
  rw [List.map_congr_left fun e he => by rw [h e he]]

variable {w} in
theorem weightedSum_eq_zero {ts : List (Entry K)} (h : ∀ e ∈ ts, w e.row e.col = 0) :
    weightedSum w ts = 0 := by
  refine List.sum_eq_zero fun a ha => ?_
  obtain ⟨e, he, rfl⟩ := List.mem_map.mp ha
  rw [h e he, mul_zero]

/-- Triplets whose values and cells change are a sum under another weight. -/
theorem weightedSum_map (f : Entry K → Entry K) (w' : Nat → Nat → K) {ts : List (Entry K)}
    (h : ∀ e ∈ ts, (f e).value * w (f e).row (f e).col = e.value * w' e.row e.col) :
    weightedSum w (ts.map f) = weightedSum w' ts := by
  unfold weightedSum
  rw [List.map_map]
  exact congrArg List.sum (List.map_congr_left h)

theorem weightedSum_smul (a : K) (ts : List (Entry K)) :
    weightedSum (fun i j => a * w i j) ts = a * weightedSum w ts := by
  induction ts with
  | nil => simp
  | cons e ts ih => rw [weightedSum_cons, weightedSum_cons, ih]; ring

theorem weightedSum_sum {ι : Type} (s : Finset ι) (v : ι → Nat → Nat → K) (ts : List (Entry K)) :
    weightedSum (fun i j => ∑ k ∈ s, v k i j) ts = ∑ k ∈ s, weightedSum (v k) ts := by
  induction ts with
  | nil => simp
  | cons e ts ih =>
    simp only [weightedSum_cons, ih, Finset.sum_add_distrib, Finset.mul_sum]

/-- Triplets of value zero do not count. -/
theorem weightedSum_filter_nonzero [LinearOrder K] (ts : List (Entry K)) :
    weightedSum w (ts.filter fun e => !Scalar.isZero e.value) = weightedSum w ts := by
  induction ts with
  | nil => rfl
  | cons e ts ih =>
    by_cases h : e.value = 0
    · rw [List.filter_cons_of_neg (by simpa using h), ih, weightedSum_cons, h, zero_mul, zero_add]
    · rw [List.filter_cons_of_pos (by simpa using h), weightedSum_cons, weightedSum_cons, ih]

theorem weightedSum_accumulate (e : Entry K) (es : List (Entry K)) :
    weightedSum w (accumulate e es) = e.value * w e.row e.col + weightedSum w es := by
  induction es with
  | nil => simp [accumulate]
  | cons f fs ih =>
    unfold accumulate
    split
    · simp
    · split
      · rw [weightedSum_cons, ih, weightedSum_cons]
        ring
      · next he hf =>
        obtain ⟨hr, hc⟩ := Entry.cell_eq_of_not_before he hf
        rw [weightedSum_cons, weightedSum_cons, hr, hc]
        ring

theorem weightedSum_gather (ts : List (Entry K)) :
    weightedSum w (gather ts) = weightedSum w ts := by
  -- for the induction, the entries gathered so far are arbitrary
  suffices h : ∀ es, weightedSum w (ts.foldl (fun es e => accumulate e es) es) =
      weightedSum w ts + weightedSum w es by
    simpa [gather] using h []
  induction ts with
  | nil => simp
  | cons e ts ih =>
    intro es
    rw [List.foldl_cons, ih, weightedSum_accumulate, weightedSum_cons]
    ring

end WeightedSum

/-- The rows of triplets, added up under multipliers `g`. -/
theorem sum_mul_weightedSum_row {n : Nat} {ts : List (Entry K)} (h : ∀ e ∈ ts, e.row < n)
    (g : Nat → K) (f : Nat → Nat → K) :
    ∑ i ∈ Finset.range n, g i * weightedSum (fun r c => if r = i then f r c else 0) ts =
      weightedSum (fun r c => g r * f r c) ts := by
  simp only [← weightedSum_smul, ← weightedSum_sum, mul_ite, mul_zero]
  refine weightedSum_congr fun e he => ?_
  rw [Finset.sum_ite_eq, if_pos (Finset.mem_range.mpr (h e he))]

namespace SparseMatrix

variable [LinearOrder K]

/-- **A matrix has the weighted sums of its triplets**, apart from those out of range. -/
theorem weightedSum_ofTriplets (w : Nat → Nat → K) (nrows ncols : Nat) (ts : List (Entry K)) :
    weightedSum w (ofTriplets nrows ncols ts).entries =
      weightedSum w (ts.filter fun e => e.InRange nrows ncols) := by
  show weightedSum w (List.filter _ (gather _)) = _
  rw [weightedSum_filter_nonzero, weightedSum_gather]
  exact weightedSum_perm w (summationOrder_perm _)

theorem weightedSum_ofTriplets_of_inRange (w : Nat → Nat → K) {nrows ncols : Nat}
    {ts : List (Entry K)} (h : ∀ e ∈ ts, e.InRange nrows ncols) :
    weightedSum w (ofTriplets nrows ncols ts).entries = weightedSum w ts := by
  rw [weightedSum_ofTriplets, List.filter_eq_self.mpr fun e he => decide_eq_true (h e he)]

/-- The value of a row at an assignment of the columns, `(A x)ᵢ`. -/
def rowValue (m : SparseMatrix K) (x : Nat → K) (i : Nat) : K :=
  weightedSum (fun r c => if r = i then x c else 0) m.entries

/-- A row takes its value from the columns of the matrix. -/
theorem rowValue_congr {m : SparseMatrix K} {x x' : Nat → K} (h : ∀ j < m.ncols, x j = x' j)
    (i : Nat) : m.rowValue x i = m.rowValue x' i :=
  weightedSum_congr fun e he => by rw [h _ (m.in_range e he).2]

@[simp] theorem rowValue_zero (m : SparseMatrix K) (i : Nat) : m.rowValue 0 i = 0 :=
  weightedSum_eq_zero fun e _ => by simp

theorem rowValue_of_nrows_le {m : SparseMatrix K} {i : Nat} (h : m.nrows ≤ i) (x : Nat → K) :
    m.rowValue x i = 0 := by
  refine weightedSum_eq_zero fun e he => if_neg ?_
  have := (m.in_range e he).1
  omega

/-- **`y · (A x)` as one sum over the stored entries.** -/
theorem sum_mul_rowValue (m : SparseMatrix K) (x y : Nat → K) :
    ∑ i ∈ Finset.range m.nrows, y i * m.rowValue x i =
      weightedSum (fun r c => y r * x c) m.entries :=
  sum_mul_weightedSum_row (fun e he => (m.in_range e he).1) y fun _ c => x c

end SparseMatrix

end ConicForm
