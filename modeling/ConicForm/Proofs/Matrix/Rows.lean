import ConicForm.Proofs.Matrix.Cells
import ConicForm.Proofs.Matrix.Weight

/-!
# Row values of matrix operations

Each operation on matrices, read at an assignment of the columns, row by row.

## Main results

* `SparseMatrix.rowValue_add`, `SparseMatrix.rowValue_scale`: entrywise operations
* `SparseMatrix.rowValue_repeatRows`, `SparseMatrix.rowValue_selectRows`,
  `SparseMatrix.rowValue_sumRows`: operations on rows
* `SparseMatrix.rowValue_leftMul`, `DenseMatrix.getD_toList_mul`: products with a constant matrix
* `SparseMatrix.rowValue_stack_of_lt`, `SparseMatrix.rowValue_stack_add`: blocks below each
  other
-/

namespace ConicForm

/-- A cell of a row-major block with `n` columns. -/
theorem mul_add_eq_iff {n j : Nat} (hj : j < n) {p r : Nat} :
    p * n + j = r ↔ r / n = p ∧ r % n = j := by
  rw [Nat.div_mod_unique (Nat.zero_lt_of_lt hj), and_iff_left hj, Nat.mul_comm, Nat.add_comm]

/-- A block with `m` rows and `n` columns, row by row. -/
theorem flatMap_range_map {τ : Type} (m n : Nat) (f : Nat → Nat → τ) :
    (List.range m).flatMap (fun i => (List.range n).map (f i)) =
      (List.range (m * n)).map fun r => f (r / n) (r % n) := by
  induction m with
  | zero => simp
  | succ m ih =>
    rw [List.range_succ, List.flatMap_append, ih, Nat.succ_mul, List.range_add, List.map_append,
      List.map_map, List.flatMap_singleton]
    congr 1
    refine List.map_congr_left fun j hj => ?_
    obtain ⟨hdiv, hmod⟩ := (mul_add_eq_iff (List.mem_range.mp hj)).mp (Eq.refl (m * n + j))
    rw [Function.comp_apply, hdiv, hmod]

variable {K : Type} [Field K]

theorem sum_range_mul (m n : Nat) (f : Nat → K) :
    ∑ i ∈ Finset.range (m * n), f i =
      ∑ k ∈ Finset.range m, ∑ j ∈ Finset.range n, f (k * n + j) := by
  induction m with
  | zero => simp
  | succ m ih => rw [Nat.succ_mul, Finset.sum_range_add, ih, Finset.sum_range_succ]

/-- Triplets that are each replaced by several are a sum under another weight. -/
theorem weightedSum_flatMap (w : Nat → Nat → K) (f : Entry K → List (Entry K))
    (w' : Nat → Nat → K) {ts : List (Entry K)}
    (h : ∀ e ∈ ts, weightedSum w (f e) = e.value * w' e.row e.col) :
    weightedSum w (ts.flatMap f) = weightedSum w' ts := by
  induction ts with
  | nil => rfl
  | cons e ts ih =>
    rw [List.flatMap_cons, weightedSum_append, weightedSum_cons, h e (by simp),
      ih fun e he => h e (by simp [he])]

theorem weightedSum_filterMap {τ : Type} (w : Nat → Nat → K) (f : τ → Option (Entry K))
    (l : List τ) :
    weightedSum w (l.filterMap f) = (l.map fun a => weightedSum w (f a).toList).sum := by
  induction l with
  | nil => rfl
  | cons a l ih =>
    rw [List.filterMap_cons, List.map_cons, List.sum_cons, ← ih]
    cases f a <;> simp

namespace SparseMatrix

variable [LinearOrder K] (x : Nat → K)

theorem rowValue_add {m n : SparseMatrix K} (h : m.nrows = n.nrows) (i : Nat) :
    (m.add n).rowValue x i = m.rowValue x i + n.rowValue x i := by
  rw [rowValue, add, StoredMatrix.add, weightedSum_ofTriplets_of_inRange, weightedSum_append]
  · rfl
  · intro e he
    rcases List.mem_append.mp he with he | he
    · have := m.in_range e he
      exact ⟨this.1, this.2.trans_le (le_max_left _ _)⟩
    · have := n.in_range e he
      exact ⟨h ▸ this.1, this.2.trans_le (le_max_right _ _)⟩

theorem rowValue_scale (m : SparseMatrix K) (a : K) (i : Nat) :
    (m.scale a).rowValue x i = m.rowValue x i * a := by
  rw [rowValue, scale, StoredMatrix.scale, weightedSum_ofTriplets_of_inRange, mul_comm, rowValue,
    ← weightedSum_smul]
  · refine weightedSum_map _ _ _ fun e _ => ?_
    ring
  · intro e he
    obtain ⟨f, hf, rfl⟩ := List.mem_map.mp he
    exact m.in_range f hf

omit [LinearOrder K] in
/-- Of the copies of a triplet, each `n` rows below the one before, only that in the copy of the
rows around `i` counts. -/
theorem weightedSum_copies {e : Entry K} {n times i : Nat} (he : e.row < n) (hi : i < n * times) :
    weightedSum (fun r c => if r = i then x c else 0)
        ((List.range times).map fun t => { e with row := t * n + e.row }) =
      e.value * if e.row = i % n then x e.col else 0 := by
  have hcopy : ∀ t, t * n + e.row = i ↔ i / n = t ∧ i % n = e.row := fun t => mul_add_eq_iff he
  have hsum : ∀ t, e.value * (if t * n + e.row = i then x e.col else 0) =
      if i / n = t then e.value * (if e.row = i % n then x e.col else 0) else 0 := by
    intro t
    simp only [hcopy, eq_comm (b := e.row)]
    by_cases ht : i / n = t <;> simp [ht]
  rw [weightedSum, List.map_map, ← List.sum_toFinset _ List.nodup_range, List.toFinset_range]
  refine (Finset.sum_congr rfl fun t _ => hsum t).trans ?_
  rw [Finset.sum_ite_eq, if_pos (Finset.mem_range.mpr (Nat.div_lt_of_lt_mul hi))]

theorem rowValue_repeatRows (m : SparseMatrix K) {times i : Nat} (hi : i < m.nrows * times) :
    (m.repeatRows times).rowValue x i = m.rowValue x (i % m.nrows) := by
  rw [rowValue, repeatRows, StoredMatrix.repeatRows, weightedSum_ofTriplets_of_inRange]
  · exact weightedSum_flatMap _ _ _ fun e he => weightedSum_copies x (m.in_range e he).1 hi
  · intro e he
    obtain ⟨f, hf, he⟩ := List.mem_flatMap.mp he
    obtain ⟨t, ht, rfl⟩ := List.mem_map.mp he
    have hr := m.in_range f hf
    refine ⟨?_, hr.2⟩
    have ht := List.mem_range.mp ht
    calc t * m.nrows + f.row < t * m.nrows + m.nrows := by have := hr.1; omega
      _ = m.nrows * (t + 1) := by ring
      _ ≤ m.nrows * times := Nat.mul_le_mul_left _ ht

theorem rowValue_sumRows (m : SparseMatrix K) :
    m.sumRows.rowValue x 0 = ∑ i ∈ Finset.range m.nrows, m.rowValue x i := by
  have hrows := m.sum_mul_rowValue x fun _ => 1
  simp only [one_mul] at hrows
  rw [hrows, rowValue, sumRows, StoredMatrix.sumRows, weightedSum_ofTriplets_of_inRange]
  · exact weightedSum_map _ _ _ fun e _ => rfl
  · intro e he
    obtain ⟨f, hf, rfl⟩ := List.mem_map.mp he
    exact ⟨Nat.one_pos, (m.in_range f hf).2⟩

omit [LinearOrder K] in
/-- Of the copies of a triplet, one in each row that selects its own, that in row `k` counts. -/
theorem weightedSum_selected (e : Entry K) {selected : List Nat} {k : Nat}
    (hk : k < selected.length) :
    weightedSum (fun r c => if r = k then x c else 0)
        (selected.zipIdx.filterMap fun (i, k) =>
          if i = e.row then some { e with row := k } else none) =
      e.value * if e.row = selected[k] then x e.col else 0 := by
  rw [weightedSum_filterMap, sum_map_zipIdx (fun i l => weightedSum _
    (if i = e.row then some { e with row := l } else none).toList) selected 0,
    Finset.sum_eq_single k]
  · rw [List.getD_eq_getElem _ _ hk]
    by_cases h : selected[k] = e.row
    · simp [h]
    · simp [h, Ne.symm h]
  · intro l _ hl
    split <;> simp [hl]
  · intro h
    exact absurd (Finset.mem_range.mpr hk) h

theorem rowValue_selectRows (m : SparseMatrix K) {selected : List Nat} {k : Nat}
    (hk : k < selected.length) :
    (m.selectRows selected).rowValue x k = m.rowValue x selected[k] := by
  rw [rowValue, selectRows, StoredMatrix.selectRows, weightedSum_ofTriplets_of_inRange]
  · exact weightedSum_flatMap _ _ _ fun e _ => weightedSum_selected x e hk
  · intro e he
    obtain ⟨f, hf, he⟩ := List.mem_flatMap.mp he
    obtain ⟨⟨i, k⟩, hik, he⟩ := List.mem_filterMap.mp he
    dsimp only at he
    split at he
    · cases he
      exact ⟨by simpa using List.snd_lt_of_mem_zipIdx hik, (m.in_range f hf).2⟩
    · cases he

/-! ## Products with a constant matrix -/

/-- Of the multiples of a triplet, one for each row of `a`, only that for the row around `r`
counts. -/
theorem weightedSum_multiples (a : DenseMatrix K) {e : Entry K} {stride r : Nat}
    (hr : r < a.nrows * stride) :
    weightedSum (fun i c => if i = r then x c else 0)
        ((List.range a.nrows).filterMap fun p =>
          let c := a.get p (e.row / stride)
          if Scalar.isZero c then none
          else some { row := p * stride + e.row % stride, col := e.col, value := c * e.value }) =
      e.value * ((if e.row % stride = r % stride then a.get (r / stride) (e.row / stride) else 0) *
        x e.col) := by
  have hpos : 0 < stride := Nat.pos_of_mul_pos_left (Nat.zero_lt_of_lt hr)
  have hcell : ∀ p, p * stride + e.row % stride = r ↔
      r / stride = p ∧ r % stride = e.row % stride := fun p => mul_add_eq_iff (Nat.mod_lt _ hpos)
  rw [weightedSum_filterMap]
  show ∑ p ∈ Finset.range a.nrows, _ = _
  rw [Finset.sum_eq_single (r / stride)]
  · by_cases hz : a.get (r / stride) (e.row / stride) = 0
    · simp [hz]
    · simp only [Scalar.isZero_iff, hz, if_false, Option.toList_some, weightedSum_cons,
        weightedSum_nil, add_zero, hcell, true_and, eq_comm (a := r % stride)]
      split <;> ring
  · intro p _ hp
    have hne : p * stride + e.row % stride ≠ r := fun h => hp ((hcell p).mp h).1.symm
    dsimp only
    split
    · rfl
    · simp [hne]
  · intro h
    exact absurd (Finset.mem_range.mpr (Nat.div_lt_of_lt_mul (Nat.mul_comm _ _ ▸ hr))) h

theorem rowValue_leftMul (a : DenseMatrix K) {m : SparseMatrix K} {rows stride r : Nat}
    (hrows : m.nrows = rows * stride) (hr : r < a.nrows * stride) :
    (leftMul a m stride).rowValue x r =
      ∑ k ∈ Finset.range rows, a.get (r / stride) k * m.rowValue x (k * stride + r % stride) := by
  have hpos : 0 < stride := Nat.pos_of_mul_pos_left (Nat.zero_lt_of_lt hr)
  rw [rowValue, leftMul, StoredMatrix.leftMul, weightedSum_ofTriplets_of_inRange]
  · rw [weightedSum_flatMap _ _
        (fun i c => (if i % stride = r % stride then a.get (r / stride) (i / stride) else 0) * x c)
        fun e _ => weightedSum_multiples x a hr,
      ← sum_mul_rowValue, hrows, sum_range_mul]
    refine Finset.sum_congr rfl fun k _ => ?_
    rw [Finset.sum_eq_single (r % stride)]
    · obtain ⟨hdiv, hmod⟩ := (mul_add_eq_iff (Nat.mod_lt r hpos)).mp (Eq.refl (k * stride + _))
      rw [hdiv, hmod, if_pos rfl]
    · intro j hj hne
      obtain ⟨-, hmod⟩ := (mul_add_eq_iff (Finset.mem_range.mp hj)).mp (Eq.refl (k * stride + _))
      rw [hmod, if_neg hne, zero_mul]
    · intro h
      exact absurd (Finset.mem_range.mpr (Nat.mod_lt r hpos)) h
  · intro e he
    obtain ⟨f, hf, he⟩ := List.mem_flatMap.mp he
    obtain ⟨p, hp, he⟩ := List.mem_filterMap.mp he
    dsimp only at he
    split at he
    · cases he
    · cases he
      refine ⟨?_, (m.in_range f hf).2⟩
      have hmod : f.row % stride < stride := Nat.mod_lt _ hpos
      calc p * stride + f.row % stride < (p + 1) * stride := by rw [Nat.succ_mul]; omega
        _ ≤ a.nrows * stride := Nat.mul_le_mul_right _ (List.mem_range.mp hp)

/-! ## Blocks below each other -/

theorem weightedSum_stackEntries_cons (w : Nat → Nat → K) (offset : Nat) (m : SparseMatrix K)
    (ms : List (SparseMatrix K)) :
    weightedSum w (stackEntries offset (m :: ms)) =
      weightedSum (fun r c => w (offset + r) c) m.entries +
        weightedSum w (stackEntries (offset + m.nrows) ms) := by
  rw [stackEntries_cons, weightedSum_append]
  congr 1
  exact weightedSum_map _ _ _ fun e _ => rfl

theorem weightedSum_stackEntries_add (w : Nat → Nat → K) (a b : Nat)
    (ms : List (SparseMatrix K)) :
    weightedSum w (stackEntries (a + b) ms) =
      weightedSum (fun r c => w (a + r) c) (stackEntries b ms) := by
  induction ms generalizing b with
  | nil => rfl
  | cons m ms ih =>
    rw [weightedSum_stackEntries_cons, weightedSum_stackEntries_cons, Nat.add_assoc, ih]
    simp only [Nat.add_assoc]

theorem rowValue_stack (ms : List (SparseMatrix K)) {ncols : Nat} (h : ∀ m ∈ ms, m.ncols ≤ ncols)
    (i : Nat) : (stack ms ncols).rowValue x i =
      weightedSum (fun r c => if r = i then x c else 0) (stackEntries 0 ms) := by
  rw [rowValue, stack_eq, weightedSum_ofTriplets_of_inRange]
  intro e he
  have := (stackEntries_inRange h 0 e he).2
  rwa [Nat.zero_add] at this

section Stack

variable {m : SparseMatrix K} {ms : List (SparseMatrix K)} {ncols : Nat}
  (h : ∀ k ∈ m :: ms, k.ncols ≤ ncols) (i : Nat)

include h

/-- The first rows of a stack are those of its first block. -/
theorem rowValue_stack_of_lt (hi : i < m.nrows) :
    (stack (m :: ms) ncols).rowValue x i = m.rowValue x i := by
  rw [rowValue_stack x _ h, weightedSum_stackEntries_cons]
  have hrest : weightedSum (fun r c => if r = i then x c else 0) (stackEntries (0 + m.nrows) ms) =
      0 := by
    refine weightedSum_eq_zero fun e he => if_neg ?_
    have := (stackEntries_inRange (fun k hk => h k (by simp [hk])) _ e he).1
    omega
  rw [hrest, add_zero]
  simp only [Nat.zero_add]
  rfl

/-- The other rows of a stack are those of the stack of its other blocks. -/
theorem rowValue_stack_add :
    (stack (m :: ms) ncols).rowValue x (m.nrows + i) = (stack ms ncols).rowValue x i := by
  rw [rowValue_stack x _ h, rowValue_stack x _ fun k hk => h k (by simp [hk]),
    weightedSum_stackEntries_cons, Nat.zero_add, ← Nat.add_zero m.nrows,
    weightedSum_stackEntries_add]
  have hfirst : weightedSum (fun r c => if 0 + r = m.nrows + 0 + i then x c else 0) m.entries =
      0 := by
    refine weightedSum_eq_zero fun e he => if_neg ?_
    have := (m.in_range e he).1
    omega
  rw [hfirst, zero_add]
  simp only [Nat.add_zero, Nat.add_left_cancel_iff]

end Stack

end SparseMatrix

namespace DenseMatrix

omit [Field K] in
theorem toList_ofFn (m n : Nat) (f : Nat → Nat → K) :
    (ofFn m n f).toList = (List.range (m * n)).map fun r => f (r / n) (r % n) := by
  rw [← flatMap_range_map, List.flatMap_def]
  rfl

/-- The cells of a product, row by row, are those of the matrix product: the order in which their
terms are added does not matter. -/
theorem getD_toList_mul [LinearOrder K] (a b : DenseMatrix K) {r : Nat}
    (hr : r < a.nrows * b.ncols) :
    (a.mul b).toList.getD r 0 =
      ∑ k ∈ Finset.range a.ncols, a.get (r / b.ncols) k * b.get k (r % b.ncols) := by
  rw [mul, toList_ofFn, List.getD_eq_getElem _ _ (by simpa using hr)]
  simp only [List.getElem_map, List.getElem_range, Scalar.sum_eq_sum, Scalar.sumFromFirst_eq_sum,
    ite_self]
  rfl

end DenseMatrix

end ConicForm
