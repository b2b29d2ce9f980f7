import ConicForm.Proofs.Matrix.Rows

/-!
# Dense readings of matrix operations

A matrix with all its cells is determined by the sums of its triplets, cell by cell. In exact
arithmetic each operation on matrices, which only lists triplets, is therefore the operation of the
same name on matrices with all their cells. Zeros that are stored, triplets that cancel and matrices
without rows or columns make no difference.

## Main definitions

* `cellSum`: the sum of the triplets of a cell
* `DenseMatrix.stack`, `DenseMatrix.selectRows`: rows of matrices with all their cells
* `DenseMatrix.identity`, `DenseMatrix.kronecker`: the identity and the Kronecker product

## Main results

* `StoredMatrix.get_toDense`: a cell is the sum of its triplets
* `StoredMatrix.toDense_operations`: operations on matrices
-/

namespace ConicForm

/-! ## Matrices with all their cells -/

namespace DenseMatrix

variable {α : Type}

theorem ofFn_congr {r c : Nat} {f g : Nat → Nat → α} (h : ∀ i < r, ∀ j < c, f i j = g i j) :
    ofFn r c f = ofFn r c g := by
  refine ext rfl (List.map_congr_left fun i hi => List.map_congr_left fun j hj => ?_)
  exact h i (List.mem_range.mp hi) j (List.mem_range.mp hj)

variable [Zero α]

theorem get_eq_zero {a : DenseMatrix α} {i j : Nat} (h : i < a.nrows → a.ncols ≤ j) :
    a.get i j = 0 := by
  unfold get
  rcases Nat.lt_or_ge i a.nrows with hi | hi
  · rw [List.getD_eq_getElem _ _ hi, List.getD_eq_default]
    exact (a.length_row _ (List.getElem_mem hi)).trans_le (h hi)
  · rw [List.getD_eq_default _ _ hi]
    rfl

/-- Matrices below each other, each padded with zeros or cut to `n` columns. -/
def stack (as : List (DenseMatrix α)) (n : Nat) : DenseMatrix α where
  ncols := n
  rows := as.flatMap fun a => (List.range a.nrows).map fun i => (List.range n).map (a.get i)
  length_row := by
    intro r hr
    obtain ⟨a, -, hr⟩ := List.mem_flatMap.mp hr
    obtain ⟨i, -, rfl⟩ := List.mem_map.mp hr
    simp

theorem rows_stack_cons (a : DenseMatrix α) (as : List (DenseMatrix α)) (n : Nat) :
    (stack (a :: as) n).rows =
      ((List.range a.nrows).map fun i => (List.range n).map (a.get i)) ++ (stack as n).rows := rfl

theorem rows_stack_replicate (a : DenseMatrix α) (times n : Nat) :
    (stack (List.replicate times a) n).rows =
      (List.range (a.nrows * times)).map fun i => (List.range n).map (a.get (i % a.nrows)) := by
  have hreplicate : List.replicate times a = (List.range times).map fun _ => a := by simp
  show List.flatMap _ _ = _
  rw [hreplicate, Nat.mul_comm, List.flatMap_map]
  exact flatMap_range_map times a.nrows fun _ i => (List.range n).map (a.get i)

/-- The rows at the given positions, in that order; one that does not exist is zero. -/
def selectRows (a : DenseMatrix α) (selected : List Nat) : DenseMatrix α where
  ncols := a.ncols
  rows := selected.map fun i => (List.range a.ncols).map (a.get i)
  length_row := by simp

/-- The identity matrix. -/
def identity [One α] (n : Nat) : DenseMatrix α := ofFn n n fun i j => if i = j then 1 else 0

/-- The Kronecker product: a copy of `b` for each cell of `a`, multiplied by it. -/
def kronecker [Mul α] (a b : DenseMatrix α) : DenseMatrix α :=
  ofFn (a.nrows * b.nrows) (a.ncols * b.ncols) fun i j =>
    a.get (i / b.nrows) (j / b.ncols) * b.get (i % b.nrows) (j % b.ncols)

end DenseMatrix

variable {K : Type} [Field K]

/-! ## Sums of cells -/

/-- The sum of the triplets of a cell. -/
def cellSum (ts : List (Entry K)) (i j : Nat) : K :=
  ((ts.filter fun e => e.row = i ∧ e.col = j).map Entry.value).sum

section CellSum

variable {ts us : List (Entry K)} {i j : Nat}

theorem cellSum_append : cellSum (ts ++ us) i j = cellSum ts i j + cellSum us i j := by
  simp [cellSum]

theorem cellSum_eq_zero (h : ∀ e ∈ ts, e.row = i → e.col ≠ j) : cellSum ts i j = 0 := by
  have hnil : ts.filter (fun e => e.row = i ∧ e.col = j) = [] :=
    List.filter_eq_nil_iff.mpr fun e he hcell => by
      have hcell := of_decide_eq_true hcell
      exact h e he hcell.1 hcell.2
  rw [cellSum, hnil]
  rfl

theorem cellSum_map_add (offset : Nat) (ts : List (Entry K)) (i j : Nat) :
    cellSum (ts.map fun e => { e with row := offset + e.row }) (offset + i) j = cellSum ts i j := by
  simp [cellSum, List.filter_map, Function.comp_def]

/-- The sum of a cell under weights: its row is weighted at the assignment to its column. -/
theorem cellSum_eq_weightedSum (ts : List (Entry K)) (i j : Nat) :
    cellSum ts i j =
      weightedSum (fun r c => if r = i then (Pi.single j 1 : Nat → K) c else 0) ts := by
  induction ts with
  | nil => rfl
  | cons e ts ih =>
    rw [weightedSum_cons, ← ih, ← List.singleton_append, cellSum_append]
    congr 1
    by_cases hrow : e.row = i <;> by_cases hcol : e.col = j <;> simp [cellSum, hrow, hcol]

/-- In a list with at most one entry for a cell, that entry has the sum. -/
theorem getD_find?_eq_cellSum {es : List (Entry K)} (h : es.Pairwise Entry.Before) (i j : Nat) :
    ((es.find? fun e => e.row == i && e.col == j).map Entry.value).getD 0 = cellSum es i j := by
  induction es with
  | nil => rfl
  | cons e es ih =>
    obtain ⟨hbefore, hes⟩ := List.pairwise_cons.mp h
    rw [← List.singleton_append, cellSum_append, ← ih hes]
    by_cases hcell : e.row = i ∧ e.col = j
    · obtain ⟨rfl, rfl⟩ := hcell
      have hrest : es.find? (fun f => f.row == e.row && f.col == e.col) = none := by
        refine List.find?_eq_none.mpr fun f hf => ?_
        have := hbefore f hf
        unfold Entry.Before at this
        simp
        omega
      simp [cellSum, hrest]
    · have hskip : (e.row == i && e.col == j) = false := by simpa using hcell
      rw [cellSum_eq_zero (by simpa using hcell), zero_add, List.singleton_append,
        List.find?_cons_of_neg (by simp [hskip])]

end CellSum

namespace StoredMatrix

variable [LinearOrder K] {m n : StoredMatrix K} {i j : Nat}

/-! ## Cells -/

omit [LinearOrder K] in
theorem entry_eq_cellSum (m : StoredMatrix K) (i j : Nat) : m.entry i j = cellSum m.entries i j :=
  getD_find?_eq_cellSum m.sorted i j

theorem nrows_toDense (m : StoredMatrix K) : m.toDense.nrows = m.nrows := DenseMatrix.nrows_ofFn ..

/-- **A cell of a matrix**, inside or outside, is the sum of its triplets. -/
theorem get_toDense (m : StoredMatrix K) (i j : Nat) :
    m.toDense.get i j = cellSum m.entries i j := by
  by_cases h : i < m.nrows ∧ j < m.ncols
  · rw [toDense, DenseMatrix.get_ofFn h.1 h.2, entry_eq_cellSum]
  · rw [DenseMatrix.get_eq_zero, cellSum_eq_zero]
    · rintro e he rfl rfl
      exact h (m.in_range e he)
    · intro hi
      rw [toDense, DenseMatrix.nrows_ofFn] at hi
      exact Nat.le_of_not_lt fun hj => h ⟨hi, hj⟩

/-- Triplets out of range are in no cell. -/
theorem toDense_ofTriplets (r c : Nat) (ts : List (Entry K)) :
    (SparseMatrix.ofTriplets r c ts).toDense = .ofFn r c (cellSum ts) := by
  refine DenseMatrix.ofFn_congr fun i hi j hj => ?_
  rw [entry_eq_cellSum, cellSum_eq_weightedSum]
  show weightedSum _ (SparseMatrix.ofTriplets r c ts).entries = _
  rw [SparseMatrix.weightedSum_ofTriplets, ← cellSum_eq_weightedSum, cellSum, cellSum,
    List.filter_filter]
  congr 2
  refine List.filter_congr fun e _ => ?_
  by_cases hcell : e.row = i ∧ e.col = j
  · obtain ⟨rfl, rfl⟩ := hcell
    have hrange : e.InRange r c := ⟨hi, hj⟩
    simp [hrange]
  · simp [hcell]

/-! ## Operations -/

theorem toDense_add (m n : StoredMatrix K) : (m.add n).toDense =
    .ofFn m.nrows (max m.ncols n.ncols) fun i j => m.toDense.get i j + n.toDense.get i j := by
  refine (toDense_ofTriplets _ _ _).trans (DenseMatrix.ofFn_congr fun i _ j _ => ?_)
  rw [cellSum_append, get_toDense, get_toDense]

theorem toDense_scale (m : StoredMatrix K) (a : K) : (m.scale a).toDense =
    .ofFn m.nrows m.ncols fun i j => m.toDense.get i j * a := by
  refine (toDense_ofTriplets _ _ _).trans (DenseMatrix.ofFn_congr fun i _ j _ => ?_)
  rw [get_toDense, cellSum_eq_weightedSum, cellSum_eq_weightedSum, mul_comm, ← weightedSum_smul]
  exact weightedSum_map _ _ _ fun e _ => by ring

theorem toDense_repeatRows (m : StoredMatrix K) (times : Nat) : (m.repeatRows times).toDense =
    .stack (List.replicate times m.toDense) m.ncols := by
  refine (toDense_ofTriplets _ _ _).trans (DenseMatrix.ext rfl ?_)
  rw [DenseMatrix.rows_stack_replicate, nrows_toDense]
  refine List.map_congr_left fun i hi => List.map_congr_left fun j _ => ?_
  rw [get_toDense, cellSum_eq_weightedSum, cellSum_eq_weightedSum]
  exact weightedSum_flatMap _ _ _ fun e he =>
    SparseMatrix.weightedSum_copies _ (m.in_range e he).1 (List.mem_range.mp hi)

theorem toDense_selectRows (m : StoredMatrix K) (selected : List Nat) :
    (m.selectRows selected).toDense = m.toDense.selectRows selected := by
  refine (toDense_ofTriplets _ _ _).trans (DenseMatrix.ext rfl ?_)
  refine List.ext_getElem (by simp [DenseMatrix.ofFn, DenseMatrix.selectRows]) fun k hk hk' => ?_
  have hk : k < selected.length := by simpa [DenseMatrix.ofFn] using hk
  simp only [DenseMatrix.ofFn, DenseMatrix.selectRows, List.getElem_map, List.getElem_range]
  refine List.map_congr_left fun j _ => ?_
  rw [get_toDense, cellSum_eq_weightedSum, cellSum_eq_weightedSum]
  exact weightedSum_flatMap _ _ _ fun e _ => SparseMatrix.weightedSum_selected _ e hk

omit [Field K] [LinearOrder K] in
theorem offset_le_row_of_mem_stackEntries {ms : List (StoredMatrix K)} {offset : Nat} {e : Entry K}
    (h : e ∈ stackEntries offset ms) : offset ≤ e.row := by
  induction ms generalizing offset with
  | nil => cases h
  | cons m ms ih =>
    rcases List.mem_append.mp h with h | h
    · obtain ⟨f, -, rfl⟩ := List.mem_map.mp h
      exact Nat.le_add_right ..
    · exact (Nat.le_add_right ..).trans (ih h)

/-- The rows of a stack are those of its blocks, one block after another. -/
theorem map_cellSum_stackEntries (offset ncols : Nat) (ms : List (StoredMatrix K)) :
    (List.range (totalRows ms)).map (fun i =>
        (List.range ncols).map (cellSum (stackEntries offset ms) (offset + i))) =
      (DenseMatrix.stack (ms.map toDense) ncols).rows := by
  induction ms generalizing offset with
  | nil => rfl
  | cons m ms ih =>
    rw [totalRows, List.range_add, List.map_append, List.map_map, List.map_cons,
      DenseMatrix.rows_stack_cons, nrows_toDense, ← ih (offset + m.nrows), stackEntries]
    congr 1
    · refine List.map_congr_left fun i hi => List.map_congr_left fun j _ => ?_
      have hbelow : cellSum (stackEntries (offset + m.nrows) ms) (offset + i) j = 0 := by
        refine cellSum_eq_zero fun e he hrow => ?_
        have := offset_le_row_of_mem_stackEntries he
        have := List.mem_range.mp hi
        omega
      rw [cellSum_append, cellSum_map_add, hbelow, add_zero, get_toDense]
    · refine List.map_congr_left fun i _ => List.map_congr_left fun j _ => ?_
      have habove : cellSum m.entries (m.nrows + i) j = 0 := by
        refine cellSum_eq_zero fun e he hrow => ?_
        have := (m.in_range e he).1
        omega
      rw [cellSum_append, cellSum_map_add, habove, zero_add, Nat.add_assoc]

theorem toDense_stack (ms : List (StoredMatrix K)) (ncols : Nat) :
    (stack ms ncols).toDense = .stack (ms.map toDense) ncols := by
  refine (toDense_ofTriplets _ _ _).trans (DenseMatrix.ext rfl ?_)
  rw [← map_cellSum_stackEntries 0]
  simp only [Nat.zero_add]
  rfl

omit [LinearOrder K] in
/-- A row of the product with an identity leaves the cells of one row of the block that have the
place of the row in it. -/
theorem get_kronecker_identity (a : DenseMatrix K) {stride i k : Nat} (hi : i < a.nrows * stride)
    (hk : k < a.ncols * stride) : (a.kronecker (.identity stride)).get i k =
      if k % stride = i % stride then a.get (i / stride) (k / stride) else 0 := by
  have hpos : 0 < stride := Nat.pos_of_mul_pos_left (Nat.zero_lt_of_lt hi)
  have hrows : (DenseMatrix.identity stride : DenseMatrix K).nrows = stride :=
    DenseMatrix.nrows_ofFn ..
  have hcols : (DenseMatrix.identity stride : DenseMatrix K).ncols = stride := rfl
  rw [DenseMatrix.kronecker, hrows, hcols, DenseMatrix.get_ofFn hi hk, DenseMatrix.identity,
    DenseMatrix.get_ofFn (Nat.mod_lt _ hpos) (Nat.mod_lt _ hpos), mul_ite, mul_one, mul_zero]
  simp only [eq_comm (a := i % stride)]

theorem toDense_leftMul (a : DenseMatrix K) (m : StoredMatrix K) {stride : Nat}
    (h : m.nrows = a.ncols * stride) :
    (leftMul a m stride).toDense = (a.kronecker (.identity stride)).mul m.toDense := by
  have hrows : (a.kronecker (.identity stride : DenseMatrix K)).nrows = a.nrows * stride := by
    simp [DenseMatrix.kronecker, DenseMatrix.identity]
  refine (toDense_ofTriplets _ _ _).trans (DenseMatrix.ext rfl ?_)
  simp only [DenseMatrix.mul, DenseMatrix.ofFn, Scalar.sum_eq_sum, Scalar.sumFromFirst_eq_sum,
    ite_self, hrows]
  refine List.map_congr_left fun i hi => List.map_congr_left fun j _ => ?_
  have hi := List.mem_range.mp hi
  show cellSum _ i j = ∑ k ∈ Finset.range (a.ncols * stride), _
  -- both sides are sums over the triplets of `m`, with one weight for each
  have hterm : ∀ k ∈ Finset.range (a.ncols * stride),
      (a.kronecker (.identity stride)).get i k * m.toDense.get k j =
        (if k % stride = i % stride then a.get (i / stride) (k / stride) else 0) *
          weightedSum (fun r c => if r = k then (Pi.single j 1 : Nat → K) c else 0) m.entries := by
    intro k hk
    rw [get_kronecker_identity a hi (Finset.mem_range.mp hk), get_toDense, cellSum_eq_weightedSum]
  rw [Finset.sum_congr rfl hterm, cellSum_eq_weightedSum,
    sum_mul_weightedSum_row fun e he => h ▸ (m.in_range e he).1]
  exact weightedSum_flatMap _ _ _ fun e _ => SparseMatrix.weightedSum_multiples _ a hi

/-- **Operations on matrices are those on matrices with all their cells**, in exact arithmetic:
triplets in range add up cell by cell, a sum is taken over the wider of the two, copies and blocks
stand below each other, a row that does not exist is selected as zero, and the product with a block
that the rows list is the product with a Kronecker product. On sparse matrices, the operations are
those of the same name. -/
theorem toDense_operations :
    (∀ (r c : Nat) (ts : List (Entry K)),
      (SparseMatrix.ofTriplets r c ts).toDense = .ofFn r c (cellSum ts)) ∧
    (∀ m n : StoredMatrix K, (m.add n).toDense =
      .ofFn m.nrows (max m.ncols n.ncols) fun i j => m.toDense.get i j + n.toDense.get i j) ∧
    (∀ (m : StoredMatrix K) (a : K),
      (m.scale a).toDense = .ofFn m.nrows m.ncols fun i j => m.toDense.get i j * a) ∧
    (∀ (m : StoredMatrix K) (times : Nat),
      (m.repeatRows times).toDense = .stack (List.replicate times m.toDense) m.ncols) ∧
    (∀ (m : StoredMatrix K) (selected : List Nat),
      (m.selectRows selected).toDense = m.toDense.selectRows selected) ∧
    (∀ (ms : List (StoredMatrix K)) (ncols : Nat),
      (stack ms ncols).toDense = .stack (ms.map toDense) ncols) ∧
    (∀ (a : DenseMatrix K) (m : StoredMatrix K) (stride : Nat), m.nrows = a.ncols * stride →
      (leftMul a m stride).toDense = (a.kronecker (.identity stride)).mul m.toDense) ∧
    (∀ m n : SparseMatrix K, m.add n = m.toStoredMatrix.add n.toStoredMatrix ∧
      (∀ a, m.scale a = m.toStoredMatrix.scale a) ∧
      (∀ times, m.repeatRows times = m.toStoredMatrix.repeatRows times) ∧
      (∀ selected, m.selectRows selected = m.toStoredMatrix.selectRows selected) ∧
      ∀ a stride, SparseMatrix.leftMul a m stride = leftMul a m.toStoredMatrix stride) ∧
    ∀ (ms : List (SparseMatrix K)) (ncols : Nat),
      SparseMatrix.stack ms ncols = stack (ms.map SparseMatrix.toStoredMatrix) ncols :=
  ⟨toDense_ofTriplets, toDense_add, toDense_scale, toDense_repeatRows, toDense_selectRows,
    toDense_stack, fun a m _ => toDense_leftMul a m,
    fun _ _ => ⟨rfl, fun _ => rfl, fun _ => rfl, fun _ => rfl, fun _ _ => rfl⟩, fun _ _ => rfl⟩

/-- A column of four values, the first a zero that is stored. -/
def column : StoredMatrix ℚ where
  nrows := 4
  ncols := 1
  entries := [⟨0, 0, 0⟩, ⟨1, 0, 3⟩, ⟨3, 0, 5⟩]
  sorted := by decide
  in_range := by decide

theorem toDense_leftMul_column :
    column.nrows = (DenseMatrix.ofFn 1 2 fun _ j => (j + 1 : ℚ)).ncols * 2 ∧
      (leftMul (.ofFn 1 2 fun _ j => (j + 1 : ℚ)) column 2).toDense =
        ((DenseMatrix.ofFn 1 2 fun _ j => (j + 1 : ℚ)).kronecker (.identity 2)).mul column.toDense ∧
      (leftMul (.ofFn 1 2 fun _ j => (j + 1 : ℚ)) column 2).toDense.rows = [[0], [13]] := by
  obtain ⟨-, -, -, -, -, -, hproduct, -⟩ := toDense_operations (K := ℚ)
  exact ⟨rfl, hproduct _ column 2 rfl, by decide +kernel⟩

end StoredMatrix

end ConicForm
