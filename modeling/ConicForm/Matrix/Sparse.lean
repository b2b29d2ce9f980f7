import ConicForm.Scalar
import ConicForm.Sorting.Hybrid

/-!
# Sparse matrices

A matrix is stored by entries column by column, the rows of a column ascending, with at
most one entry for a cell; a sparse matrix stores no zeros. It is built from triplets: those
out of range are dropped, those of one cell are added, and a cell that comes to zero is not
stored.

The triplets of a column are sorted by row before they are added, so those of one cell are
added in the order in which the sort leaves them: as given in a column of at most twenty
triplets, and in an order that depends on the whole column in a longer one.

## Main definitions

* `Entry`: a value at a cell
* `summationOrder`: triplets in the order in which they are added
* `StoredMatrix`: entries in column-major order, zero or not
* `SparseMatrix`: nonzero entries in column-major order
* `SparseMatrix.ofTriplets`: the matrix of a list of triplets
* `StoredMatrix.entry`, `SparseMatrix.rowPattern`: the value of a cell, the columns of a row

## Main results

* `summationOrder_perm`: every triplet is added once
* `SparseMatrix.mem_rowPattern`: a row's pattern lists the columns of its stored entries
* `SparseMatrix.sorted_rowPattern`: in ascending order
-/

namespace ConicForm

variable {α : Type}

/-- A value at a cell of a matrix. -/
structure Entry (α : Type) where
  row : Nat
  col : Nat
  value : α
  deriving Repr

namespace Entry

/-- The column-major order of cells. -/
def Before (e f : Entry α) : Prop := e.col < f.col ∨ e.col = f.col ∧ e.row < f.row

instance (e f : Entry α) : Decidable (e.Before f) :=
  inferInstanceAs (Decidable (_ ∨ _))

/-- Whether an entry lies in a matrix of the given size. -/
def InRange (nrows ncols : Nat) (e : Entry α) : Prop := e.row < nrows ∧ e.col < ncols

instance (nrows ncols : Nat) (e : Entry α) : Decidable (e.InRange nrows ncols) :=
  inferInstanceAs (Decidable (_ ∧ _))

theorem Before.trans {e f g : Entry α} (h : e.Before f) (k : f.Before g) : e.Before g := by
  unfold Before at *
  omega

/-- Entries of which neither is before the other lie in one cell. -/
theorem cell_eq_of_not_before {e f : Entry α} (h : ¬ e.Before f) (k : ¬ f.Before e) :
    e.row = f.row ∧ e.col = f.col := by
  unfold Before at *
  omega

instance [BEq α] : BEq (Entry α) where
  beq e f := e.row == f.row && e.col == f.col && e.value == f.value

end Entry

/-- Adds a triplet to entries in column-major order: to the entry of its cell, or as a new
entry in its place. -/
def accumulate [Add α] (e : Entry α) : List (Entry α) → List (Entry α)
  | [] => [e]
  | f :: fs =>
    if e.Before f then e :: f :: fs
    else if f.Before e then f :: accumulate e fs
    else { f with value := f.value + e.value } :: fs

/-- The cells after adding a triplet are the triplet's and those there before. -/
theorem exists_cell_of_mem_accumulate [Add α] {e g : Entry α} {es : List (Entry α)}
    (h : g ∈ accumulate e es) :
    g.row = e.row ∧ g.col = e.col ∨ ∃ f ∈ es, g.row = f.row ∧ g.col = f.col := by
  induction es with
  | nil => simp_all [accumulate]
  | cons f fs ih =>
    unfold accumulate at h
    split at h
    · rcases List.mem_cons.mp h with rfl | h
      · exact .inl ⟨rfl, rfl⟩
      · exact .inr ⟨g, h, rfl, rfl⟩
    · split at h
      · rcases List.mem_cons.mp h with rfl | h
        · exact .inr ⟨g, by simp, rfl, rfl⟩
        · rcases ih h with h | ⟨f', hf', h⟩
          · exact .inl h
          · exact .inr ⟨f', by simp [hf'], h⟩
      · rcases List.mem_cons.mp h with rfl | h
        · exact .inr ⟨f, by simp, rfl, rfl⟩
        · exact .inr ⟨g, by simp [h], rfl, rfl⟩

theorem sorted_accumulate [Add α] (e : Entry α) {es : List (Entry α)}
    (h : es.Pairwise Entry.Before) : (accumulate e es).Pairwise Entry.Before := by
  induction es with
  | nil => simp [accumulate]
  | cons f fs ih =>
    obtain ⟨hf, hfs⟩ := List.pairwise_cons.mp h
    unfold accumulate
    split
    · next hb =>
      refine List.pairwise_cons.mpr ⟨fun g hg => ?_, h⟩
      rcases List.mem_cons.mp hg with rfl | hg
      · exact hb
      · exact hb.trans (hf g hg)
    · split
      · next hb =>
        refine List.pairwise_cons.mpr ⟨fun g hg => ?_, ih hfs⟩
        rcases exists_cell_of_mem_accumulate hg with ⟨hr, hc⟩ | ⟨f', hf', hr, hc⟩
        · simpa only [Entry.Before, hr, hc] using hb
        · simpa only [Entry.Before, hr, hc] using hf f' hf'
      · exact List.pairwise_cons.mpr ⟨hf, hfs⟩

/-- The triplets of a list added up by cell, in column-major order. -/
def gather [Add α] (triplets : List (Entry α)) : List (Entry α) :=
  triplets.foldl (fun es e => accumulate e es) []

theorem sorted_gather [Add α] (triplets : List (Entry α)) :
    (gather triplets).Pairwise Entry.Before := by
  suffices h : ∀ es : List (Entry α), es.Pairwise Entry.Before →
      (triplets.foldl (fun es e => accumulate e es) es).Pairwise Entry.Before from h [] .nil
  induction triplets with
  | nil => exact fun _ h => h
  | cons e ts ih => exact fun es h => ih _ (sorted_accumulate e h)

theorem exists_cell_of_mem_gather [Add α] {triplets : List (Entry α)} {g : Entry α}
    (h : g ∈ gather triplets) : ∃ e ∈ triplets, g.row = e.row ∧ g.col = e.col := by
  suffices hs : ∀ es : List (Entry α), g ∈ triplets.foldl (fun es e => accumulate e es) es →
      (∃ e ∈ triplets, g.row = e.row ∧ g.col = e.col) ∨ ∃ e ∈ es, g.row = e.row ∧ g.col = e.col by
    simpa using hs [] h
  clear h
  induction triplets with
  | nil => exact fun es h => .inr ⟨g, h, rfl, rfl⟩
  | cons e ts ih =>
    intro es h
    rcases ih _ h with ⟨f, hf, hc⟩ | ⟨f, hf, hc⟩
    · exact .inl ⟨f, by simp [hf], hc⟩
    · rcases exists_cell_of_mem_accumulate hf with he | ⟨f', hf', he⟩
      · exact .inl ⟨e, by simp, hc.1.trans he.1, hc.2.trans he.2⟩
      · exact .inr ⟨f', hf', hc.1.trans he.1, hc.2.trans he.2⟩

/-! ## The order of summation -/

/-- The triplets of a column, sorted by row. -/
def lane (triplets : List (Entry α)) (j : Nat) : List (Entry α) :=
  Sorting.hybridSort (fun e f => e.row < f.row) (triplets.filter fun e => e.col == j)

/-- The triplets in the order in which they are added: column by column, those of a column
sorted by row. -/
def summationOrder (triplets : List (Entry α)) : List (Entry α) :=
  (triplets.map Entry.col).eraseDups.flatMap (lane triplets)

theorem lane_perm (triplets : List (Entry α)) (j : Nat) :
    (lane triplets j).Perm (triplets.filter fun e => e.col == j) :=
  Sorting.hybridSort_perm _ _

/-- The triplets of other columns do not matter for a lane. -/
theorem lane_filter_col_ne {triplets : List (Entry α)} {j k : Nat} (h : j ≠ k) :
    lane (triplets.filter fun e => !e.col == k) j = lane triplets j := by
  unfold lane
  rw [List.filter_filter]
  congr 1
  refine List.filter_congr fun e _ => ?_
  by_cases hj : e.col = j <;> simp_all

theorem summationOrder_cons (e : Entry α) (ts : List (Entry α)) :
    summationOrder (e :: ts) =
      lane (e :: ts) e.col ++ summationOrder (ts.filter fun f => !f.col == e.col) := by
  have hts : (e :: ts).filter (fun f => !f.col == e.col) = ts.filter fun f => !f.col == e.col := by
    simp
  have hcols : (ts.map Entry.col).filter (fun j => !j == e.col) =
      (ts.filter fun f => !f.col == e.col).map Entry.col := List.filter_map
  unfold summationOrder
  rw [List.map_cons, List.eraseDups_cons, List.flatMap_cons, hcols, List.flatMap_def,
    List.flatMap_def]
  congr 2
  refine List.map_congr_left fun j hj => ?_
  obtain ⟨f, hf, rfl⟩ := List.mem_map.mp (List.mem_eraseDups.mp hj)
  rw [← hts, lane_filter_col_ne (by simpa using (List.mem_filter.mp hf).2)]

/-- Every triplet is added once. -/
theorem summationOrder_perm (triplets : List (Entry α)) :
    (summationOrder triplets).Perm triplets := by
  induction h : triplets.length using Nat.strongRecOn generalizing triplets with
  | ind n ih =>
    match triplets, h with
    | [], _ => exact .refl _
    | e :: ts, h =>
      have hlt : (ts.filter fun f => !f.col == e.col).length < n := by
        have := List.length_filter_le (fun f => !f.col == e.col) ts
        simp only [List.length_cons] at h
        omega
      have hts := (lane_perm (e :: ts) e.col).append (ih _ hlt _ rfl)
      have hsplit := List.filter_append_perm (fun f : Entry α => f.col == e.col) (e :: ts)
      rw [summationOrder_cons]
      simpa using hts.trans (by simpa using hsplit)

theorem mem_summationOrder {e : Entry α} {triplets : List (Entry α)} :
    e ∈ summationOrder triplets ↔ e ∈ triplets :=
  (summationOrder_perm triplets).mem_iff

/-- A matrix stored by entries in column-major order, some of which may be zero. -/
structure StoredMatrix (α : Type) where
  nrows : Nat
  ncols : Nat
  entries : List (Entry α)
  sorted : entries.Pairwise Entry.Before
  in_range : ∀ e ∈ entries, e.InRange nrows ncols

/-- The value of a cell, zero where nothing is stored. -/
def StoredMatrix.entry [Zero α] (m : StoredMatrix α) (i j : Nat) : α :=
  ((m.entries.find? fun e => e.row == i && e.col == j).map Entry.value).getD 0

/-- A matrix stored by its nonzero entries in column-major order. -/
structure SparseMatrix (α : Type) [Scalar α] extends StoredMatrix α where
  nonzero : ∀ e ∈ entries, Scalar.isZero e.value = false

namespace SparseMatrix

variable [Scalar α]

@[ext] theorem ext {m n : SparseMatrix α} (hr : m.nrows = n.nrows) (hc : m.ncols = n.ncols)
    (he : m.entries = n.entries) : m = n := by
  obtain ⟨⟨_, _, _, _, _⟩, _⟩ := m
  obtain ⟨⟨_, _, _, _, _⟩, _⟩ := n
  cases hr
  cases hc
  cases he
  rfl

instance : BEq (SparseMatrix α) where
  beq m n := m.nrows == n.nrows && m.ncols == n.ncols && m.entries == n.entries

/-- The matrix of a list of triplets. -/
def ofTriplets (nrows ncols : Nat) (triplets : List (Entry α)) : SparseMatrix α where
  nrows := nrows
  ncols := ncols
  entries :=
    (gather (summationOrder (triplets.filter fun e => e.InRange nrows ncols))).filter
      fun e => !Scalar.isZero e.value
  sorted := (sorted_gather _).filter _
  in_range := by
    intro e he
    obtain ⟨f, hf, hr, hc⟩ := exists_cell_of_mem_gather (List.mem_filter.mp he).1
    have := of_decide_eq_true (List.mem_filter.mp (mem_summationOrder.mp hf)).2
    simpa only [Entry.InRange, hr, hc] using this
  nonzero := by simp

@[simp] theorem nrows_ofTriplets (nrows ncols : Nat) (ts : List (Entry α)) :
    (ofTriplets nrows ncols ts).nrows = nrows := rfl

@[simp] theorem ncols_ofTriplets (nrows ncols : Nat) (ts : List (Entry α)) :
    (ofTriplets nrows ncols ts).ncols = ncols := rfl

/-- The matrix without stored entries. -/
def zero (nrows ncols : Nat) : SparseMatrix α := ⟨⟨nrows, ncols, [], .nil, by simp⟩, by simp⟩

@[simp] theorem nrows_zero (nrows ncols : Nat) :
    (zero nrows ncols : SparseMatrix α).nrows = nrows := rfl

@[simp] theorem ncols_zero (nrows ncols : Nat) :
    (zero nrows ncols : SparseMatrix α).ncols = ncols := rfl

@[simp] theorem entries_zero (nrows ncols : Nat) :
    (zero nrows ncols : SparseMatrix α).entries = [] := rfl

/-- The number of stored entries. -/
def count (m : SparseMatrix α) : Nat := m.entries.length

/-- The columns of the stored entries of a row, ascending. -/
def rowPattern (m : SparseMatrix α) (i : Nat) : List Nat :=
  (m.entries.filter fun e => e.row == i).map Entry.col

theorem mem_rowPattern {m : SparseMatrix α} {i j : Nat} :
    j ∈ m.rowPattern i ↔ ∃ e ∈ m.entries, e.row = i ∧ e.col = j := by
  simp [rowPattern, and_assoc]

theorem sorted_rowPattern (m : SparseMatrix α) (i : Nat) : (m.rowPattern i).Pairwise (· < ·) := by
  refine List.pairwise_map.mpr ((m.sorted.filter _).imp_of_mem ?_)
  intro e f he hf h
  have he := (List.mem_filter.mp he).2
  have hf := (List.mem_filter.mp hf).2
  simp only [beq_iff_eq] at he hf
  unfold Entry.Before at h
  omega

theorem lt_ncols_of_mem_rowPattern {m : SparseMatrix α} {i j : Nat} (h : j ∈ m.rowPattern i) :
    j < m.ncols := by
  obtain ⟨e, he, -, rfl⟩ := mem_rowPattern.mp h
  exact (m.in_range e he).2

end SparseMatrix

end ConicForm
