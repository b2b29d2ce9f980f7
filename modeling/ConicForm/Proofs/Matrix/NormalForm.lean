import ConicForm.Program.Cone
import ConicForm.Proofs.Affine.Term
import ConicForm.Proofs.Matrix.Dense
import ConicForm.Proofs.Matrix.Pattern

/-!
# Normal forms of matrices

A sparse matrix lists its entries column by column, the rows of a column ascending, with one entry
for each cell that is not zero. Operations keep to this on any scalars: they gather triplets, so
that a cell is never listed twice, and drop what cancels. In exact arithmetic what is stored can
then be read off from the cells. Matrices with the same cells are equal, an expression without
coefficients is one that does not vary, and the pattern of a row lists the columns with a nonzero
cell.

## Main definitions

* `NormalForm`: entries in column-major order, none of them zero

## Main results

* `normalForm_iff`: a normal form is what a sparse matrix stores
* `SparseMatrix.eq_iff_entry`, `Affine.isConstant_iff`, `SparseMatrix.rowPattern_eq`: what cells say
* `coefficients_normalForm`: all matrices of coefficients
-/

namespace ConicForm

section NormalForm

variable {α : Type} [Scalar α] {es : List (Entry α)}

/-- Entries listed column by column, with one entry for each cell that is not zero. -/
structure NormalForm (es : List (Entry α)) : Prop where
  nonzero : ∀ e ∈ es, Scalar.isZero e.value = false
  unique : ∀ i j, (es.filter fun e => e.row = i ∧ e.col = j).length ≤ 1
  columns : (es.map Entry.col).Pairwise (· ≤ ·)
  ascending : ∀ j, ((es.filter fun e => e.col = j).map Entry.row).Pairwise (· < ·)

omit [Scalar α] in
/-- Of entries in column-major order, at most one lies in a cell. -/
theorem length_filter_cell_le_one (h : es.Pairwise Entry.Before) (i j : Nat) :
    (es.filter fun e => e.row = i ∧ e.col = j).length ≤ 1 := by
  have hcell : ∀ e ∈ es.filter fun e => e.row = i ∧ e.col = j, e.row = i ∧ e.col = j :=
    fun e he => of_decide_eq_true (List.mem_filter.mp he).2
  have hsorted := h.filter fun e => e.row = i ∧ e.col = j
  match hes : es.filter fun e => e.row = i ∧ e.col = j with
  | [] | [_] =>
    rw [hes]
    simp
  | e :: f :: _ =>
    rw [hes] at hcell hsorted
    have hbefore := List.rel_of_pairwise_cons hsorted (List.mem_cons_self ..)
    have he := hcell e (by simp)
    have hf := hcell f (by simp)
    unfold Entry.Before at hbefore
    omega

/-- **Normal forms are what sparse matrices store.** -/
theorem normalForm_iff :
    NormalForm es ↔ es.Pairwise Entry.Before ∧ ∀ e ∈ es, Scalar.isZero e.value = false := by
  constructor
  · intro h
    refine ⟨List.pairwise_iff_forall_sublist.mpr fun {e f} hef => ?_, h.nonzero⟩
    have hcol : e.col ≤ f.col :=
      List.pairwise_iff_forall_sublist.mp (List.pairwise_map.mp h.columns) hef
    rcases Nat.lt_or_eq_of_le hcol with hlt | heq
    · exact .inl hlt
    · have hrows := List.pairwise_map.mp (h.ascending f.col)
      have hlane : [e, f].Sublist (es.filter fun e => e.col = f.col) := by
        simpa [heq] using hef.filter fun e => e.col = f.col
      exact .inr ⟨heq, List.pairwise_iff_forall_sublist.mp hrows hlane⟩
  · rintro ⟨hsorted, hnonzero⟩
    refine ⟨hnonzero, length_filter_cell_le_one hsorted, ?_, fun j => ?_⟩
    · refine List.pairwise_map.mpr (hsorted.imp ?_)
      intro e f h
      unfold Entry.Before at h
      omega
    · refine List.pairwise_map.mpr ((hsorted.filter _).imp_of_mem ?_)
      intro e f he hf h
      have he := of_decide_eq_true (List.mem_filter.mp he).2
      have hf := of_decide_eq_true (List.mem_filter.mp hf).2
      unfold Entry.Before at h
      omega

theorem SparseMatrix.normalForm (m : SparseMatrix α) : NormalForm m.entries :=
  normalForm_iff.mpr ⟨m.sorted, m.nonzero⟩

end NormalForm

/-! ## Cells -/

instance {α : Type} [BEq α] [LawfulBEq α] : LawfulBEq (Entry α) where
  rfl {e} := by
    show (e.row == e.row && e.col == e.col && e.value == e.value) = true
    simp
  eq_of_beq {e f} h := by
    obtain ⟨⟨hrow, hcol⟩, hvalue⟩ : (e.row = f.row ∧ e.col = f.col) ∧ e.value = f.value := by
      simpa [BEq.beq] using h
    cases e
    cases f
    simp_all

variable {K : Type} [Field K] [LinearOrder K]

namespace SparseMatrix

variable {m n : SparseMatrix K} {e : Entry K} {i j : Nat}

theorem beq_eq_true_iff : (m == n) = true ↔ m = n := by
  show (m.nrows == n.nrows && m.ncols == n.ncols && m.entries == n.entries) = true ↔ m = n
  rw [Bool.and_eq_true, Bool.and_eq_true, beq_iff_eq, beq_iff_eq, beq_iff_eq]
  constructor
  · rintro ⟨⟨hrows, hcols⟩, hentries⟩
    exact ext hrows hcols hentries
  · rintro rfl
    exact ⟨⟨rfl, rfl⟩, rfl⟩

/-- A cell is the value of its row at the unit assignment of its column. -/
theorem entry_eq_rowValue (m : SparseMatrix K) (i j : Nat) :
    m.entry i j = m.rowValue (Pi.single j 1) i :=
  (m.toStoredMatrix.entry_eq_cellSum i j).trans (cellSum_eq_weightedSum ..)

theorem mem_rowPattern_iff_entry_ne_zero : j ∈ m.rowPattern i ↔ m.entry i j ≠ 0 := by
  rw [entry_eq_rowValue]
  exact ⟨rowValue_ne_zero_of_mem_rowPattern, mem_rowPattern_of_rowValue_ne_zero⟩

theorem entry_eq_zero (h : i < m.nrows → m.ncols ≤ j) : m.entry i j = 0 := by
  by_contra hne
  obtain ⟨e, he, rfl, rfl⟩ := mem_rowPattern.mp (mem_rowPattern_iff_entry_ne_zero.mpr hne)
  obtain ⟨hrow, hcol⟩ := m.in_range e he
  exact Nat.not_le_of_lt hcol (h hrow)

/-- The entries of a matrix are its nonzero cells. -/
theorem mem_entries_iff : e ∈ m.entries ↔ e.value ≠ 0 ∧ m.entry e.row e.col = e.value := by
  constructor
  · intro he
    refine ⟨Scalar.isZero_eq_false_iff.mp (m.nonzero e he), ?_⟩
    rw [entry_eq_rowValue, rowValue_single he]
  · rintro ⟨hne, hvalue⟩
    rw [← hvalue] at hne
    obtain ⟨f, hf, hrow, hcol⟩ := mem_rowPattern.mp (mem_rowPattern_iff_entry_ne_zero.mpr hne)
    have hfe : f = e := by
      rw [entry_eq_rowValue, ← hrow, ← hcol, rowValue_single hf] at hvalue
      cases e
      cases f
      simp_all
    exact hfe ▸ hf

/-- **A matrix is known by its size and its cells.** -/
theorem eq_iff_entry : m = n ↔ m.nrows = n.nrows ∧ m.ncols = n.ncols ∧
    ∀ i < m.nrows, ∀ j < m.ncols, m.entry i j = n.entry i j := by
  constructor
  · rintro rfl
    exact ⟨rfl, rfl, fun _ _ _ _ => rfl⟩
  · rintro ⟨hrows, hcols, h⟩
    refine eq_of_mem_entries_iff hrows hcols fun e => ?_
    rw [mem_entries_iff, mem_entries_iff]
    by_cases hrange : e.row < m.nrows ∧ e.col < m.ncols
    · rw [h _ hrange.1 _ hrange.2]
    · have hout : e.row < m.nrows → m.ncols ≤ e.col :=
        fun hrow => Nat.le_of_not_lt fun hcol => hrange ⟨hrow, hcol⟩
      rw [entry_eq_zero hout, entry_eq_zero (hrows ▸ hcols ▸ hout)]

/-- **The pattern of a row** lists the columns with a nonzero cell, ascending. -/
theorem rowPattern_eq (m : SparseMatrix K) (i : Nat) :
    m.rowPattern i = (List.range m.ncols).filter fun j => m.entry i j ≠ 0 := by
  refine eq_filter_range (m.sorted_rowPattern i) fun j => ?_
  rw [decide_eq_true_iff, ← mem_rowPattern_iff_entry_ne_zero]
  exact ⟨fun hj => ⟨lt_ncols_of_mem_rowPattern hj, hj⟩, And.right⟩

-- the triplets of the last column cancel
example : (ofTriplets 1 3 [⟨0, 2, 2⟩, ⟨0, 0, 1⟩, ⟨0, 2, -2⟩] : SparseMatrix ℚ).rowPattern 0 =
    [0] := by decide +kernel

end SparseMatrix

/-- **An expression without coefficients is one that does not vary.** -/
theorem Affine.isConstant_iff (a : Affine K) :
    a.isConstant = true ↔ ∀ x y, a.values x = a.values y := by
  constructor
  · intro h x y
    have hnil : a.linear.entries = [] := List.isEmpty_iff.mp h
    rw [values_of_entries_eq_nil hnil, values_of_entries_eq_nil hnil]
  · intro h
    refine List.isEmpty_iff.mpr (List.eq_nil_iff_forall_not_mem.mpr fun e he => ?_)
    have hrow : e.row < a.size := (a.linear.in_range e he).1.trans_eq a.nrows_linear
    have hvaries : a.value (Pi.single e.col 1) e.row = a.value 0 e.row := by
      rw [← getD_values hrow, h, getD_values hrow]
    unfold value at hvaries
    rw [SparseMatrix.rowValue_single he, SparseMatrix.rowValue_zero] at hvaries
    exact Scalar.isZero_eq_false_iff.mp (a.linear.nonzero e he) (add_right_cancel hvaries)

/-! ## Matrices of coefficients -/

/-- **All matrices of coefficients are in normal form**, those of expressions, constraints, programs
and duals and the results of operations among them, on any scalars. In exact arithmetic, such
matrices are equal where they have the same size and the same cells, an expression is constant where
its elements do not vary, and the pattern of a row lists the columns of its nonzero cells. -/
theorem coefficients_normalForm (α K : Type) [Scalar α] [Field K] [LinearOrder K] :
    ((∀ m : SparseMatrix α, NormalForm m.entries) ∧
      (∀ a : Affine α, NormalForm a.linear.entries) ∧
      (∀ c : LinearConstraint α, NormalForm c.linear.entries) ∧
      (∀ p : LinearProgram α, NormalForm p.linear.entries) ∧
      ∀ p : ConeProgram α, NormalForm p.linear.linear.entries) ∧
    (∀ m n : SparseMatrix K, (m == n) = true ↔ m.nrows = n.nrows ∧ m.ncols = n.ncols ∧
      ∀ i < m.nrows, ∀ j < m.ncols, m.entry i j = n.entry i j) ∧
    (∀ a : Affine K, a.isConstant = true ↔ ∀ x y, a.values x = a.values y) ∧
    ∀ (m : SparseMatrix K) (i : Nat),
      m.rowPattern i = (List.range m.ncols).filter fun j => m.entry i j ≠ 0 :=
  ⟨⟨SparseMatrix.normalForm, fun a => a.linear.normalForm, fun c => c.linear.normalForm,
      fun p => p.linear.normalForm, fun p => p.linear.linear.normalForm⟩,
    fun _ _ => SparseMatrix.beq_eq_true_iff.trans SparseMatrix.eq_iff_entry,
    Affine.isConstant_iff, SparseMatrix.rowPattern_eq⟩

end ConicForm
