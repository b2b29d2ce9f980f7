import ConicForm.Proofs.Matrix.Cells
import ConicForm.Proofs.Matrix.Weight

/-!
# Patterns of rows

The pattern of a row lists the columns that have a coefficient there. In exact arithmetic the
values of a row determine its pattern and its coefficients, so that a matrix is known by its size
and the values of its rows.

## Main results

* `eq_filter_range`: an ascending list is known by its members
* `SparseMatrix.rowValue_eq_mul`: a row at an assignment that leaves one of its columns
* `SparseMatrix.rowValue_ne_zero_of_mem_rowPattern`,
  `SparseMatrix.mem_rowPattern_of_rowValue_ne_zero`: a column is in the pattern if it has a value
* `SparseMatrix.eq_of_rowValue`: matrices with the same values of rows are equal
-/

namespace ConicForm

/-- A strictly ascending list is read off from its members, one number after another. -/
theorem eq_filter_range {l : List Nat} {n : Nat} {p : Nat → Bool} (hl : l.Pairwise (· < ·))
    (h : ∀ j, j ∈ l ↔ j < n ∧ p j = true) : l = (List.range n).filter p := by
  have hfilter : ((List.range n).filter p).Pairwise (· < ·) := List.pairwise_lt_range.filter _
  have hmem : ∀ j, j ∈ l ↔ j ∈ (List.range n).filter p := by
    intro j
    rw [h, List.mem_filter, List.mem_range]
  have hperm : l.Perm ((List.range n).filter p) :=
    (List.perm_ext_iff_of_nodup (hl.imp Nat.ne_of_lt) (hfilter.imp Nat.ne_of_lt)).mpr hmem
  exact hperm.eq_of_pairwise (fun _ _ _ _ hab hba => absurd hab (Nat.lt_asymm hba)) hl hfilter

variable {K : Type} [Field K] [LinearOrder K]

namespace SparseMatrix

variable {m n : SparseMatrix K} {e : Entry K} {i j : Nat} {y : Nat → K}

/-- A row takes its value from the columns of its pattern. -/
theorem rowValue_eq_zero_of_rowPattern (h : ∀ j ∈ m.rowPattern i, y j = 0) :
    m.rowValue y i = 0 := by
  refine weightedSum_eq_zero fun e he => ?_
  split
  · next hrow => exact h _ (mem_rowPattern.mpr ⟨e, he, hrow, rfl⟩)
  · rfl

theorem mem_rowPattern_of_rowValue_ne_zero (h : m.rowValue (Pi.single j 1) i ≠ 0) :
    j ∈ m.rowPattern i := by
  by_contra hmem
  refine h (rowValue_eq_zero_of_rowPattern fun k hk => Pi.single_eq_of_ne ?_ _)
  rintro rfl
  exact hmem hk

/-- A row is a multiple of the only column of its pattern that is not zero, by the coefficient that
is stored. -/
theorem rowValue_eq_mul (he : e ∈ m.entries)
    (h : ∀ k ∈ m.rowPattern e.row, k ≠ e.col → y k = 0) :
    m.rowValue y e.row = e.value * y e.col := by
  obtain ⟨before, after, hsplit⟩ := List.append_of_mem he
  have hsorted := m.sorted
  rw [hsplit, List.pairwise_append, List.pairwise_cons] at hsorted
  obtain ⟨-, ⟨hafter, -⟩, hbefore⟩ := hsorted
  have hzero : ∀ f ∈ m.entries, f.Before e ∨ e.Before f →
      (if f.row = e.row then y f.col else 0) = 0 := by
    intro f hf hne
    split
    · next hrow =>
      refine h f.col (mem_rowPattern.mpr ⟨f, hf, hrow, rfl⟩) ?_
      unfold Entry.Before at hne
      omega
    · rfl
  have hleft : weightedSum (fun r c => if r = e.row then y c else 0) before = 0 :=
    weightedSum_eq_zero fun f hf =>
      hzero f (hsplit ▸ List.mem_append_left _ hf) (.inl (hbefore f hf e (List.mem_cons_self ..)))
  have hright : weightedSum (fun r c => if r = e.row then y c else 0) after = 0 :=
    weightedSum_eq_zero fun f hf =>
      hzero f (hsplit ▸ List.mem_append_right _ (List.mem_cons_of_mem _ hf)) (.inr (hafter f hf))
  rw [rowValue, hsplit, weightedSum_append, weightedSum_cons, hleft, hright, zero_add, add_zero,
    if_pos rfl]

theorem exists_rowValue_eq_mul (hj : j ∈ m.rowPattern i)
    (h : ∀ k ∈ m.rowPattern i, k ≠ j → y k = 0) : ∃ a, a ≠ 0 ∧ m.rowValue y i = a * y j := by
  obtain ⟨e, he, rfl, rfl⟩ := mem_rowPattern.mp hj
  exact ⟨e.value, Scalar.isZero_eq_false_iff.mp (m.nonzero e he), rowValue_eq_mul he h⟩

/-- A stored coefficient is the value of its row at the unit assignment of its column. -/
theorem rowValue_single (he : e ∈ m.entries) :
    m.rowValue (Pi.single e.col 1) e.row = e.value := by
  rw [rowValue_eq_mul he fun k _ hk => Pi.single_eq_of_ne hk _, Pi.single_eq_same, mul_one]

theorem rowValue_ne_zero_of_mem_rowPattern (h : j ∈ m.rowPattern i) :
    m.rowValue (Pi.single j 1) i ≠ 0 := by
  obtain ⟨e, he, rfl, rfl⟩ := mem_rowPattern.mp h
  rw [rowValue_single he]
  exact Scalar.isZero_eq_false_iff.mp (m.nonzero e he)

theorem mem_entries_of_rowValue (h : ∀ x i, m.rowValue x i = n.rowValue x i)
    (he : e ∈ m.entries) : e ∈ n.entries := by
  have hvalue : n.rowValue (Pi.single e.col 1) e.row = e.value := by rw [← h, rowValue_single he]
  have hne : n.rowValue (Pi.single e.col 1) e.row ≠ 0 := by
    rw [hvalue]
    exact Scalar.isZero_eq_false_iff.mp (m.nonzero e he)
  obtain ⟨f, hf, hrow, hcol⟩ := mem_rowPattern.mp (mem_rowPattern_of_rowValue_ne_zero hne)
  rw [← hrow, ← hcol, rowValue_single hf] at hvalue
  obtain rfl : f = e := by cases e; cases f; simp_all
  exact hf

/-- **A matrix is known by its size and the values of its rows.** -/
theorem eq_of_rowValue (hrows : m.nrows = n.nrows) (hcols : m.ncols = n.ncols)
    (h : ∀ x i, m.rowValue x i = n.rowValue x i) : m = n :=
  eq_of_mem_entries_iff hrows hcols fun _ =>
    ⟨mem_entries_of_rowValue h, mem_entries_of_rowValue fun x i => (h x i).symm⟩

end SparseMatrix

end ConicForm
