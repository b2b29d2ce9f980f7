import ConicForm.Scalar

/-!
# Dense matrices

A dense matrix is a list of rows of one length.

## Main definitions

* `DenseMatrix`: rows of one length
* `DenseMatrix.ofFn`, `DenseMatrix.ofValues`: a matrix from its cells or its row-major values
* `DenseMatrix.mul`: the product, with its order of summation
-/

namespace ConicForm

variable {α : Type}

/-- A list of rows of one length. -/
structure DenseMatrix (α : Type) where
  ncols : Nat
  rows : List (List α)
  length_row : ∀ r ∈ rows, r.length = ncols

namespace DenseMatrix

@[ext] theorem ext {a b : DenseMatrix α} (hc : a.ncols = b.ncols) (hr : a.rows = b.rows) :
    a = b := by
  cases a; cases b; simp_all

instance [BEq α] : BEq (DenseMatrix α) where
  beq a b := a.ncols == b.ncols && a.rows == b.rows

/-- The number of rows. -/
def nrows (a : DenseMatrix α) : Nat := a.rows.length

/-- The matrix with the given value at each cell. -/
def ofFn (nrows ncols : Nat) (f : Nat → Nat → α) : DenseMatrix α where
  ncols := ncols
  rows := (List.range nrows).map fun i => (List.range ncols).map (f i)
  length_row := by simp

@[simp] theorem nrows_ofFn (nrows ncols : Nat) (f : Nat → Nat → α) :
    (ofFn nrows ncols f).nrows = nrows := by
  simp [ofFn, DenseMatrix.nrows]

@[simp] theorem ncols_ofFn (nrows ncols : Nat) (f : Nat → Nat → α) :
    (ofFn nrows ncols f).ncols = ncols := rfl

/-- The values row by row. -/
def toList (a : DenseMatrix α) : List α := a.rows.flatten

theorem length_toList (a : DenseMatrix α) : a.toList.length = a.nrows * a.ncols := by
  obtain ⟨n, rows, h⟩ := a
  unfold toList nrows
  induction rows with
  | nil => simp
  | cons r rs ih =>
    have hr := h r (by simp)
    have ih := ih fun s hs => h s (by simp [hs])
    simp only [List.flatten_cons, List.length_append, List.length_cons] at ih ⊢
    rw [hr, ih, Nat.add_mul, Nat.one_mul, Nat.add_comm]

/-- The value of a cell, zero outside the matrix. -/
def get [Zero α] (a : DenseMatrix α) (i j : Nat) : α := (a.rows.getD i []).getD j 0

@[simp] theorem get_ofFn [Zero α] {nrows ncols : Nat} {f : Nat → Nat → α} {i j : Nat}
    (hi : i < nrows) (hj : j < ncols) : (ofFn nrows ncols f).get i j = f i j := by
  simp [get, ofFn, hi, hj]

/-- The matrix of the given row-major values; missing values are zero. -/
def ofValues [Zero α] (nrows ncols : Nat) (values : List α) : DenseMatrix α :=
  ofFn nrows ncols fun i j => values.getD (i * ncols + j) 0

variable [Scalar α]

/-- Whether a product is large: all three of its dimensions exceed five. -/
def largeProduct (a b : DenseMatrix α) : Bool := 5 < a.nrows && 5 < a.ncols && 5 < b.ncols

/-- The matrix product. The terms of a cell are added from left to right, starting at the
first term, in a large product at zero; the two agree up to the sign of a zero. -/
def mul (a b : DenseMatrix α) : DenseMatrix α :=
  ofFn a.nrows b.ncols fun i j =>
    let terms := (List.range a.ncols).map fun k => a.get i k * b.get k j
    if a.largeProduct b then Scalar.sum terms else Scalar.sumFromFirst terms

@[simp] theorem nrows_mul (a b : DenseMatrix α) : (a.mul b).nrows = a.nrows := nrows_ofFn ..

@[simp] theorem ncols_mul (a b : DenseMatrix α) : (a.mul b).ncols = b.ncols := rfl

end DenseMatrix

end ConicForm
