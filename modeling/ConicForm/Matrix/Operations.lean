import ConicForm.Matrix.Dense
import ConicForm.Matrix.Sparse

/-!
# Operations on stored matrices

Each operation lists the triplets of its result and gathers them, so that cancelled cells
vanish and cells out of range are dropped. It reads the size and the entries of its operands
and nothing else, so it is defined for any entries in column-major order, also where some of
these are zero.

## Main definitions

* `StoredMatrix.add`, `StoredMatrix.scale`: entrywise operations
* `StoredMatrix.repeatRows`, `StoredMatrix.selectRows`, `StoredMatrix.sumRows`: operations on rows
* `StoredMatrix.stack`: blocks below each other
* `StoredMatrix.leftMul`: the product of a constant matrix with the block that the rows list
* `StoredMatrix.toDense`: the same matrix with all its cells
* `SparseMatrix.add` and the others: the same operations on sparse matrices
-/

namespace ConicForm

variable {α : Type} [Scalar α]

namespace StoredMatrix

/-- The sum of two matrices with equally many rows, as wide as the wider one. -/
def add (m n : StoredMatrix α) : SparseMatrix α :=
  .ofTriplets m.nrows (max m.ncols n.ncols) (m.entries ++ n.entries)

/-- Multiplies every entry by a number. -/
def scale (m : StoredMatrix α) (a : α) : SparseMatrix α :=
  .ofTriplets m.nrows m.ncols (m.entries.map fun e => { e with value := e.value * a })

/-- The matrix stacked on itself `times` times. -/
def repeatRows (m : StoredMatrix α) (times : Nat) : SparseMatrix α :=
  .ofTriplets (m.nrows * times) m.ncols <| m.entries.flatMap fun e =>
    (List.range times).map fun t => { e with row := t * m.nrows + e.row }

/-- The matrix whose row `k` is the row that `selected` has at position `k`. A row may be
selected more than once, and one that does not exist is zero. -/
def selectRows (m : StoredMatrix α) (selected : List Nat) : SparseMatrix α :=
  .ofTriplets selected.length m.ncols <| m.entries.flatMap fun e =>
    selected.zipIdx.filterMap fun (i, k) => if i = e.row then some { e with row := k } else none

/-- The sum of all rows, as a matrix of one row. -/
def sumRows (m : StoredMatrix α) : SparseMatrix α :=
  .ofTriplets 1 m.ncols (m.entries.map fun e => { e with row := 0 })

omit [Scalar α] in
/-- The entries of blocks below each other, the first one starting at row `offset`. -/
def stackEntries (offset : Nat) : List (StoredMatrix α) → List (Entry α)
  | [] => []
  | m :: ms =>
    (m.entries.map fun e => { e with row := offset + e.row }) ++ stackEntries (offset + m.nrows) ms

omit [Scalar α] in
/-- The number of rows of several blocks. -/
def totalRows : List (StoredMatrix α) → Nat
  | [] => 0
  | m :: ms => m.nrows + totalRows ms

/-- The blocks below each other, padded or cut to `ncols` columns. -/
def stack (blocks : List (StoredMatrix α)) (ncols : Nat) : SparseMatrix α :=
  .ofTriplets (totalRows blocks) ncols (stackEntries 0 blocks)

/-- The rows of `m` list, row by row, a block with `stride` columns; the result lists the
product of `a` with that block. Zeros of `a` contribute nothing. -/
def leftMul (a : DenseMatrix α) (m : StoredMatrix α) (stride : Nat) : SparseMatrix α :=
  .ofTriplets (a.nrows * stride) m.ncols <| m.entries.flatMap fun e =>
    (List.range a.nrows).filterMap fun p =>
      let c := a.get p (e.row / stride)
      if Scalar.isZero c then none
      else some { row := p * stride + e.row % stride, col := e.col, value := c * e.value }

/-- The same matrix with all its cells. -/
def toDense (m : StoredMatrix α) : DenseMatrix α := .ofFn m.nrows m.ncols m.entry

end StoredMatrix

/-! ## Sparse matrices -/

namespace SparseMatrix

@[inherit_doc StoredMatrix.add]
def add (m n : SparseMatrix α) : SparseMatrix α := m.toStoredMatrix.add n.toStoredMatrix

@[simp] theorem nrows_add (m n : SparseMatrix α) : (m.add n).nrows = m.nrows := rfl

@[simp] theorem ncols_add (m n : SparseMatrix α) : (m.add n).ncols = max m.ncols n.ncols := rfl

@[inherit_doc StoredMatrix.scale]
def scale (m : SparseMatrix α) (a : α) : SparseMatrix α := m.toStoredMatrix.scale a

@[simp] theorem nrows_scale (m : SparseMatrix α) (a : α) : (m.scale a).nrows = m.nrows := rfl

@[simp] theorem ncols_scale (m : SparseMatrix α) (a : α) : (m.scale a).ncols = m.ncols := rfl

@[inherit_doc StoredMatrix.repeatRows]
def repeatRows (m : SparseMatrix α) (times : Nat) : SparseMatrix α :=
  m.toStoredMatrix.repeatRows times

@[simp] theorem nrows_repeatRows (m : SparseMatrix α) (times : Nat) :
    (m.repeatRows times).nrows = m.nrows * times := rfl

@[simp] theorem ncols_repeatRows (m : SparseMatrix α) (times : Nat) :
    (m.repeatRows times).ncols = m.ncols := rfl

@[inherit_doc StoredMatrix.selectRows]
def selectRows (m : SparseMatrix α) (selected : List Nat) : SparseMatrix α :=
  m.toStoredMatrix.selectRows selected

@[simp] theorem nrows_selectRows (m : SparseMatrix α) (selected : List Nat) :
    (m.selectRows selected).nrows = selected.length := rfl

@[simp] theorem ncols_selectRows (m : SparseMatrix α) (selected : List Nat) :
    (m.selectRows selected).ncols = m.ncols := rfl

@[inherit_doc StoredMatrix.sumRows]
def sumRows (m : SparseMatrix α) : SparseMatrix α := m.toStoredMatrix.sumRows

@[simp] theorem nrows_sumRows (m : SparseMatrix α) : m.sumRows.nrows = 1 := rfl

@[simp] theorem ncols_sumRows (m : SparseMatrix α) : m.sumRows.ncols = m.ncols := rfl

@[inherit_doc StoredMatrix.stackEntries]
def stackEntries (offset : Nat) (blocks : List (SparseMatrix α)) : List (Entry α) :=
  StoredMatrix.stackEntries offset (blocks.map toStoredMatrix)

@[simp] theorem stackEntries_nil (offset : Nat) :
    stackEntries offset ([] : List (SparseMatrix α)) = [] := rfl

theorem stackEntries_cons (offset : Nat) (m : SparseMatrix α) (ms : List (SparseMatrix α)) :
    stackEntries offset (m :: ms) = (m.entries.map fun e => { e with row := offset + e.row }) ++
      stackEntries (offset + m.nrows) ms := rfl

@[inherit_doc StoredMatrix.totalRows]
def totalRows (blocks : List (SparseMatrix α)) : Nat :=
  StoredMatrix.totalRows (blocks.map toStoredMatrix)

@[simp] theorem totalRows_nil : totalRows ([] : List (SparseMatrix α)) = 0 := rfl

@[simp] theorem totalRows_cons (m : SparseMatrix α) (ms : List (SparseMatrix α)) :
    totalRows (m :: ms) = m.nrows + totalRows ms := rfl

@[inherit_doc StoredMatrix.stack]
def stack (blocks : List (SparseMatrix α)) (ncols : Nat) : SparseMatrix α :=
  StoredMatrix.stack (blocks.map toStoredMatrix) ncols

theorem stack_eq (blocks : List (SparseMatrix α)) (ncols : Nat) :
    stack blocks ncols = ofTriplets (totalRows blocks) ncols (stackEntries 0 blocks) := rfl

@[simp] theorem nrows_stack (blocks : List (SparseMatrix α)) (ncols : Nat) :
    (stack blocks ncols).nrows = totalRows blocks := rfl

@[simp] theorem ncols_stack (blocks : List (SparseMatrix α)) (ncols : Nat) :
    (stack blocks ncols).ncols = ncols := rfl

@[inherit_doc StoredMatrix.leftMul]
def leftMul (a : DenseMatrix α) (m : SparseMatrix α) (stride : Nat) : SparseMatrix α :=
  m.toStoredMatrix.leftMul a stride

@[simp] theorem nrows_leftMul (a : DenseMatrix α) (m : SparseMatrix α) (stride : Nat) :
    (leftMul a m stride).nrows = a.nrows * stride := rfl

@[simp] theorem ncols_leftMul (a : DenseMatrix α) (m : SparseMatrix α) (stride : Nat) :
    (leftMul a m stride).ncols = m.ncols := rfl

end SparseMatrix

end ConicForm
