import ConicForm.Column.Block
import ConicForm.Matrix.Operations

/-!
# Affine expressions

An affine expression has one row of coefficients and one constant for each of its
elements, taken row by row. Its matrix is only as wide as the columns that it mentions;
operands of different widths are widened when they are combined.

## Main definitions

* `Affine`: a matrix of coefficients and a list of constants, with a shape and an owner
* `Affine.ofBlock`, `Affine.ofSelection`, `Affine.ofValues`: variables and constants
* `Affine.add`, `Affine.scale`, `Affine.sum`, `Affine.select`, `Affine.leftMul`: operations

## Main results

* `Affine.size_broadcast`: a single element is repeated to any size
-/

namespace ConicForm

/-- The expression `A x + b`, with one row of `A` and one entry of `b` for each element. -/
structure Affine (α : Type) [Scalar α] where
  /-- The owner of the columns, none for a constant. -/
  owner : Option ModelId
  shape : Shape
  linear : SparseMatrix α
  constant : List α
  nrows_linear : linear.nrows = shape.size
  length_constant : constant.length = shape.size

namespace Affine

variable {α : Type} [Scalar α]

@[ext] theorem ext {a b : Affine α} (ho : a.owner = b.owner) (hs : a.shape = b.shape)
    (hl : a.linear = b.linear) (hc : a.constant = b.constant) : a = b := by
  cases a; cases b; simp_all

instance : BEq (Affine α) where
  beq a b :=
    a.owner == b.owner && a.shape == b.shape && a.linear == b.linear && a.constant == b.constant

/-- The number of elements. -/
def size (a : Affine α) : Nat := a.shape.size

/-- Whether no column has a coefficient. -/
def isConstant (a : Affine α) : Bool := a.linear.entries.isEmpty

/-! ### Variables and constants -/

/-- The vector of the given columns. -/
def ofColumns (owner : ModelId) (columns : List Nat) (width : Nat) : Affine α where
  owner := some owner
  shape := .vector columns.length
  linear := .ofTriplets columns.length width (columns.zipIdx.map fun (j, i) => ⟨i, j, 1⟩)
  constant := List.replicate columns.length 0
  nrows_linear := by simp
  length_constant := by simp

/-- The same elements under another shape. -/
def reshape (a : Affine α) (s : Shape) (h : s.size = a.size) : Affine α :=
  { a with
    shape := s
    nrows_linear := a.nrows_linear.trans h.symm
    length_constant := a.length_constant.trans h.symm }

/-- A block as an expression. -/
def ofBlock (b : Block) : Affine α :=
  (ofColumns b.owner b.columns b.stop).reshape b.shape (by simp [size, ofColumns, Block.size])

/-- A selection as a vector, as wide as its last column. -/
def ofSelection (s : Selection) : Affine α :=
  ofColumns s.block.owner s.columns ((s.columns.map (· + 1)).foldl max 0)

/-- A constant whose values are listed row by row. -/
def ofValues (shape : Shape) (values : List α) : Except Error (Affine α) :=
  if h : values.length = shape.size then
    .ok ⟨none, shape, .zero shape.size 0, values, rfl, h⟩
  else .error (.mismatch (.constantValues shape values.length))

/-- The zero of a shape. -/
def zeros (shape : Shape) : Affine α where
  owner := none
  shape := shape
  linear := .zero shape.size 0
  constant := List.replicate shape.size 0
  nrows_linear := rfl
  length_constant := by simp

/-- A number as a constant. -/
def number (x : α) : Affine α := ⟨none, .scalar, .zero 1 0, [x], rfl, rfl⟩

/-- A list of numbers as a constant vector. -/
def numbers (xs : List α) : Affine α :=
  ⟨none, .vector xs.length, .zero xs.length 0, xs, by simp, by simp⟩

/-! ### Arithmetic -/

/-- The elements `times` over, as a vector. -/
def repeated (a : Affine α) (times : Nat) : Affine α where
  owner := a.owner
  shape := .vector (a.size * times)
  linear := a.linear.repeatRows times
  constant := (List.replicate times a.constant).flatten
  nrows_linear := by simp [a.nrows_linear, size]
  length_constant := by simp [a.length_constant, size, Nat.mul_comm]

/-- An expression of the given size is kept, and any other one repeated so often. It is
meant for expressions of that size and for those of one element. -/
def broadcast (a : Affine α) (n : Nat) : Affine α := if a.size = n then a else a.repeated n

theorem size_broadcast {a : Affine α} {n : Nat} (h : a.size = n ∨ a.size = 1) :
    (a.broadcast n).size = n := by
  unfold broadcast
  split
  · assumption
  · next hn =>
    have h₁ : a.shape.size = 1 := h.resolve_left hn
    simp [repeated, size, h₁]

@[simp] theorem owner_broadcast (a : Affine α) (n : Nat) : (a.broadcast n).owner = a.owner := by
  unfold broadcast
  split <;> rfl

/-- The sum of two expressions; a single element is repeated. -/
def add (a b : Affine α) : Except Error (Affine α) := do
  let owner ← mergeOwners a.owner b.owner
  match h : a.shape.elementwise b.shape with
  | none => throw (.mismatch (.shapes a.shape b.shape))
  | some shape =>
    let l := a.broadcast shape.size
    let r := b.broadcast shape.size
    have hl : l.size = shape.size := size_broadcast (Shape.size_of_elementwise h).1
    have hr : r.size = shape.size := size_broadcast (Shape.size_of_elementwise h).2
    return {
      owner, shape
      linear := l.linear.add r.linear
      constant := List.zipWith (· + ·) l.constant r.constant
      nrows_linear := by rw [SparseMatrix.nrows_add, l.nrows_linear]; exact hl
      length_constant := by
        rw [List.length_zipWith, l.length_constant, r.length_constant]
        show min l.size r.size = _
        rw [hl, hr, Nat.min_self] }

/-- Multiplies every element by a number. -/
def scale (a : Affine α) (x : α) : Affine α where
  owner := a.owner
  shape := a.shape
  linear := a.linear.scale x
  constant := a.constant.map (· * x)
  nrows_linear := a.nrows_linear
  length_constant := by simp [a.length_constant]

/-- The negated expression, as a multiple. -/
def neg (a : Affine α) : Affine α := a.scale (-1)

/-- The difference of two expressions; a single element is repeated. -/
def sub (a b : Affine α) : Except Error (Affine α) := a.add b.neg

/-- Adds a number to every element. -/
def offset (a : Affine α) (x : α) : Affine α where
  owner := a.owner
  shape := a.shape
  linear := a.linear
  constant := a.constant.map (· + x)
  nrows_linear := a.nrows_linear
  length_constant := by simp [a.length_constant]

/-- The sum of all elements. -/
def sum (a : Affine α) : Affine α where
  owner := a.owner
  shape := .scalar
  linear := a.linear.sumRows
  constant := [Scalar.sum a.constant]
  nrows_linear := rfl
  length_constant := rfl

/-! ### Elements and products -/

/-- The elements at the given positions; a position that does not exist gives zero. -/
def pick (a : Affine α) (indices : List Nat) : Affine α where
  owner := a.owner
  shape := .vector indices.length
  linear := a.linear.selectRows indices
  constant := indices.map fun i => a.constant.getD i 0
  nrows_linear := by simp
  length_constant := by simp

/-- The elements at the given positions, in that order, as a vector. -/
def select (a : Affine α) (indices : List Nat) : Except Error (Affine α) := do
  let _ ← checkIndices indices a.size
  return a.pick indices

/-- The element at a position, as a scalar. -/
def get (a : Affine α) (index : Nat) : Except Error (Affine α) := do
  let _ ← checkIndices [index] a.size
  return (a.pick [index]).reshape .scalar rfl

/-- The product of a constant matrix with the expression. -/
def leftMul (a : Affine α) (m : DenseMatrix α) : Except Error (Affine α) :=
  match h : a.shape.leftProduct m.nrows m.ncols with
  | none => .error (.mismatch (.leadingDimension m.ncols a.shape))
  | some shape => .ok {
      owner := a.owner
      shape
      linear := .leftMul m a.linear a.shape.cols
      constant := (m.mul (.ofValues a.shape.rows a.shape.cols a.constant)).toList
      nrows_linear := (Shape.size_of_leftProduct h).symm
      length_constant := by
        rw [DenseMatrix.length_toList, DenseMatrix.nrows_mul, DenseMatrix.ncols_mul]
        exact (Shape.size_of_leftProduct h).symm }

end Affine

end ConicForm
