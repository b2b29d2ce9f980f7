/-!
# Shapes

The shape of a variable block or of an expression. Elements are laid out row by row,
so a block of shape `(m, n)` spans `m * n` consecutive columns.

## Main definitions

* `Shape`: scalars, vectors and matrices
* `Shape.elementwise`: the shape of an elementwise combination
* `Shape.leftProduct`: the shape of a product with a constant matrix

## Main results

* `Shape.size_of_elementwise`: operands of a combination have its size or one element
* `Shape.leftProduct_eq_some_iff`: when a product is defined
-/

namespace ConicForm

/-- A scalar, a vector or a matrix of elements. -/
inductive Shape where
  | scalar
  | vector (length : Nat)
  | matrix (rows cols : Nat)
  deriving DecidableEq, Repr

namespace Shape

/-- The leading dimension. -/
def rows : Shape → Nat
  | scalar => 1
  | vector n => n
  | matrix m _ => m

/-- The number of elements in a row. -/
def cols : Shape → Nat
  | matrix _ n => n
  | _ => 1

/-- The number of elements. -/
def size (s : Shape) : Nat := s.rows * s.cols

/-- The number of dimensions. -/
def rank : Shape → Nat
  | scalar => 0
  | vector _ => 1
  | matrix _ _ => 2

def isScalar : Shape → Bool
  | scalar => true
  | _ => false

@[simp] theorem size_scalar : scalar.size = 1 := rfl

@[simp] theorem size_vector (n : Nat) : (vector n).size = n := Nat.mul_one n

@[simp] theorem size_matrix (m n : Nat) : (matrix m n).size = m * n := rfl

/-- The shape of an elementwise combination. Operands of one size combine and the higher
rank wins, the left one on a tie; otherwise a single element is repeated over the other
operand. -/
def elementwise (s t : Shape) : Option Shape :=
  if s.size = t.size then some (if t.rank ≤ s.rank then s else t)
  else if t.size = 1 then some s
  else if s.size = 1 then some t
  else none

/-- An operand of a combination has as many elements as the result, or one. -/
theorem size_of_elementwise {s t r : Shape} (h : s.elementwise t = some r) :
    (s.size = r.size ∨ s.size = 1) ∧ (t.size = r.size ∨ t.size = 1) := by
  unfold elementwise at h
  split at h
  · split at h <;> cases h <;> simp_all
  · split at h
    · cases h; simp_all
    · split at h
      · cases h; simp_all
      · cases h

theorem elementwise_eq_none_iff {s t : Shape} :
    s.elementwise t = none ↔ s.size ≠ t.size ∧ t.size ≠ 1 ∧ s.size ≠ 1 := by
  unfold elementwise
  split
  · simp_all
  · split
    · simp_all
    · split <;> simp_all

/-- The shape of the product of a constant matrix of `rows` rows and `cols` columns with
an operand of shape `s`. A scalar has no such product. -/
def leftProduct (s : Shape) (rows cols : Nat) : Option Shape :=
  match s with
  | scalar => none
  | vector n => if n = cols then some (vector rows) else none
  | matrix m n => if m = cols then some (matrix rows n) else none

theorem leftProduct_eq_some_iff {s r : Shape} {rows cols : Nat} :
    s.leftProduct rows cols = some r ↔
      s.rank ≠ 0 ∧ s.rows = cols ∧ r.rank = s.rank ∧ r.rows = rows ∧ r.cols = s.cols := by
  cases s <;> cases r <;> simp [leftProduct, rank, Shape.rows, Shape.cols, eq_comm]

/-- A product has one row of elements for each row of the constant matrix. -/
theorem size_of_leftProduct {s r : Shape} {rows cols : Nat}
    (h : s.leftProduct rows cols = some r) : r.size = rows * s.cols := by
  obtain ⟨-, -, -, hr, hc⟩ := leftProduct_eq_some_iff.mp h
  rw [size, hr, hc]

/-- The text of a shape, as in messages. -/
def text : Shape → String
  | scalar => "()"
  | vector n => s!"({n},)"
  | matrix m n => s!"({m}, {n})"

end Shape

end ConicForm
