import ConicForm.Constraint.Bounds
import ConicForm.Constraint.Convex
import ConicForm.Constraint.Linear

/-!
# Pieces of a canonical program and their expansion

A canonical program is put together from pieces: rows that are taken as they are, and
convex constraints, each of which is expanded into rows over its own auxiliary columns,
bounds on them and cone records.

* The absolute value and the largest absolute value are bounded by two rows for each
  element, the sum of absolute values through auxiliary columns that bound them one by one.
* The Euclidean norm has its input and its bound copied into auxiliary columns, which form
  a record.
* A square under the negated bound `w` has the columns `(1 + w) / 2`, the input and
  `(1 - w) / 2`; the record under the last of them says that input squared is at most `-w`.

## Main definitions

* `Piece`: a row or a convex constraint
* `Expansion`: auxiliary blocks, rows, bounds and records
* `Piece.expand`, `expandAll`: the expansion of one piece, and of pieces one after another
-/

namespace ConicForm

variable {α : Type} [Scalar α]

/-- What a canonical program is put together from. -/
inductive Piece (α : Type) [Scalar α] where
  | rows (c : LinearConstraint α)
  | piecewise (c : ConvexConstraint PiecewiseKind α)
  | conic (c : ConvexConstraint ConicKind α)

/-- A convex constraint as a piece. Constraints on the exponential have no conic form. -/
def Piece.ofConvex (c : ConvexConstraint ConvexKind α) : Except Error (Piece α) :=
  match c.kind with
  | .piecewise k => .ok (piecewise { c with kind := k })
  | .conic k => .ok (conic { c with kind := k })
  | .exp => .error (.unsupportedKind .exp)

/-- What pieces contribute to a canonical program. -/
structure Expansion (α : Type) [Scalar α] where
  /-- The blocks of auxiliary columns. -/
  blocks : List Block := []
  rows : List (LinearConstraint α) := []
  bounds : List (Bounds α) := []
  /-- The cone records, the head first. -/
  records : List (List Nat) := []

namespace Expansion

/-- The contributions of two expansions, one after the other. -/
def append (e f : Expansion α) : Expansion α :=
  ⟨e.blocks ++ f.blocks, e.rows ++ f.rows, e.bounds ++ f.bounds, e.records ++ f.records⟩

/-- The number of auxiliary columns. -/
def width (e : Expansion α) : Nat := Block.totalSize e.blocks

@[simp] theorem width_append (e f : Expansion α) : (e.append f).width = e.width + f.width := by
  simp [append, width]

end Expansion

/-- A block of auxiliary columns. -/
def Block.auxiliary (owner : ModelId) (first : Nat) (shape : Shape) : Block :=
  ⟨owner, first, shape, .continuous, none⟩

namespace ConvexConstraint

/-- The rows of a function described by linear rows; auxiliary columns start at `next`. -/
def expandPiecewise (owner : ModelId) (next : Nat) (c : ConvexConstraint PiecewiseKind α) :
    Except Error (Expansion α) :=
  match c.kind with
  | .abs | .normInf => do
    let above ← (← c.input.sub c.output).le (.number 0)
    let below ← (← c.input.neg.sub c.output).le (.number 0)
    return { rows := [above, below] }
  | .norm1 => do
    let u := Block.auxiliary owner next c.input.shape
    let above ← (← c.input.sub (.ofBlock u)).le (.number 0)
    let below ← (← c.input.neg.sub (.ofBlock u)).le (.number 0)
    let total ← (← (Affine.ofBlock u).sum.sub c.output).le (.number 0)
    return { blocks := [u], rows := [above, below, total] }

/-- The record of a Euclidean norm, with copies of its input and its bound. -/
def expandNorm (owner : ModelId) (next : Nat) (input output : Affine α) :
    Except Error (Expansion α) := do
  let left := Block.auxiliary owner next input.shape
  let right := Block.auxiliary owner left.stop output.shape
  let inputRows ← (← input.sub (.ofBlock left)).eq (.number 0)
  let outputRows ← (← output.sub (.ofBlock right)).eq (.number 0)
  return {
    blocks := [left, right]
    rows := [inputRows, outputRows]
    records := [right.first :: left.columns] }

/-- The rows and bounds of a squaring function. `records` groups the columns of the three
blocks: the half sum, the input and the half difference. -/
def expandSquares (owner : ModelId) (next : Nat) (input output : Affine α)
    (records : Block → Block → Block → List (List Nat)) : Except Error (Expansion α) := do
  let a₁ := Block.auxiliary owner next output.shape
  let a₂ := Block.auxiliary owner a₁.stop input.shape
  let a₃ := Block.auxiliary owner a₂.stop output.shape
  let sumRows ← (← (Affine.ofBlock a₁).sub ((output.offset 1).scale Scalar.half)).eq (.number 0)
  let inputRows ← (← (Affine.ofBlock a₂).sub input).eq (.number 0)
  let differenceRows ←
    (← (Affine.ofBlock a₃).sub ((output.neg.offset 1).scale Scalar.half)).eq (.number 0)
  return {
    blocks := [a₁, a₂, a₃]
    rows := [sumRows, inputRows, differenceRows]
    bounds := [a₃.nonneg]
    records := records a₁ a₂ a₃ }

/-- One record for each element. -/
def elementRecords (a₁ a₂ a₃ : Block) : List (List Nat) :=
  (List.range a₂.size).map fun i => [a₃.first + i, a₁.first + i, a₂.first + i]

/-- One record for all elements. -/
def jointRecord (a₁ a₂ a₃ : Block) : List (List Nat) := [a₃.first :: a₁.first :: a₂.columns]

/-- The rows and records of a function described by second-order cones; auxiliary columns
start at `next`. -/
def expandConic (owner : ModelId) (next : Nat) (c : ConvexConstraint ConicKind α) :
    Except Error (Expansion α) :=
  match c.kind with
  | .norm2 => expandNorm owner next c.input c.output
  | .square => expandSquares owner next c.input c.output elementRecords
  | .sumSquares => expandSquares owner next c.input c.output jointRecord

end ConvexConstraint

/-- The expansion of a piece whose auxiliary columns start at `next`. -/
def Piece.expand (owner : ModelId) (next : Nat) : Piece α → Except Error (Expansion α)
  | rows c => .ok { rows := [c] }
  | piecewise c => c.expandPiecewise owner next
  | conic c => c.expandConic owner next

/-- The expansions of pieces in order, the auxiliary columns of each starting where those
of the one before end. -/
def expandAll (owner : ModelId) (next : Nat) : List (Piece α) → Except Error (Expansion α)
  | [] => .ok {}
  | p :: ps => do
    let e ← p.expand owner next
    let f ← expandAll owner (next + e.width) ps
    return e.append f

end ConicForm
