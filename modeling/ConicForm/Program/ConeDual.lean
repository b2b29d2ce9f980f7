import ConicForm.Program.Cone
import ConicForm.Program.LinearDual

/-!
# Duals of cone programs

In the dual of the linear part, the rows of columns that occur in a record are the
identity rows of its cone. They leave the linear part, and the cone is set up anew over
the multipliers that they mention.

## Main definitions

* `ConeProgram.retainedRows`: the rows that stay
* `ConeProgram.dualRecord`: the multipliers of a cone
* `ConeProgram.dualLinear`: the linear part of the dual
* `ConeProgram.deriveDual`: the dual cone program, given the dual of the linear part
-/

namespace ConicForm

namespace ConeProgram

variable {α : Type} [Scalar α]

/-- The rows below `n` whose column occurs in no record. -/
def retainedRows (records : List (List Nat)) (n : Nat) : List Nat :=
  (List.range n).filter fun i => !records.flatten.contains i

/-- The columns that the rows of a record mention, row by row. -/
def dualRecord (m : SparseMatrix α) (record : List Nat) : List Nat :=
  record.flatMap m.rowPattern

/-- The columns that the row of a record's first member mentions. -/
def headPattern (m : SparseMatrix α) : List Nat → List Nat
  | [] => []
  | j :: _ => m.rowPattern j

/-- The linear part of the dual, given the dual of the linear part: the rows that stay, with the
multipliers in the first row of a cone at most zero. -/
def dualLinear (p : ConeProgram α) (dual : LinearProgram α) : LinearProgram α :=
  let retained := retainedRows p.records dual.nrows
  let heads := p.records.flatMap (headPattern dual.linear)
  { linear := dual.linear.selectRows retained
    constants := retained.map fun i => dual.constants.getD i 0
    senses := retained.map fun i => dual.senses.getD i .le
    types := dual.types
    upper := dual.upper.zipIdx.map fun (u, j) => if heads.contains j then .value 0 else u
    lower := dual.lower
    objective := dual.objective }

/-- The dual cone program of `p`, given the dual of its linear part. -/
def deriveDual (p : ConeProgram α) (dual : LinearProgram α) : Except Error (ConeProgram α) :=
  if p.records.isEmpty then .ok ⟨dual, []⟩
  else withRecords (p.dualLinear dual) (p.records.map (dualRecord dual.linear))

end ConeProgram

end ConicForm
