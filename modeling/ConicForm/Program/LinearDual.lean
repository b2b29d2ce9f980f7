import ConicForm.Program.Linear

/-!
# Duals of linear programs

A column with lower bound zero is nonnegative, otherwise one with upper bound zero is
nonpositive, and any other column is free. A finite bound that does not give the sign is
treated as a further inequality row. The dual has a column for each row so obtained and a
row for each column: an equality for a free column, and for the others an inequality,
negated where the column is nonpositive. Multipliers of inequalities are at most zero, and
the dual minimizes the negated right-hand sides.

## Main definitions

* `ColumnSign`: the sign that its bounds give a column
* `LinearProgram.boundRows`: the rows that stand for further bounds
* `LinearProgram.dualProgram`, `LinearProgram.dualize`: the dual of a program, which is
  defined if its columns are continuous
-/

namespace ConicForm

variable {α : Type} [Scalar α]

/-- The sign that its bounds give a column. -/
inductive ColumnSign where
  | nonneg
  | nonpos
  | free
  deriving DecidableEq, Repr

namespace ColumnSign

/-- The sign of a column with the given bounds. A lower bound of zero is decisive. -/
def ofBounds (lower upper : Bound α) : ColumnSign :=
  if lower.isZero then nonneg else if upper.isZero then nonpos else free

/-- The factor that turns the row of a column into an upper bound. -/
def factor : ColumnSign → α
  | nonpos => -1
  | _ => 1

/-- The relation of the row of a column. -/
def sense : ColumnSign → Sense
  | free => .eq
  | _ => .le

end ColumnSign

/-- A bound of a column as an inequality row with one coefficient. -/
structure BoundRow (α : Type) where
  column : Nat
  coefficient : α
  constant : α

namespace LinearProgram

/-- The sign of a column. -/
def sign (p : LinearProgram α) (j : Nat) : ColumnSign :=
  .ofBounds (p.lower.getD j .minusInf) (p.upper.getD j .plusInf)

/-- The signs of all columns. -/
def signs (p : LinearProgram α) : List ColumnSign := (List.range p.ncols).map p.sign

@[simp] theorem length_signs (p : LinearProgram α) : p.signs.length = p.ncols := by simp [signs]

/-- The finite bounds of a column, the upper one first, apart from those on the side that
its sign settles. -/
def boundRowsOf (sign : ColumnSign) (column : Nat) (lower upper : Bound α) :
    List (BoundRow α) :=
  (if sign = .nonpos then [] else (upper.finite?.map fun u => ⟨column, 1, u⟩).toList) ++
  (if sign = .nonneg then [] else (lower.finite?.map fun l => ⟨column, -1, -l⟩).toList)

/-- The rows that stand for further bounds, column by column. -/
def boundRows (p : LinearProgram α) : List (BoundRow α) :=
  p.signs.zipIdx.flatMap fun (sign, j) =>
    boundRowsOf sign j (p.lower.getD j .minusInf) (p.upper.getD j .plusInf)

/-- The transposed coefficients, those of the further rows behind those of the matrix. -/
def dualTriplets (p : LinearProgram α) : List (Entry α) :=
  p.linear.entries.map (fun e => ⟨e.col, e.row, e.value⟩) ++
  p.boundRows.zipIdx.map fun (r, k) => ⟨r.column, p.constants.length + k, r.coefficient⟩

/-- The first column that is not continuous, with its type. -/
def discreteColumn? (p : LinearProgram α) : Option (Nat × VariableType) :=
  (p.types.zipIdx.find? fun (t, _) => t ≠ .continuous).map fun (t, j) => (j, t)

/-- The right-hand sides, those of the further rows behind those of the program. -/
def allConstants (p : LinearProgram α) : List α := p.constants ++ p.boundRows.map (·.constant)

/-- The relations of the rows, those of the further rows behind those of the program. -/
def allSenses (p : LinearProgram α) : List Sense := p.senses ++ p.boundRows.map fun _ => .le

/-- The dual, without regard to the types of the columns. -/
def dualProgram (p : LinearProgram α) : LinearProgram α where
  -- the row of a column is negated as a whole where the column is nonpositive
  linear := .ofTriplets p.ncols p.allConstants.length <|
    p.dualTriplets.map fun e => { e with value := (p.sign e.row).factor * e.value }
  constants := p.signs.zipIdx.map fun (s, j) => s.factor * p.objective.getD j 0
  senses := p.signs.map (·.sense)
  types := List.replicate p.allConstants.length .continuous
  upper := p.allSenses.map fun s => if s = .le then .value 0 else .plusInf
  lower := List.replicate p.allConstants.length .minusInf
  objective := p.allConstants.map (- ·)

/-- The dual of a program with continuous columns. -/
def dualize (p : LinearProgram α) : Except Error (LinearProgram α) :=
  match p.discreteColumn? with
  | some (j, t) => .error (.dualUndefined j t)
  | none => .ok p.dualProgram

end LinearProgram

end ConicForm
