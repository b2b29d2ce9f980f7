import ConicForm.Constraint.Linear

/-!
# Tables

A table of coefficients has a labelled line for each row and a labelled column for each
column, followed by the relation and the right-hand side of the row. Cells are aligned to
the right.

## Main definitions

* `Table`: labels, coefficients and right-hand sides
* `Table.cells`: the texts of all cells, the header first
* `Table.columnWidths`, `Table.render`: the aligned lines
-/

namespace ConicForm

/-- Coefficients with labelled rows and columns, and the rest of each row. -/
structure Table (α : Type) where
  rowLabels : List String
  colLabels : List String
  coefficients : DenseMatrix α
  senses : List Sense
  constants : List α

namespace Table

variable {α : Type}

instance [BEq α] : BEq (Table α) where
  beq s t :=
    s.rowLabels == t.rowLabels && s.colLabels == t.colLabels &&
    s.coefficients == t.coefficients && s.senses == t.senses && s.constants == t.constants

/-- The labels `stem1`, `stem2`, ... -/
def labels (stem : String) (count : Nat) : List String :=
  (List.range count).map fun i => stem ++ (i + 1).repr

/-- The number of rows. -/
def nrows (t : Table α) : Nat := t.rowLabels.length

/-- The number of columns of coefficients. -/
def ncols (t : Table α) : Nat := t.colLabels.length

/-- The texts of the header. -/
def header (t : Table α) : List String := "" :: t.colLabels ++ ["sense", "constant"]

/-- The texts of a row, numbers being written by `cell`. -/
def rowCells [Zero α] (t : Table α) (cell : α → String) (label : String) (i : Nat) :
    List String :=
  label :: (List.range t.ncols).map (fun j => cell (t.coefficients.get i j)) ++
    [(t.senses.getD i .le).text, cell (t.constants.getD i 0)]

/-- The texts of all cells, the header first. -/
def cells [Zero α] (t : Table α) (cell : α → String) : List (List String) :=
  t.header :: t.rowLabels.zipIdx.map fun (label, i) => t.rowCells cell label i

@[simp] theorem length_header (t : Table α) : t.header.length = t.ncols + 3 := by
  simp [header, ncols]

@[simp] theorem length_rowCells [Zero α] (t : Table α) (cell : α → String) (label : String)
    (i : Nat) : (t.rowCells cell label i).length = t.ncols + 3 := by
  simp [rowCells]

/-- The width of each column: the largest number of bytes of its texts. -/
def columnWidths : List (List String) → List Nat
  | [] => []
  | [row] => row.map String.utf8ByteSize
  | row :: rows => List.zipWith (fun s w => max s.utf8ByteSize w) row (columnWidths rows)

/-- A text preceded by blanks up to a number of characters. -/
def alignRight (width : Nat) (s : String) : String := "".pushn ' ' (width - s.length) ++ s

/-- A line of aligned texts, two blanks between them. -/
def line (widths : List Nat) (row : List String) : String :=
  "  ".intercalate (List.zipWith alignRight widths row) ++ "\n"

/-- The lines of a table, numbers being written by `cell`. -/
def render [Zero α] (t : Table α) (cell : α → String) : String :=
  let rows := t.cells cell
  String.join (rows.map (line (columnWidths rows)))

end Table

end ConicForm
