import ConicForm.Program.Cone
import ConicForm.Text.Table

/-!
# Reports on programs

## Main definitions

* `LinearProgram.table`: the coefficients of a program
* `ConeProgram.recordTable`: the records of a program as signs
* `LinearProgram.summary`, `ConeProgram.summary`: counts of rows, columns and coefficients
-/

namespace ConicForm

variable {α : Type} [Scalar α]

namespace LinearProgram

/-- The coefficients, with rows `C1`, `C2`, ... and columns `x1`, `x2`, ... -/
def table (p : LinearProgram α) : Table α where
  rowLabels := Table.labels "C" p.nrows
  colLabels := Table.labels "x" p.ncols
  coefficients := p.linear.toDense
  senses := p.senses
  constants := p.constants

/-- The lines that count rows, columns and coefficients. -/
def countLines (p : LinearProgram α) : List String :=
  let continuous := p.countType .continuous
  let binaries := p.countType .binary
  let integers := p.countType .integer
  let inequalities := p.countInequalities
  let equalities := p.nrows - inequalities
  ["=============================================",
    s!"Number of variables:           {p.ncols}",
    s!"Continuous/binaries/integers:  {continuous}/{binaries}/{integers}",
    "---------------------------------------------",
    s!"Number of linear constraints:  {p.nrows}",
    s!"Inequalities/equalities:       {inequalities}/{equalities}",
    s!"Number of coefficients:        {p.linear.count}"]

/-- The summary of a linear program, a line at a time. -/
def summary (p : LinearProgram α) : String :=
  String.join (("Linear program object:" :: p.countLines).map (· ++ "\n"))

end LinearProgram

namespace ConeProgram

/-- The row of a record over `n` columns: minus one is written at its head, and then one at each of
the others in order. -/
def recordRow (n : Nat) (r : List Nat) : List α :=
  match r with
  | [] => List.replicate n 0
  | head :: rest => rest.foldl (fun row j => row.set j 1) ((List.replicate n 0).set head (-1))

omit [Scalar α] in
theorem length_foldl_set (js : List Nat) (x : α) (row : List α) :
    (js.foldl (fun row j => row.set j x) row).length = row.length := by
  induction js generalizing row with
  | nil => rfl
  | cons j js ih => rw [List.foldl_cons, ih, List.length_set]

@[simp] theorem length_recordRow (n : Nat) (r : List Nat) :
    (recordRow n r : List α).length = n := by
  cases r <;> simp [recordRow, length_foldl_set]

/-- The records, with rows `QC1`, `QC2`, ... and columns `q1`, `q2`, ... -/
def recordTable (p : ConeProgram α) : Table α where
  rowLabels := Table.labels "QC" p.records.length
  colLabels := Table.labels "q" p.linear.ncols
  coefficients :=
    ⟨p.linear.ncols, p.records.map (recordRow p.linear.ncols), by simp⟩
  senses := List.replicate p.records.length .le
  constants := List.replicate p.records.length 0

/-- The summary of a cone program, a line at a time. -/
def summary (p : ConeProgram α) : String :=
  let lines := "Second order cone program object:" :: p.linear.countLines ++
    ["---------------------------------------------",
      s!"Number of SOC constraints:     {p.records.length}"]
  String.join (lines.map (· ++ "\n"))

end ConeProgram

end ConicForm
