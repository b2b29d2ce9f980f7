import ConicForm.Program.Linear

/-!
# Second-order cone programs

A cone program is a linear program with records of columns. The first column of a record
is at least the Euclidean norm of the others.

## Main definitions

* `ConeProgram`: a linear program with records
* `ConeProgram.ofRecords`: a program with records that have members
* `ConeProgram.withRecords`: a program whose records may be empty
-/

namespace ConicForm

/-- A linear program with second-order cone records: in each record the first column is
at least the Euclidean norm of the others. -/
structure ConeProgram (α : Type) [Scalar α] where
  linear : LinearProgram α
  records : List (List Nat)

namespace ConeProgram

variable {α : Type} [Scalar α]

instance : BEq (ConeProgram α) where
  beq p q := p.linear == q.linear && p.records == q.records

/-- A program whose records refer to its own columns. Records may be empty, as in a dual
where no multiplier occurs. -/
def withRecords (p : LinearProgram α) (records : List (List Nat)) : Except Error (ConeProgram α) :=
  match records.flatten.find? fun j => p.ncols ≤ j with
  | some j => .error (.indexOutOfRange j p.ncols)
  | none => .ok ⟨p, records⟩

/-- A program whose records have members and refer to its own columns. -/
def ofRecords (p : LinearProgram α) (records : List (List Nat)) : Except Error (ConeProgram α) :=
  if records.any List.isEmpty then .error (.inconsistent .emptyRecord)
  else withRecords p records

theorem withRecords_eq_ok_iff {p : LinearProgram α} {records : List (List Nat)}
    {q : ConeProgram α} :
    withRecords p records = .ok q ↔ (∀ r ∈ records, ∀ j ∈ r, j < p.ncols) ∧ q = ⟨p, records⟩ := by
  unfold withRecords
  split
  · next j hj =>
    obtain ⟨r, hr, hjr⟩ := List.mem_flatten.mp (List.mem_of_find?_eq_some hj)
    have := List.find?_some hj
    simp only [decide_eq_true_eq] at this
    simp only [reduceCtorEq, false_iff, not_and]
    intro h
    exact absurd (h r hr j hjr) (Nat.not_lt.mpr this)
  · next hn =>
    have hn : ∀ r ∈ records, ∀ j ∈ r, j < p.ncols := by simpa using hn
    simp only [Except.ok.injEq, eq_comm, and_iff_right hn]

end ConeProgram

end ConicForm
