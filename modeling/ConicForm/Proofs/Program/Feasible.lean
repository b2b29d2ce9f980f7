import ConicForm.Program.Cone
import ConicForm.Proofs.Matrix.Weight

/-!
# Feasible points of programs

The meaning of a program in exact arithmetic: an assignment of its columns is feasible if
all rows, bounds and records hold. Types of columns are no part of this.

## Main definitions

* `Sense.Holds`, `Bound.IsUpper`, `Bound.IsLower`, `RecordHolds`: single conditions
* `LinearProgram.Feasible`, `ConeProgram.Feasible`: the feasible assignments
* `LinearProgram.points`: the feasible points, as assignments that vanish elsewhere
* `LinearProgram.objectiveValue`: the objective at an assignment

## Main results

* `LinearProgram.Feasible.congr`: only a program's own columns matter
-/

namespace ConicForm

variable {K : Type} [Field K] [LinearOrder K]

/-- The relation of a row between its value and its right-hand side. -/
def Sense.Holds : Sense → K → K → Prop
  | le, a, b => a ≤ b
  | eq, a, b => a = b

instance (s : Sense) (a b : K) : Decidable (s.Holds a b) :=
  match s with
  | .le => inferInstanceAs (Decidable (a ≤ b))
  | .eq => inferInstanceAs (Decidable (a = b))

namespace Bound

/-- Whether a bound is an upper bound of a value. -/
def IsUpper : Bound K → K → Prop
  | minusInf, _ => False
  | value b, x => x ≤ b
  | plusInf, _ => True

/-- Whether a bound is a lower bound of a value. -/
def IsLower : Bound K → K → Prop
  | minusInf, _ => True
  | value b, x => b ≤ x
  | plusInf, _ => False

instance (b : Bound K) (x : K) : Decidable (b.IsUpper x) :=
  match b with
  | minusInf => inferInstanceAs (Decidable False)
  | value b => inferInstanceAs (Decidable (x ≤ b))
  | plusInf => inferInstanceAs (Decidable True)

instance (b : Bound K) (x : K) : Decidable (b.IsLower x) :=
  match b with
  | minusInf => inferInstanceAs (Decidable True)
  | value b => inferInstanceAs (Decidable (b ≤ x))
  | plusInf => inferInstanceAs (Decidable False)

theorem isZero_iff {b : Bound K} : b.isZero = true ↔ b = value 0 := by
  cases b <;> simp [isZero]

@[simp] theorem finite?_value (x : K) : (value x).finite? = some x := rfl

@[simp] theorem finite?_minusInf : (minusInf : Bound K).finite? = none := rfl

@[simp] theorem finite?_plusInf : (plusInf : Bound K).finite? = none := rfl

end Bound

/-- Whether the first column of a record is at least the Euclidean norm of the others: it is
nonnegative and their squares sum to at most its square. An empty record always holds. -/
def RecordHolds (x : Nat → K) : List Nat → Prop
  | [] => True
  | head :: rest => 0 ≤ x head ∧ (rest.map fun j => x j ^ 2).sum ≤ x head ^ 2

instance (x : Nat → K) (r : List Nat) : Decidable (RecordHolds x r) :=
  match r with
  | [] => inferInstanceAs (Decidable True)
  | _ :: _ => inferInstanceAs (Decidable (_ ∧ _))

theorem RecordHolds.congr {x x' : Nat → K} {r : List Nat} (h : ∀ j ∈ r, x j = x' j)
    (hx : RecordHolds x r) : RecordHolds x' r := by
  cases r with
  | nil => trivial
  | cons head rest =>
    have hrest : rest.map (fun j => x' j ^ 2) = rest.map fun j => x j ^ 2 :=
      List.map_congr_left fun j hj => by rw [h j (by simp [hj])]
    simp only [RecordHolds] at hx ⊢
    rwa [hrest, ← h head (by simp)]

namespace LinearProgram

/-- The assignments of the columns under which all rows and bounds hold. -/
structure Feasible (p : LinearProgram K) (x : Nat → K) : Prop where
  rows : ∀ i < p.nrows,
    (p.senses.getD i .le).Holds (p.linear.rowValue x i) (p.constants.getD i 0)
  upper : ∀ j < p.ncols, (p.upper.getD j .plusInf).IsUpper (x j)
  lower : ∀ j < p.ncols, (p.lower.getD j .minusInf).IsLower (x j)

theorem feasible_iff {p : LinearProgram K} {x : Nat → K} :
    p.Feasible x ↔
      (∀ i < p.nrows, (p.senses.getD i .le).Holds (p.linear.rowValue x i) (p.constants.getD i 0)) ∧
      (∀ j < p.ncols, (p.upper.getD j .plusInf).IsUpper (x j)) ∧
      ∀ j < p.ncols, (p.lower.getD j .minusInf).IsLower (x j) :=
  ⟨fun h => ⟨h.rows, h.upper, h.lower⟩, fun h => ⟨h.1, h.2.1, h.2.2⟩⟩

instance (p : LinearProgram K) (x : Nat → K) : Decidable (p.Feasible x) :=
  decidable_of_iff _ feasible_iff.symm

/-- The feasible points: the feasible assignments that vanish outside the columns. -/
def points (p : LinearProgram K) : Set (Nat → K) :=
  {x | p.Feasible x ∧ ∀ j, p.ncols ≤ j → x j = 0}

/-- The objective at an assignment. -/
def objectiveValue (p : LinearProgram K) (x : Nat → K) : K :=
  ∑ j ∈ Finset.range p.ncols, p.objective.getD j 0 * x j

end LinearProgram

namespace ConeProgram

/-- The assignments of the columns under which all rows, bounds and records hold. -/
structure Feasible (p : ConeProgram K) (x : Nat → K) : Prop where
  linear : p.linear.Feasible x
  records : ∀ r ∈ p.records, RecordHolds x r

instance (p : ConeProgram K) (x : Nat → K) : Decidable (p.Feasible x) :=
  decidable_of_iff (p.linear.Feasible x ∧ ∀ r ∈ p.records, RecordHolds x r)
    ⟨fun h => ⟨h.1, h.2⟩, fun h => ⟨h.linear, h.records⟩⟩

end ConeProgram

end ConicForm
