import ConicForm.Column.Type
import ConicForm.Convex.Kind
import ConicForm.Shape

/-!
# Errors

An error is a cause with what it is about; its wording is in `Error.message`. A change that may
fail answers whether it did beside what it leads to.

## Main definitions

* `Mismatch`: two sizes that should agree
* `CurvatureFault`: a convex or concave expression where the other is needed
* `Inconsistency`: a model or program that refers to what it does not have
* `Error`, `Error.message`: all causes and their text
* `attempt`, `outcome`: a change that may fail, and what it leads to unless it does

## Main results

* `exists_of_bind_eq_ok`: a computation that succeeds has a first step that does
* `attempt_eq_ok_iff`, `snd_attempt_of_error`: what a change leads to
-/

namespace ConicForm

theorem exists_of_bind_eq_ok {ε σ τ : Type} {x : Except ε σ} {f : σ → Except ε τ} {r : τ}
    (h : x >>= f = .ok r) : ∃ a, x = .ok a ∧ f a = .ok r := by
  cases x with
  | error e => cases h
  | ok a => exact ⟨a, rfl, h⟩

/-! ## Changes that may fail -/

section Attempt

variable {ε σ μ : Type}

/-- A change of `m` that may fail: what has been computed is put into place, unless the computation
failed. -/
def attempt (m : μ) (r : Except ε σ) (put : σ → μ) : Except ε Unit × μ :=
  match r with
  | .ok s => (.ok (), put s)
  | .error e => (.error e, m)

/-- What a change has led to, unless it failed. -/
def outcome (r : Except ε Unit × μ) : Except ε μ := r.1.map fun _ => r.2

variable {m m' : μ} {r : Except ε σ} {put : σ → μ} {e : ε}

theorem attempt_eq_ok_iff : attempt m r put = (.ok (), m') ↔ ∃ s, r = .ok s ∧ put s = m' := by
  cases r <;> simp [attempt]

theorem fst_attempt_eq_ok_iff : (attempt m r put).1 = .ok () ↔ ∃ s, r = .ok s := by
  cases r <;> simp [attempt]

theorem fst_attempt_eq_error_iff : (attempt m r put).1 = .error e ↔ r = .error e := by
  cases r <;> simp [attempt]

/-- **A change that fails changes nothing.** -/
theorem snd_attempt_of_error (h : (attempt m r put).1 = .error e) : (attempt m r put).2 = m := by
  cases r with
  | error e' => rfl
  | ok s => cases h

theorem outcome_attempt (m : μ) (r : Except ε σ) (put : σ → μ) :
    outcome (attempt m r put) = r.map put := by
  cases r <;> rfl

theorem map_outcome (x : Except ε Unit × μ) : (outcome x).map (fun _ => ()) = x.1 := by
  obtain ⟨_ | _, m⟩ := x <;> rfl

end Attempt

/-- The sorts of constraints. -/
inductive ConstraintSort where
  | linear
  | bounds
  | convex
  | cone
  | expCone
  deriving DecidableEq, Repr

/-- The name of a sort of constraints, as in messages. -/
def ConstraintSort.name : ConstraintSort → String
  | linear => "linear constraint"
  | bounds => "bounds"
  | convex => "convex constraint"
  | cone => "second-order cone constraint"
  | expCone => "exponential cone constraint"

/-- Two sizes that should agree and do not. -/
inductive Mismatch where
  /-- Two operands, or an operand where one element is due. -/
  | shapes (expected got : Shape)
  /-- The values given for a constant of some shape. -/
  | constantValues (shape : Shape) (count : Nat)
  /-- The columns of a constant matrix and the operand on its right. -/
  | leadingDimension (cols : Nat) (got : Shape)
  /-- The values given for the bounds of a block. -/
  | boundValues (size count : Nat)
  /-- The elements given as the apex of a cone. -/
  | apex (count : Nat)
  /-- The elements given as a coordinate of an exponential cone. -/
  | coordinate (count : Nat)
  deriving DecidableEq, Repr

namespace Mismatch

/-- What should have been there. -/
def expected : Mismatch → String
  | shapes s _ => s.text
  | constantValues s _ => s!"{s.size} values for shape {s.text}"
  | leadingDimension n _ => s!"({n}, ...)"
  | boundValues n _ => s!"1 or {n} bound values"
  | apex _ => "a single apex element"
  | coordinate _ => "a single element"

/-- What was there instead. -/
def got : Mismatch → String
  | shapes _ s => s.text
  | constantValues _ n => s!"{n} values"
  | leadingDimension _ s => s.text
  | boundValues _ n => s!"{n} values"
  | apex n => s!"{n} elements"
  | coordinate n => s!"{n} elements"

end Mismatch

/-- A convex or concave expression where the other one is needed. -/
inductive CurvatureFault where
  /-- A concave expression bounded from above, or a convex one from below. -/
  | comparison (curvature : Curvature) (kind : ConvexKind)
  /-- A concave expression to be minimized, or a convex one to be maximized. -/
  | objective (curvature : Curvature) (kind : ConvexKind)
  deriving DecidableEq, Repr

/-- What is wrong with the use of an expression. -/
def CurvatureFault.text : CurvatureFault → String
  | comparison .concave k => s!"concave {k.name} expression on the left of <="
  | comparison .convex k => s!"convex {k.name} expression on the left of >="
  | objective .concave k => s!"cannot minimize a concave {k.name} expression"
  | objective .convex k => s!"cannot maximize a convex {k.name} expression"

/-- A model or program that refers to what it does not have. -/
inductive Inconsistency where
  /-- A stored row refers to a column that the program does not have. -/
  | missingColumn (column count : Nat)
  /-- A linear model holds an objective that linear rows do not describe. -/
  | notPiecewiseLinear (kind : ConicKind)
  /-- A cone record has no members. -/
  | emptyRecord
  deriving DecidableEq, Repr

/-- What is missing. -/
def Inconsistency.text : Inconsistency → String
  | missingColumn j n => s!"constraint references column {j} of {n}"
  | notPiecewiseLinear k => s!"{k.name} is not piecewise-linear"
  | emptyRecord => "empty cone record"

/-- The causes for which an operation fails. -/
inductive Error where
  /-- Columns of another model occur, or of two models. -/
  | ownership
  /-- The model has no conic form for the function. -/
  | unsupportedKind (kind : ConvexKind)
  /-- The model does not take constraints of the sort. -/
  | unsupportedConstraint (sort : ConstraintSort)
  /-- A collection of constraints is nested deeper than the limit. -/
  | nestedTooDeep (limit : Nat)
  | mismatch (cause : Mismatch)
  | indexOutOfRange (index size : Nat)
  | curvature (fault : CurvatureFault)
  /-- A column, counted from zero, is not continuous. -/
  | dualUndefined (column : Nat) (type : VariableType)
  | inconsistent (cause : Inconsistency)
  deriving DecidableEq, Repr

/-- The text of an error. -/
def Error.message : Error → String
  | ownership => "Constraints are not defined for this model"
  | unsupportedKind k => s!"Unsupported convex category: {k.name}"
  | unsupportedConstraint s => s!"Unsupported constraint type: {s.name}"
  | nestedTooDeep n => s!"Constraint collections nested deeper than {n} levels"
  | mismatch m => s!"Shape mismatch: expected {m.expected}, got {m.got}"
  | indexOutOfRange i n => s!"Index {i} out of range for {n} elements"
  | curvature f => s!"Nonconvex constraint or objective: {f.text}"
  | dualUndefined j t => s!"Dual problem undefined: column {j + 1} has type {t.text}"
  | inconsistent c => s!"Internal error: {c.text}"

end ConicForm
