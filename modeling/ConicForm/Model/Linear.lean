import ConicForm.Constraint.Collection
import ConicForm.Model.Cache
import ConicForm.Model.Store
import ConicForm.Program.LinearDual

/-!
# Linear models

A linear model is a store with two cached programs: its canonical linear program and the
dual of that. Every change of the store drops both; a change that fails leaves the model.

## Main definitions

* `LinearModel`: a store with cached programs
* `LinearModel.declare`, `LinearModel.subjectTo`, `LinearModel.setObjective`,
  `LinearModel.reset`: changes
* `LinearModel.primal`, `LinearModel.dual`: the canonical program and its dual
-/

namespace ConicForm

namespace Store

variable {α : Type} [Scalar α]

/-- The store with all constraints of a collection, unless one of them is not taken. -/
def insertAll (s : Store α) (cs : List (Constraint α)) : Except Error (Store α) := do
  let items ← cs.mapM s.classify
  return items.foldl insert s

/-- The pieces that a store contributes to a linear program. An objective that linear rows
do not describe has no place there. -/
def linearPieces (s : Store α) : Except Error (List (Piece α)) := do
  match ← s.epigraph with
  | some (.conic c) => throw (.inconsistent (.notPiecewiseLinear c.kind))
  | first? => return first?.toList ++ s.piecewise.map .piecewise

/-- The canonical linear program of a store. -/
def linearProgram (s : Store α) : Except Error (LinearProgram α) := do
  let pieces ← s.linearPieces
  s.assemble (← expandAll s.id s.columnCount pieces)

end Store

/-- A store with its cached programs. -/
structure LinearModel (α : Type) [Scalar α] where
  store : Store α
  primalCache : Cache (LinearProgram α)
  dualCache : Cache (LinearProgram α)

namespace LinearModel

variable {α : Type} [Scalar α]

/-- The model of a store, with nothing cached. -/
def ofStore (s : Store α) : LinearModel α := ⟨s, .empty, .empty⟩

/-- A model without constraints and objective. -/
def empty (id : ModelId) (settings : Settings) (name : Option String) : LinearModel α :=
  ofStore (.empty id settings name)

/-- The model after a change of its store. -/
def update (m : LinearModel α) (s : Store α) : LinearModel α :=
  ⟨s, m.primalCache.invalidate, m.dualCache.invalidate⟩

/-- Declares a block of columns. -/
def declare (m : LinearModel α) (shape : Shape) (type : VariableType) (name : Option String) :
    Block × LinearModel α :=
  let (b, s) := m.store.declare shape type name
  (b, m.update s)

/-- Declares a block of columns of the default type. -/
def declareDefault (m : LinearModel α) (shape : Shape) : Block × LinearModel α :=
  m.declare shape m.store.settings.defaultType none

/-- Adds the constraints of a collection, all or none. -/
def subjectTo (m : LinearModel α) (t : Collection (Constraint α)) :
    Except Error Unit × LinearModel α :=
  attempt m (do m.store.insertAll (← t.flatten m.store.settings.maxNesting)) m.update

/-- Whether a linear model brings a function into conic form. -/
def handles : ConvexKind → Bool
  | .piecewise _ => true
  | _ => false

/-- Sets the objective. -/
def setObjective (m : LinearModel α) (e : Objective α) (goal : Goal) :
    Except Error Unit × LinearModel α :=
  attempt m (m.store.setObjective handles e goal) m.update

/-- Drops all constraints and the objective, and keeps the columns. -/
def reset (m : LinearModel α) : LinearModel α := m.update m.store.clear

/-- The canonical program, from the cache if it is valid. -/
def primal (m : LinearModel α) : Except Error (Handle (LinearProgram α)) × LinearModel α :=
  let r := m.primalCache.serve fun _ => m.store.linearProgram
  (r.1, { m with primalCache := r.2 })

/-- The dual of the canonical program, from the cache if it is valid. -/
def dual (m : LinearModel α) : Except Error (Handle (LinearProgram α)) × LinearModel α :=
  match m.dualCache.get? with
  | some d => (.ok d, m)
  | none =>
    match m.primal with
    | (.error e, m) => (.error e, m)
    | (.ok p, m) =>
      let r := m.dualCache.serve fun _ => p.value.dualize
      (r.1, { m with dualCache := r.2 })

end LinearModel

end ConicForm
