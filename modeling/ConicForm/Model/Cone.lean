import ConicForm.Model.Linear
import ConicForm.Program.ConeDual

/-!
# Cone models

A cone model adds to a store the constraints that second-order cones describe: convex ones,
which are expanded, and direct memberships. It caches its canonical cone program, the dual
of the linear part, and the dual cone program.

## Main definitions

* `ConeModel`: a store with conic constraints and cached programs
* `ConeModel.declare`, `ConeModel.subjectTo`, `ConeModel.setObjective`, `ConeModel.reset`:
  changes
* `ConeModel.primal`, `ConeModel.linearDual`, `ConeModel.dual`: the programs
* `ConeModel.base`: the store as a linear model
-/

namespace ConicForm

/-- A constraint that a cone model takes. -/
inductive ConeItem (α : Type) [Scalar α] where
  | store (item : StoreItem α)
  | conic (c : ConvexConstraint ConicKind α)
  | cone (c : ConeConstraint)

/-- What a cone model holds apart from cached programs. -/
structure ConeStore (α : Type) [Scalar α] where
  linear : Store α
  conic : List (ConvexConstraint ConicKind α)
  cones : List ConeConstraint

namespace ConeStore

variable {α : Type} [Scalar α]

/-- Sorts a constraint into the part that takes it. -/
def classify (s : ConeStore α) (c : Constraint α) : Except Error (ConeItem α) :=
  match c with
  | .convex v =>
    if v.owner = some s.linear.id then
      match v.kind with
      | .conic k => .ok (.conic { v with kind := k })
      | .piecewise k => .ok (.store (.piecewise { v with kind := k }))
      | .exp => .error (.unsupportedKind .exp)
    else .error .ownership
  | .cone k => if k.owner = s.linear.id then .ok (.cone k) else .error .ownership
  | c => return .store (← s.linear.classify c)

/-- Adds a constraint behind the others of its part. -/
def insert (s : ConeStore α) : ConeItem α → ConeStore α
  | .store item => { s with linear := s.linear.insert item }
  | .conic c => { s with conic := s.conic ++ [c] }
  | .cone c => { s with cones := s.cones ++ [c] }

/-- The store with all constraints of a list, unless one of them is not taken. -/
def insertAll (s : ConeStore α) (cs : List (Constraint α)) : Except Error (ConeStore α) := do
  let items ← cs.mapM s.classify
  return items.foldl insert s

/-- The pieces of the canonical program: a linear or piecewise-linear objective, the conic
constraints and a conic objective, and the piecewise-linear constraints. -/
def pieces (s : ConeStore α) : Except Error (List (Piece α)) := do
  let conic := s.conic.map Piece.conic
  let piecewise := s.linear.piecewise.map Piece.piecewise
  match ← s.linear.epigraph with
  | none => return conic ++ piecewise
  | some (.conic c) => return conic ++ [.conic c] ++ piecewise
  | some first => return [first] ++ conic ++ piecewise

/-- The canonical cone program. Direct memberships come behind the records of the
expansion. -/
def coneProgram (s : ConeStore α) : Except Error (ConeProgram α) := do
  let e ← expandAll s.linear.id s.linear.columnCount (← s.pieces)
  ConeProgram.ofRecords (← s.linear.assemble e) (e.records ++ s.cones.map (·.record))

end ConeStore

/-- Columns, constraints and objective with the cached programs. -/
structure ConeModel (α : Type) [Scalar α] where
  store : ConeStore α
  primalCache : Cache (ConeProgram α)
  linearDualCache : Cache (LinearProgram α)
  dualCache : Cache (ConeProgram α)

namespace ConeModel

variable {α : Type} [Scalar α]

/-- A model without constraints and objective. -/
def empty (id : ModelId) (settings : Settings) (name : Option String) : ConeModel α :=
  ⟨⟨.empty id settings name, [], []⟩, .empty, .empty, .empty⟩

/-- The store of linear constraints as a linear model of its own. -/
def base (m : ConeModel α) : LinearModel α := .ofStore m.store.linear

/-- The model after a change of its store. -/
def update (m : ConeModel α) (s : ConeStore α) : ConeModel α :=
  ⟨s, m.primalCache.invalidate, m.linearDualCache.invalidate, m.dualCache.invalidate⟩

/-- Declares a block of columns. -/
def declare (m : ConeModel α) (shape : Shape) (type : VariableType) (name : Option String) :
    Block × ConeModel α :=
  let (b, s) := m.store.linear.declare shape type name
  (b, m.update { m.store with linear := s })

/-- Declares a block of columns of the default type. -/
def declareDefault (m : ConeModel α) (shape : Shape) : Block × ConeModel α :=
  m.declare shape m.store.linear.settings.defaultType none

/-- Adds the constraints of a collection, all or none. -/
def subjectTo (m : ConeModel α) (t : Collection (Constraint α)) :
    Except Error Unit × ConeModel α :=
  attempt m (do m.store.insertAll (← t.flatten m.store.linear.settings.maxNesting)) m.update

/-- Whether a cone model brings a function into conic form. -/
def handles : ConvexKind → Bool
  | .exp => false
  | _ => true

/-- Sets the objective. -/
def setObjective (m : ConeModel α) (e : Objective α) (goal : Goal) :
    Except Error Unit × ConeModel α :=
  attempt m (m.store.linear.setObjective handles e goal) fun s =>
    m.update { m.store with linear := s }

/-- Drops all constraints and the objective, and keeps the columns. -/
def reset (m : ConeModel α) : ConeModel α := m.update ⟨m.store.linear.clear, [], []⟩

/-- The canonical cone program, from the cache if it is valid. -/
def primal (m : ConeModel α) : Except Error (Handle (ConeProgram α)) × ConeModel α :=
  let r := m.primalCache.serve fun _ => m.store.coneProgram
  (r.1, { m with primalCache := r.2 })

/-- The dual of the linear part of the canonical program, from the cache if it is valid. -/
def linearDual (m : ConeModel α) : Except Error (Handle (LinearProgram α)) × ConeModel α :=
  match m.linearDualCache.get? with
  | some d => (.ok d, m)
  | none =>
    match m.primal with
    | (.error e, m) => (.error e, m)
    | (.ok p, m) =>
      let r := m.linearDualCache.serve fun _ => p.value.linear.dualize
      (r.1, { m with linearDualCache := r.2 })

/-- The dual cone program, from the cache if it is valid. -/
def dual (m : ConeModel α) : Except Error (Handle (ConeProgram α)) × ConeModel α :=
  match m.dualCache.get? with
  | some d => (.ok d, m)
  | none =>
    -- what is built on the way stays cached also where a later step fails
    match m.primal with
    | (.error e, m) => (.error e, m)
    | (.ok p, m) =>
      match m.linearDual with
      | (.error e, m) => (.error e, m)
      | (.ok l, m) =>
        let r := m.dualCache.serve fun _ => p.value.deriveDual l.value
        (r.1, { m with dualCache := r.2 })

end ConeModel

end ConicForm
