import ConicForm.Constraint
import ConicForm.Convex.Expression
import ConicForm.Model.Piece
import ConicForm.Program.Linear

/-!
# The store of a model

A store holds the columns of a model, its linear and piecewise-linear constraints, its
bounds and its objective. Column 0 is the objective column: the canonical program
minimizes it, subject to being at least the objective.

## Main definitions

* `Store`: declared blocks, constraints and objective
* `Store.declare`, `Store.insert`, `Store.setObjective`, `Store.clear`: changes
* `Store.classify`: the constraints that a store takes
* `Store.epigraph`: the objective as a constraint
* `Store.assembled`, `Store.assemble`: the linear program of a store and an expansion
-/

namespace ConicForm

/-- The settings of a model. -/
structure Settings where
  /-- How deep collections of constraints may be nested. -/
  maxNesting : Nat := 32
  /-- The type of columns declared without one. -/
  defaultType : VariableType := .continuous
  deriving DecidableEq, Repr

/-- The direction of an objective. -/
inductive Goal where
  | minimize
  | maximize
  deriving DecidableEq, Repr

/-- The curvature that a goal needs. -/
def Goal.curvature : Goal → Curvature
  | minimize => .convex
  | maximize => .concave

/-- The factor of an affine objective in the canonical program. -/
def Goal.factor {α : Type} [Scalar α] : Goal → α
  | minimize => 1
  | maximize => -1

/-- A convex or concave objective, turned so that it is to be minimized. -/
def Goal.orient {α : Type} [Scalar α] (goal : Goal) (c : ConvexExpression α) :
    ConvexExpression α :=
  match goal with
  | minimize => c
  | maximize => c.neg

/-- An expression to be minimized or maximized. -/
inductive Objective (α : Type) [Scalar α] where
  | affine (a : Affine α)
  | convex (c : ConvexExpression α)

namespace Objective

variable {α : Type} [Scalar α]

/-- The owner of the columns. -/
def owner : Objective α → Option ModelId
  | affine a => a.owner
  | convex c => c.owner

/-- The shape of the value. -/
def shape : Objective α → Shape
  | affine a => a.shape
  | convex c => c.shape

end Objective

/-- A constraint that a store takes. -/
inductive StoreItem (α : Type) [Scalar α] where
  | rows (c : LinearConstraint α)
  | bounds (c : Bounds α)
  | piecewise (c : ConvexConstraint PiecewiseKind α)

/-- Columns, linear and piecewise-linear constraints, bounds and objective of a model. -/
structure Store (α : Type) [Scalar α] where
  id : ModelId
  name : Option String
  settings : Settings
  /-- The blocks declared after the objective column, in order. -/
  declared : List Block
  rows : List (LinearConstraint α)
  bounds : List (Bounds α)
  piecewise : List (ConvexConstraint PiecewiseKind α)
  objective : Option (Objective α × Goal)

namespace Store

variable {α : Type} [Scalar α]

/-- A store without declared blocks, constraints and objective. -/
def empty (id : ModelId) (settings : Settings) (name : Option String) : Store α :=
  ⟨id, name, settings, [], [], [], [], none⟩

/-! ### Columns -/

/-- The objective column. -/
def objectiveBlock (s : Store α) : Block := ⟨s.id, 0, .scalar, .continuous, some "obj"⟩

/-- All blocks, that of the objective column first. -/
def blocks (s : Store α) : List Block := s.objectiveBlock :: s.declared

/-- The number of columns. -/
def columnCount (s : Store α) : Nat := Block.totalSize s.blocks

/-- Declares a block of columns behind the others. -/
def declare (s : Store α) (shape : Shape) (type : VariableType) (name : Option String) :
    Block × Store α :=
  let b : Block := ⟨s.id, s.columnCount, shape, type, name⟩
  (b, { s with declared := s.declared ++ [b] })

theorem columnCount_declare (s : Store α) (shape : Shape) (type : VariableType)
    (name : Option String) :
    (s.declare shape type name).2.columnCount = s.columnCount + shape.size := by
  simp [declare, columnCount, blocks, objectiveBlock, Block.size, Nat.add_assoc]

/-! ### Constraints -/

/-- Sorts a constraint into the part of the store that takes it. -/
def classify (s : Store α) (c : Constraint α) : Except Error (StoreItem α) :=
  match c with
  | .cone _ | .expCone _ => .error (.unsupportedConstraint c.sort)
  | .linear r => if r.owner = some s.id then .ok (.rows r) else .error .ownership
  | .bounds b => if b.owner = s.id then .ok (.bounds b) else .error .ownership
  | .convex v =>
    if v.owner = some s.id then
      match v.kind with
      | .piecewise k => .ok (.piecewise { v with kind := k })
      | k => .error (.unsupportedKind k)
    else .error .ownership

/-- Adds a constraint behind the others of its part. -/
def insert (s : Store α) : StoreItem α → Store α
  | .rows c => { s with rows := s.rows ++ [c] }
  | .bounds c => { s with bounds := s.bounds ++ [c] }
  | .piecewise c => { s with piecewise := s.piecewise ++ [c] }

/-- The store without constraints and objective. -/
def clear (s : Store α) : Store α :=
  { s with rows := [], bounds := [], piecewise := [], objective := none }

/-! ### Objective -/

/-- Sets the objective. It has one element and the curvature of its goal; `handles` says
which functions the model can bring into conic form. -/
def setObjective (s : Store α) (handles : ConvexKind → Bool) (e : Objective α) (goal : Goal) :
    Except Error (Store α) :=
  if e.owner.any (· ≠ s.id) then .error .ownership
  else if e.shape.size ≠ 1 then .error (.mismatch (.shapes .scalar e.shape))
  else
    let s' := { s with objective := some (e, goal) }
    match e with
    | .affine _ => .ok s'
    | .convex c =>
      if !handles c.kind then .error (.unsupportedKind c.kind)
      else if c.curvature ≠ goal.curvature then .error (.curvature (.objective c.curvature c.kind))
      else .ok s'

/-- The constraint that the objective column is at least the objective, which is negated
when it is to be maximized. -/
def epigraph (s : Store α) : Except Error (Option (Piece α)) := do
  let t := Affine.ofBlock s.objectiveBlock
  match s.objective with
  | none => return none
  | some (.affine a, goal) => return some (.rows (← (a.scale goal.factor).le t))
  | some (.convex c, goal) => return some (← Piece.ofConvex (← (goal.orient c).le t))

/-! ### Assembly -/

/-- The bounds that its type gives a column. -/
def typeBounds : VariableType → Bound α × Bound α
  | .binary => (.value 0, .value 1)
  | _ => (.minusInf, .plusInf)

/-- Sets bounds on one side, in order; of several for a column the last one holds. -/
def applyBounds (side : Side) (bounds : List (Bounds α)) (start : List (Bound α)) :
    List (Bound α) :=
  (bounds.filter (·.side = side)).foldl
    (fun bs b => b.items.foldl (fun bs (j, x) => bs.set j x) bs) start

/-- The linear program of the store and an expansion of further pieces, without regard to
missing columns. Stored rows come before those of the expansion; bounds are set in order,
after those that types give. -/
def assembled (s : Store α) (e : Expansion α) : LinearProgram α :=
  let n := s.columnCount + e.width
  let rows := s.rows ++ e.rows
  let bounds := s.bounds ++ e.bounds
  let types := Block.types (s.blocks ++ e.blocks)
  { linear := .stack (rows.map (·.linear)) n
    constants := rows.flatMap (·.constant)
    senses := rows.flatMap fun c => List.replicate c.length c.sense
    types := types
    upper := applyBounds .upper bounds (types.map fun t => (typeBounds t).2)
    lower := applyBounds .lower bounds (types.map fun t => (typeBounds t).1)
    objective := (List.range n).map fun j => if j = 0 ∧ s.objective.isSome then 1 else 0 }

/-- The linear program of the store and an expansion of further pieces. Rows and bounds over
columns that a copy of the model declared are refused. -/
def assemble (s : Store α) (e : Expansion α) : Except Error (LinearProgram α) :=
  let n := s.columnCount + e.width
  match (s.rows ++ e.rows).find? fun c => n < c.linear.ncols with
  | some c => .error (.inconsistent (.missingColumn (c.linear.ncols - 1) n))
  | none =>
    match ((s.bounds ++ e.bounds).flatMap (·.items)).find? fun (j, _) => n ≤ j with
    | some (j, _) => .error (.indexOutOfRange j n)
    | none => .ok (s.assembled e)

end Store

end ConicForm
