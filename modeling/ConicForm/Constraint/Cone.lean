import ConicForm.Column.Block

/-!
# Direct cone constraints

Memberships of declared columns in a second-order cone or in the exponential cone.

## Main definitions

* `ConeConstraint`: the Euclidean norm of some columns is at most another column
* `ExpConeConstraint`: three columns lie in the exponential cone
-/

namespace ConicForm

/-- The Euclidean norm of the columns of `vector` is at most the apex column. -/
structure ConeConstraint where
  apex : Selection
  vector : Selection
  length_apex : apex.indices.length = 1
  owner_eq : vector.block.owner = apex.block.owner
  deriving DecidableEq

namespace ConeConstraint

/-- The owner of the columns. -/
def owner (c : ConeConstraint) : ModelId := c.apex.block.owner

/-- The apex column. -/
def apexColumn (c : ConeConstraint) : Nat :=
  c.apex.columns.head (by
    rw [← List.length_pos_iff, Selection.length_columns, c.length_apex]
    exact Nat.one_pos)

/-- The columns under the norm, in order. -/
def vectorColumns (c : ConeConstraint) : List Nat := c.vector.columns

/-- The members of the cone, the apex first. -/
def record (c : ConeConstraint) : List Nat := c.apexColumn :: c.vectorColumns

/-- The membership of a vector under an apex of one element. -/
def ofSelections (vector apex : Selection) : Except Error ConeConstraint :=
  if ha : apex.indices.length = 1 then
    if ho : vector.block.owner = apex.block.owner then .ok ⟨apex, vector, ha, ho⟩
    else .error .ownership
  else .error (.mismatch (.apex apex.indices.length))

end ConeConstraint

/-- Three columns `x`, `y`, `z` with `y * exp (x / y) ≤ z`. -/
structure ExpConeConstraint where
  owner : ModelId
  x : Nat
  y : Nat
  z : Nat
  deriving DecidableEq, Repr

namespace ExpConeConstraint

/-- The columns in order. -/
def columns (c : ExpConeConstraint) : List Nat := [c.x, c.y, c.z]

/-- The column of a selection that has one element and the given owner. -/
def coordinate (owner : ModelId) (s : Selection) : Except Error Nat :=
  if s.block.owner = owner then
    match s.columns with
    | [j] => .ok j
    | js => .error (.mismatch (.coordinate js.length))
  else .error .ownership

/-- The membership of three selections of one element each. -/
def ofSelections (x y z : Selection) : Except Error ExpConeConstraint := do
  let owner := x.block.owner
  return ⟨owner, ← coordinate owner x, ← coordinate owner y, ← coordinate owner z⟩

end ExpConeConstraint

end ConicForm
