import ConicForm.Column.Block
import ConicForm.Column.Bound

/-!
# Bounds on blocks

## Main definitions

* `Bounds`: upper or lower bounds of columns, in order
* `Block.upper`, `Block.lower`, `Block.nonneg`, `Block.nonpos`: bounds on a block
-/

namespace ConicForm

/-- The side on which a column is bounded. -/
inductive Side where
  | upper
  | lower
  deriving DecidableEq, Repr

/-- Bounds of columns, all on one side. -/
structure Bounds (α : Type) where
  owner : ModelId
  side : Side
  /-- The columns with their bounds, in order. -/
  items : List (Nat × Bound α)
  deriving Repr

namespace Bounds

variable {α : Type}

instance [BEq α] : BEq (Bounds α) where
  beq b c := b.owner == c.owner && b.side == c.side && b.items == c.items

/-- One bound for all columns of a block. -/
def uniform (b : Block) (side : Side) (value : Bound α) : Bounds α :=
  ⟨b.owner, side, b.columns.map (·, value)⟩

/-- Bounds for the columns of a block: one value for all of them, or one for each. -/
def ofValues (b : Block) (side : Side) (values : List (Bound α)) : Except Error (Bounds α) :=
  match values with
  | [value] => .ok (uniform b side value)
  | values =>
    if values.length = b.size then .ok ⟨b.owner, side, b.columns.zip values⟩
    else .error (.mismatch (.boundValues b.size values.length))

theorem mem_block_of_mem_uniform {b : Block} {side : Side} {value : Bound α} {p : Nat × Bound α}
    (h : p ∈ (uniform b side value).items) : p.1 ∈ b.columns := by
  obtain ⟨j, hj, rfl⟩ := List.mem_map.mp h
  exact hj

end Bounds

namespace Block

variable {α : Type}

/-- Upper bounds on a block. -/
def upper (b : Block) (values : List (Bound α)) : Except Error (Bounds α) :=
  Bounds.ofValues b .upper values

/-- Lower bounds on a block. -/
def lower (b : Block) (values : List (Bound α)) : Except Error (Bounds α) :=
  Bounds.ofValues b .lower values

/-- The bound of a block by zero from below. -/
def nonneg [Zero α] (b : Block) : Bounds α := .uniform b .lower (.value 0)

/-- The bound of a block by zero from above. -/
def nonpos [Zero α] (b : Block) : Bounds α := .uniform b .upper (.value 0)

end Block

end ConicForm
