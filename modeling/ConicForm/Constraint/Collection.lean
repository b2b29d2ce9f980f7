import ConicForm.Constraint

/-!
# Collections of constraints

A collection is a single constraint or a group of collections, in order. Models take the
constraints of a collection from left to right, provided that it is not nested too deep.

## Main definitions

* `Collection`: nested groups
* `Collection.walk`, `Collection.flatten`: the constraints in order, found with a list of
  pending collections
* `Collection.leaves`, `Collection.depth`: the same constraints and the nesting by
  recursion on the collection
-/

namespace ConicForm

/-- A member, or an ordered group of collections. -/
inductive Collection (γ : Type) where
  | leaf (member : γ)
  | group (members : List (Collection γ))

theorem foldr_add_append (xs ys : List Nat) :
    (xs ++ ys).foldr (· + ·) 0 = xs.foldr (· + ·) 0 + ys.foldr (· + ·) 0 := by
  induction xs with
  | nil => simp
  | cons x xs ih => simp only [List.cons_append, List.foldr_cons, ih, Nat.add_assoc]

namespace Collection

variable {γ : Type}

/-- The members from left to right. -/
def leaves : Collection γ → List γ
  | leaf c => [c]
  | group ts => ts.flatMap leaves

/-- The largest number of groups around a member or an empty group, an empty group itself
included. -/
def depth : Collection γ → Nat
  | leaf _ => 0
  | group ts => 1 + (ts.map depth).foldr max 0

/-- The number of members and groups. -/
def nodes : Collection γ → Nat
  | leaf _ => 1
  | group ts => 1 + (ts.map nodes).foldr (· + ·) 0

@[simp] theorem leaves_leaf (c : γ) : (leaf c).leaves = [c] := by
  simp only [leaves]

@[simp] theorem leaves_group (ts : List (Collection γ)) :
    (group ts).leaves = ts.flatMap leaves := by
  simp only [leaves]

@[simp] theorem depth_leaf (c : γ) : (leaf c).depth = 0 := by
  simp only [depth]

@[simp] theorem depth_group (ts : List (Collection γ)) :
    (group ts).depth = 1 + (ts.map depth).foldr max 0 := by
  simp only [depth]

@[simp] theorem nodes_leaf (c : γ) : (leaf c).nodes = 1 := by
  simp only [nodes]

@[simp] theorem nodes_group (ts : List (Collection γ)) :
    (group ts).nodes = 1 + (ts.map nodes).foldr (· + ·) 0 := by
  simp only [nodes]

/-- Collections with the same number of groups around each. -/
def within (d : Nat) (ts : List (Collection γ)) : List (Collection γ × Nat) := ts.map (·, d)

/-- The members of pending collections, each with the number of groups around it. A group
that already has `limit` groups around it is an error. -/
def walk (limit : Nat) : List (Collection γ × Nat) → Except Error (List γ)
  | [] => .ok []
  | (leaf c, _) :: pending => return c :: (← walk limit pending)
  | (group ts, d) :: pending =>
    if limit ≤ d then .error (.nestedTooDeep limit)
    else walk limit (within (d + 1) ts ++ pending)
termination_by pending => (pending.map fun p => p.1.nodes).foldr (· + ·) 0
decreasing_by
  · simp
  · simp [within, Function.comp_def, foldr_add_append, -List.foldr_append]

/-- The members from left to right, unless groups are nested deeper than `limit`. -/
def flatten (t : Collection γ) (limit : Nat) : Except Error (List γ) := walk limit [(t, 0)]

end Collection

end ConicForm
