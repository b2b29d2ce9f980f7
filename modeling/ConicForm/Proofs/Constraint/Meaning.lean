import ConicForm.Constraint
import ConicForm.Proofs.Affine.Value
import ConicForm.Proofs.Program.Feasible

/-!
# The meaning of constraints

When each sort of constraint holds at an assignment of the columns. Constraints are read as
they are stored: linear rows with all columns on the left, and a squaring function with
its bound negated.

## Main definitions

* `LinearConstraint.Holds`, `Bounds.Holds`: rows and bounds
* `ConeConstraint.members`, `ConeConstraint.Holds`: direct cones
* `PiecewiseKind.AtMost`, `ConicKind.AtMost`: a convex function under a bound
* `ConvexConstraint.PiecewiseHolds`, `ConvexConstraint.ConicHolds`: convex constraints
* `LinearConstraint.Describes`: rows given by their values
* `LinearConstraint.Mentions`, `LinearConstraint.Ties`: where rows have coefficients

## Main results

* `Affine.exists_le`, `Affine.exists_eq`: comparisons of expressions describe their difference
* `ConicKind.holds_iff_atMost`: what a stored constraint says of the function itself
-/

namespace ConicForm

variable {K : Type} [Field K] [LinearOrder K]

/-! ## Rows -/

namespace LinearConstraint

/-- Whether all rows hold. -/
def Holds (c : LinearConstraint K) (x : Nat → K) : Prop :=
  ∀ i < c.length, c.sense.Holds (c.linear.rowValue x i) (c.constant.getD i 0)

instance (c : LinearConstraint K) (x : Nat → K) : Decidable (c.Holds x) :=
  inferInstanceAs (Decidable (∀ i < c.length, _))

theorem Holds.congr {c : LinearConstraint K} {x x' : Nat → K}
    (h : ∀ j < c.linear.ncols, x j = x' j) (hc : c.Holds x) : c.Holds x' := by
  intro i hi
  rw [← SparseMatrix.rowValue_congr h]
  exact hc i hi

/-- Rows `f x i ≤ 0`, or `f x i = 0`, for all `i < n`, over the first `width` columns. -/
structure Describes (c : LinearConstraint K) (sense : Sense) (n width : Nat)
    (f : (Nat → K) → Nat → K) : Prop where
  sense_eq : c.sense = sense
  length_eq : c.length = n
  ncols_le : c.linear.ncols ≤ width
  residual_eq : ∀ x, ∀ i < n, c.linear.rowValue x i - c.constant.getD i 0 = f x i

/-- Whether a column has a coefficient in some row. -/
def Mentions (c : LinearConstraint K) (j : Nat) : Prop :=
  ∃ i < c.length, c.linear.rowValue (Pi.single j 1) i ≠ 0

theorem not_mentions_of_ncols_le {c : LinearConstraint K} {j : Nat} (h : c.linear.ncols ≤ j) :
    ¬c.Mentions j := by
  rintro ⟨i, -, hne⟩
  have hzero : ∀ k < c.linear.ncols, (Pi.single j 1 : Nat → K) k = (0 : Nat → K) k := by
    intro k hk
    rw [Pi.zero_apply, Pi.single_eq_of_ne (hk.trans_le h).ne]
  rw [SparseMatrix.rowValue_congr hzero, SparseMatrix.rowValue_zero] at hne
  exact hne rfl

/-- Whether the only coefficients behind the first `n` columns are those of a block, in each row
that of the column at its position. -/
def Ties (n : Nat) (b : Block) (c : LinearConstraint K) : Prop :=
  ∀ i < c.length, ∀ j, n ≤ j → c.linear.rowValue (Pi.single j 1) i ≠ 0 →
    i < b.size ∧ j = b.first + i

theorem Ties.mem_columns {n : Nat} {b : Block} {c : LinearConstraint K} (h : c.Ties n b) {j : Nat}
    (hj : n ≤ j) (hc : c.Mentions j) : j ∈ b.columns := by
  obtain ⟨i, hi, hne⟩ := hc
  obtain ⟨hlt, rfl⟩ := h i hi j hj hne
  rw [Block.mem_columns, Block.stop]
  omega

section Describes

variable {c : LinearConstraint K} {sense : Sense} {n width : Nat} {f g : (Nat → K) → Nat → K}

theorem Describes.congr (h : c.Describes sense n width f) (hfg : ∀ x, ∀ i < n, f x i = g x i) :
    c.Describes sense n width g :=
  { h with residual_eq := fun x i hi => (h.residual_eq x i hi).trans (hfg x i hi) }

/-- The coefficient of a column is what its unit changes. -/
theorem Describes.coefficient_eq (h : c.Describes sense n width f) {i : Nat} (hi : i < n)
    (j : Nat) : c.linear.rowValue (Pi.single j 1) i = f (Pi.single j 1) i - f 0 i := by
  rw [← h.residual_eq _ i hi, ← h.residual_eq _ i hi, SparseMatrix.rowValue_zero, zero_sub,
    sub_neg_eq_add, sub_add_cancel]

/-- Rows whose values depend on a column mention it. -/
theorem Describes.mentions (h : c.Describes sense n width f) {i j : Nat} (hi : i < n)
    (hne : f (Pi.single j 1) i ≠ f 0 i) : c.Mentions j := by
  refine ⟨i, h.length_eq.symm ▸ hi, ?_⟩
  rw [h.coefficient_eq hi]
  exact sub_ne_zero.mpr hne

theorem Describes.not_mentions (h : c.Describes sense n width f) {j : Nat}
    (hf : ∀ i < n, f (Pi.single j 1) i = f 0 i) : ¬c.Mentions j := by
  rintro ⟨i, hi, hne⟩
  rw [h.length_eq] at hi
  rw [h.coefficient_eq hi, hf i hi, sub_self] at hne
  exact hne rfl

/-- Rows over the elements of an expression and the columns of a block tie this block. -/
theorem Describes.ties {id : ModelId} {m : Nat} {a : Affine K} {b : Block}
    (h : c.Describes sense a.size width f) (ha : a.Within id m) (hb : b.size = a.size)
    (hf : ∀ x x' : Nat → K, ∀ i, a.value x i = a.value x' i →
      x (b.first + i) = x' (b.first + i) → f x i = f x' i) : c.Ties m b := by
  intro i hi j hj hne
  rw [h.length_eq] at hi
  refine ⟨hb.symm ▸ hi, ?_⟩
  by_contra hother
  refine hne ?_
  rw [h.coefficient_eq hi, sub_eq_zero]
  exact hf _ _ i (ha.value_single hj 1 i) (Pi.single_eq_of_ne (Ne.symm hother) _)

theorem describes_ofResidual {id : ModelId} {a : Affine K} (ha : a.Within id width) :
    (ofResidual a sense).Describes sense a.size width a.value where
  sense_eq := rfl
  length_eq := length_ofResidual a sense
  ncols_le := ha.ncols
  residual_eq x i hi := by
    have hlen : i < a.constant.length := a.length_constant.symm ▸ hi
    have hconst : (ofResidual a sense).constant.getD i 0 = -a.constant.getD i 0 := by
      show (a.constant.map (- ·)).getD i 0 = _
      rw [List.getD_eq_getElem _ _ (by simpa using hlen), List.getElem_map,
        List.getD_eq_getElem _ _ hlen]
    rw [hconst, sub_neg_eq_add]
    rfl

variable [IsStrictOrderedRing K] {x : Nat → K}

theorem Describes.holds_iff (h : c.Describes sense n width f) :
    c.Holds x ↔ ∀ i < n, sense.Holds (f x i) 0 := by
  unfold Holds
  rw [h.length_eq, h.sense_eq]
  refine forall₂_congr fun i hi => ?_
  rw [← h.residual_eq x i hi]
  cases sense with
  | le => exact sub_nonpos.symm
  | eq => exact sub_eq_zero.symm

theorem Describes.holds_le_iff {u w : (Nat → K) → Nat → K}
    (h : c.Describes .le n width fun x i => u x i - w x i) :
    c.Holds x ↔ ∀ i < n, u x i ≤ w x i :=
  h.holds_iff.trans (forall₂_congr fun _ _ => sub_nonpos)

theorem Describes.holds_eq_iff {u w : (Nat → K) → Nat → K}
    (h : c.Describes .eq n width fun x i => u x i - w x i) :
    c.Holds x ↔ ∀ i < n, u x i = w x i :=
  h.holds_iff.trans (forall₂_congr fun _ _ => sub_eq_zero)

end Describes

end LinearConstraint

namespace Affine

variable {id : ModelId} {n : Nat} {a b : Affine K} {s : Shape}

section Comparison

variable (ha : a.Within id n) (hb : b.Within id n) (hs : a.shape.elementwise b.shape = some s)

include ha hb hs

/-- Expressions of one model whose shapes combine have a difference. -/
theorem exists_sub : ∃ c, a.sub b = .ok c ∧ c.shape = s ∧ c.Within id n ∧
    ∀ x, ∀ i < s.size, c.value x i = a.spread x i - b.spread x i := by
  obtain ⟨c, hc, hcs, hw⟩ := ha.exists_sub hb hs
  refine ⟨c, hc, hcs, hw, fun x i hi => value_sub hc ?_⟩
  rwa [size, hcs]

/-- A comparison takes the difference as residual. -/
theorem exists_residual (sense : Sense) : ∃ r, a.sub b = .ok r ∧
    (LinearConstraint.ofResidual r sense).Describes sense s.size n
      fun x i => a.spread x i - b.spread x i := by
  obtain ⟨r, hr, rfl, hw, hv⟩ := exists_sub ha hb hs
  exact ⟨r, hr, (LinearConstraint.describes_ofResidual hw).congr hv⟩

theorem exists_le : ∃ c, a.le b = .ok c ∧
    c.Describes .le s.size n fun x i => a.spread x i - b.spread x i := by
  obtain ⟨r, hr, hd⟩ := exists_residual ha hb hs .le
  exact ⟨_, by rw [le, hr]; rfl, hd⟩

theorem exists_eq : ∃ c, a.eq b = .ok c ∧
    c.Describes .eq s.size n fun x i => a.spread x i - b.spread x i := by
  obtain ⟨r, hr, hd⟩ := exists_residual ha hb hs .eq
  exact ⟨_, by rw [eq, hr]; rfl, hd⟩

/-- The difference compared with zero has the rows of the comparison. -/
theorem exists_sub_le_zero : ∃ r c, a.sub b = .ok r ∧ r.le (.number 0) = .ok c ∧
    c.Describes .le s.size n fun x i => a.spread x i - b.spread x i := by
  obtain ⟨r, hr, rfl, hw, hv⟩ := exists_sub ha hb hs
  obtain ⟨c, hc, hd⟩ := exists_le hw (within_number 0) (Shape.elementwise_scalar _)
  refine ⟨r, c, hr, hc, hd.congr fun x i hi => ?_⟩
  rw [spread_of_lt hi, spread_of_size_eq_one rfl, value_number, sub_zero, hv x i hi]

theorem exists_sub_eq_zero : ∃ r c, a.sub b = .ok r ∧ r.eq (.number 0) = .ok c ∧
    c.Describes .eq s.size n fun x i => a.spread x i - b.spread x i := by
  obtain ⟨r, hr, rfl, hw, hv⟩ := exists_sub ha hb hs
  obtain ⟨c, hc, hd⟩ := exists_eq hw (within_number 0) (Shape.elementwise_scalar _)
  refine ⟨r, c, hr, hc, hd.congr fun x i hi => ?_⟩
  rw [spread_of_lt hi, spread_of_size_eq_one rfl, value_number, sub_zero, hv x i hi]

end Comparison

end Affine

/-! ## Bounds -/

/-- Whether a bound on one side bounds a value. -/
def Side.Bounds : Side → Bound K → K → Prop
  | upper, b, a => b.IsUpper a
  | lower, b, a => b.IsLower a

/-- Whether all bounds hold. -/
def Bounds.Holds (b : Bounds K) (x : Nat → K) : Prop := ∀ q ∈ b.items, b.side.Bounds q.2 (x q.1)

omit [Field K] in
theorem Bounds.Holds.congr {b : Bounds K} {x x' : Nat → K} (h : ∀ q ∈ b.items, x q.1 = x' q.1)
    (hb : b.Holds x) : b.Holds x' :=
  fun q hq => h q hq ▸ hb q hq

/-! ## Direct cones -/

namespace ConeConstraint

/-- The position of the apex in its block. -/
def apexIndex (c : ConeConstraint) : Nat :=
  c.apex.indices.head (List.ne_nil_of_length_pos (by rw [c.length_apex]; exact Nat.one_pos))

/-- The columns of a cone, each counted from the first one of its block: the apex, and behind it
the elements of the vector in order. -/
def members (c : ConeConstraint) : List Nat :=
  (c.apex.block.first + c.apexIndex) :: c.vector.indices.map (c.vector.block.first + ·)

theorem record_eq_members (c : ConeConstraint) : c.record = c.members := by
  have happex : c.apexColumn = c.apex.block.first + c.apexIndex := List.head_map ..
  rw [record, happex]
  rfl

/-- Whether the apex is at least the Euclidean norm of the vector, stated without taking roots. -/
def Holds (c : ConeConstraint) (x : Nat → K) : Prop :=
  0 ≤ x (c.apex.block.first + c.apexIndex) ∧
    (c.vector.indices.map fun i => x (c.vector.block.first + i) ^ 2).sum ≤
      x (c.apex.block.first + c.apexIndex) ^ 2

instance (c : ConeConstraint) (x : Nat → K) : Decidable (c.Holds x) :=
  inferInstanceAs (Decidable (_ ∧ _))

theorem recordHolds_iff {c : ConeConstraint} {x : Nat → K} :
    RecordHolds x c.record ↔ c.Holds x := by
  rw [record_eq_members, members, RecordHolds, List.map_map]
  rfl

end ConeConstraint

/-! ## Convex functions -/

/-- Whether a function of `n` elements `u` is at most `w`. A function of elements has a bound
for each of them, any other one has the bound `w 0`. -/
def PiecewiseKind.AtMost (n : Nat) (u w : Nat → K) : PiecewiseKind → Prop
  | abs => ∀ i < n, |u i| ≤ w i
  | norm1 => ∑ i ∈ Finset.range n, |u i| ≤ w 0
  | normInf => ∀ i < n, |u i| ≤ w 0

/-- Whether a function of `n` elements `u` is at most `w`. That a Euclidean norm is at most a
number is stated without taking roots. -/
def ConicKind.AtMost (n : Nat) (u w : Nat → K) : ConicKind → Prop
  | norm2 => 0 ≤ w 0 ∧ ∑ i ∈ Finset.range n, u i ^ 2 ≤ w 0 ^ 2
  | square => ∀ i < n, u i ^ 2 ≤ w i
  | sumSquares => ∑ i ∈ Finset.range n, u i ^ 2 ≤ w 0

/-- Whether a function of `n` elements `u` and the output `w` of a constraint satisfy it: the
squares sum with the output to at most zero. -/
def ConicKind.Holds (n : Nat) (u w : Nat → K) : ConicKind → Prop
  | norm2 => 0 ≤ w 0 ∧ ∑ i ∈ Finset.range n, u i ^ 2 ≤ w 0 ^ 2
  | square => ∀ i < n, u i ^ 2 + w i ≤ 0
  | sumSquares => ∑ i ∈ Finset.range n, u i ^ 2 + w 0 ≤ 0

instance (n : Nat) (u w : Nat → K) (k : PiecewiseKind) : Decidable (k.AtMost n u w) :=
  match k with
  | .abs => inferInstanceAs (Decidable (∀ i < n, |u i| ≤ w i))
  | .norm1 => inferInstanceAs (Decidable (∑ i ∈ Finset.range n, |u i| ≤ w 0))
  | .normInf => inferInstanceAs (Decidable (∀ i < n, |u i| ≤ w 0))

instance (n : Nat) (u w : Nat → K) (k : ConicKind) : Decidable (k.Holds n u w) :=
  match k with
  | .norm2 => inferInstanceAs (Decidable (_ ∧ _))
  | .square => inferInstanceAs (Decidable (∀ i < n, u i ^ 2 + w i ≤ 0))
  | .sumSquares => inferInstanceAs (Decidable (_ ≤ _))

/-- What a stored constraint says of the function itself. -/
theorem ConicKind.holds_iff_atMost [IsStrictOrderedRing K] {n : Nat} {u w : Nat → K}
    {k : ConicKind} :
    k.Holds n u w ↔ k.AtMost n u fun i => if k.squared then -w i else w i := by
  cases k with
  | norm2 => rfl
  | square => exact forall₂_congr fun _ _ => le_neg_iff_add_nonpos_right.symm
  | sumSquares => exact le_neg_iff_add_nonpos_right.symm

theorem PiecewiseKind.AtMost.congr {n : Nat} {u u' w w' : Nat → K} {k : PiecewiseKind}
    (hu : ∀ i, u i = u' i) (hw : ∀ i, w i = w' i) (h : k.AtMost n u w) : k.AtMost n u' w' := by
  rwa [← funext hu, ← funext hw]

theorem ConicKind.Holds.congr {n : Nat} {u u' w w' : Nat → K} {k : ConicKind}
    (hu : ∀ i, u i = u' i) (hw : ∀ i, w i = w' i) (h : k.Holds n u w) : k.Holds n u' w' := by
  rwa [← funext hu, ← funext hw]

namespace ConvexConstraint

/-- Constraints over the first `n` columns of a model, with an output of the size that the
function needs. -/
structure Scoped {κ α : Type} [Scalar α] (elementwise : κ → Bool) (id : ModelId) (n : Nat)
    (c : ConvexConstraint κ α) : Prop where
  input : c.input.Within id n
  output : c.output.Within id n
  size : c.output.size = if elementwise c.kind then c.input.size else 1

theorem Scoped.mono {κ α : Type} [Scalar α] {elementwise : κ → Bool} {id : ModelId} {n n' : Nat}
    {c : ConvexConstraint κ α} (h : n ≤ n') (hc : c.Scoped elementwise id n) :
    c.Scoped elementwise id n' :=
  ⟨hc.input.mono h, hc.output.mono h, hc.size⟩

/-- The same constraint with its function among those of one sort. -/
theorem Scoped.withKind {κ κ' α : Type} [Scalar α] {elementwise : κ → Bool}
    {elementwise' : κ' → Bool} {id : ModelId} {n : Nat} {c : ConvexConstraint κ α} {k : κ'}
    (hc : c.Scoped elementwise id n) (hk : elementwise c.kind = elementwise' k) :
    ({ c with kind := k } : ConvexConstraint κ' α).Scoped elementwise' id n :=
  ⟨hc.input, hc.output, hk ▸ hc.size⟩

/-- Whether a constraint on a function described by linear rows holds. -/
def PiecewiseHolds (c : ConvexConstraint PiecewiseKind K) (x : Nat → K) : Prop :=
  c.kind.AtMost c.input.size (c.input.value x) (c.output.value x)

/-- Whether a constraint on a function described by second-order cones holds. -/
def ConicHolds (c : ConvexConstraint ConicKind K) (x : Nat → K) : Prop :=
  c.kind.Holds c.input.size (c.input.value x) (c.output.value x)

theorem PiecewiseHolds.congr {c : ConvexConstraint PiecewiseKind K} {id : ModelId} {n : Nat}
    {x x' : Nat → K} (hc : c.Scoped PiecewiseKind.elementwise id n) (h : ∀ j < n, x j = x' j)
    (hx : c.PiecewiseHolds x) : c.PiecewiseHolds x' :=
  PiecewiseKind.AtMost.congr (fun i => hc.input.value_congr h i)
    (fun i => hc.output.value_congr h i) hx

theorem ConicHolds.congr {c : ConvexConstraint ConicKind K} {id : ModelId} {n : Nat}
    {x x' : Nat → K} (hc : c.Scoped ConicKind.elementwise id n) (h : ∀ j < n, x j = x' j)
    (hx : c.ConicHolds x) : c.ConicHolds x' :=
  ConicKind.Holds.congr (fun i => hc.input.value_congr h i)
    (fun i => hc.output.value_congr h i) hx

instance (c : ConvexConstraint PiecewiseKind K) (x : Nat → K) : Decidable (c.PiecewiseHolds x) :=
  inferInstanceAs (Decidable (c.kind.AtMost _ _ _))

instance (c : ConvexConstraint ConicKind K) (x : Nat → K) : Decidable (c.ConicHolds x) :=
  inferInstanceAs (Decidable (c.kind.Holds _ _ _))

end ConvexConstraint

end ConicForm
