import ConicForm.Model.Store
import ConicForm.Proofs.Convex.Expression

/-!
# What is built from the blocks of a model

Expressions, constraints and objectives that are built from declared blocks by the operations
on them, in any order and any number. They stay within the columns that these blocks span, and
convex constraints among them have outputs of the size that their functions need.

## Main definitions

* `Affine.Built`, `ConvexExpression.Built`, `Constraint.Built`, `Objective.Built`: what is built
  from blocks
* `Constraint.Scoped`, `Objective.Scoped`: the same over the first columns of a model

## Main results

* `Affine.Built.within`, `ConvexExpression.Built.scoped`, `Constraint.Built.scoped`,
  `Objective.Built.scoped`: what is built stays within the model
-/

namespace ConicForm

variable {α : Type} [Scalar α] {blocks : List Block} {id : ModelId} {n : Nat}

/-- Affine expressions that are built from blocks. -/
inductive Affine.Built (blocks : List Block) : Affine α → Prop
  | block {b} : b ∈ blocks → Built blocks (.ofBlock b)
  | selection {s : Selection} : s.block ∈ blocks → Built blocks (.ofSelection s)
  | values {shape xs a} : Affine.ofValues shape xs = .ok a → Built blocks a
  | zeros (shape) : Built blocks (.zeros shape)
  | number (x) : Built blocks (.number x)
  | numbers (xs) : Built blocks (.numbers xs)
  | add {a b c} : Built blocks a → Built blocks b → a.add b = .ok c → Built blocks c
  | sub {a b c} : Built blocks a → Built blocks b → a.sub b = .ok c → Built blocks c
  | neg {a} : Built blocks a → Built blocks a.neg
  | scale {a} (x) : Built blocks a → Built blocks (a.scale x)
  | offset {a} (x) : Built blocks a → Built blocks (a.offset x)
  | sum {a} : Built blocks a → Built blocks a.sum
  | select {a c indices} : Built blocks a → a.select indices = .ok c → Built blocks c
  | get {a c index} : Built blocks a → a.get index = .ok c → Built blocks c
  | leftMul {a c m} : Built blocks a → a.leftMul m = .ok c → Built blocks c

/-- Convex expressions that are built from blocks. -/
inductive ConvexExpression.Built (blocks : List Block) : ConvexExpression α → Prop
  | apply {a : Affine α} (kind) : a.Built blocks → Built blocks (.apply kind a)
  | neg {c} : Built blocks c → Built blocks c.neg
  | add {c d a} : Built blocks c → Affine.Built blocks a → c.add a = .ok d → Built blocks d
  | sub {c d a} : Built blocks c → Affine.Built blocks a → c.sub a = .ok d → Built blocks d

/-- Constraints that are built from blocks. -/
inductive Constraint.Built (blocks : List Block) : Constraint α → Prop
  | le {a b : Affine α} {c} : a.Built blocks → b.Built blocks → a.le b = .ok c →
      Built blocks (.linear c)
  | ge {a b : Affine α} {c} : a.Built blocks → b.Built blocks → a.ge b = .ok c →
      Built blocks (.linear c)
  | eq {a b : Affine α} {c} : a.Built blocks → b.Built blocks → a.eq b = .ok c →
      Built blocks (.linear c)
  | upper {b values c} : b ∈ blocks → b.upper values = .ok c → Built blocks (.bounds c)
  | lower {b values c} : b ∈ blocks → b.lower values = .ok c → Built blocks (.bounds c)
  | nonneg {b} : b ∈ blocks → Built blocks (.bounds b.nonneg)
  | nonpos {b} : b ∈ blocks → Built blocks (.bounds b.nonpos)
  | convexLe {c : ConvexExpression α} {a : Affine α} {v} : c.Built blocks → a.Built blocks →
      c.le a = .ok v → Built blocks (.convex v)
  | convexGe {c : ConvexExpression α} {a : Affine α} {v} : c.Built blocks → a.Built blocks →
      c.ge a = .ok v → Built blocks (.convex v)
  | cone {vector apex c} : vector.block ∈ blocks → apex.block ∈ blocks →
      ConeConstraint.ofSelections vector apex = .ok c → Built blocks (.cone c)
  | expCone {x y z c} : x.block ∈ blocks → y.block ∈ blocks → z.block ∈ blocks →
      ExpConeConstraint.ofSelections x y z = .ok c → Built blocks (.expCone c)

/-- Objectives that are built from blocks. -/
inductive Objective.Built (blocks : List Block) : Objective α → Prop
  | affine {a : Affine α} : a.Built blocks → Built blocks (.affine a)
  | convex {c : ConvexExpression α} : c.Built blocks → Built blocks (.convex c)

/-- Blocks of a model among its first `n` columns. -/
def Block.Spanned (id : ModelId) (n : Nat) (blocks : List Block) : Prop :=
  ∀ b ∈ blocks, b.owner = id ∧ b.stop ≤ n

namespace Affine

theorem within_ofSelection (h : Block.Spanned id n blocks) {s : Selection}
    (hs : s.block ∈ blocks) : (ofSelection s : Affine α).Within id n := by
  refine ⟨fun o ho => (Option.some.inj ho).symm.trans (h _ hs).1, ?_⟩
  obtain ⟨hmem, -⟩ := List.max?_eq_some_iff.mp (max?_columns_eq_ncols (α := α) s)
  rcases List.mem_cons.mp hmem with hzero | hmem
  · rw [hzero]
    exact Nat.zero_le n
  · obtain ⟨j, hj, hncols⟩ := List.mem_map.mp hmem
    have hstop : j < s.block.stop :=
      (Block.mem_columns.mp (Selection.mem_block_of_mem_columns hj)).2
    rw [← hncols]
    exact Nat.le_trans hstop (h _ hs).2

theorem within_of_ofValues {shape : Shape} {xs : List α} {a : Affine α}
    (h : ofValues shape xs = .ok a) : a.Within id n := by
  unfold ofValues at h
  split at h
  · cases h
    exact within_of_constant rfl rfl
  · cases h

theorem Within.select {a c : Affine α} {indices : List Nat} (ha : a.Within id n)
    (h : a.select indices = .ok c) : c.Within id n := by
  obtain ⟨_, -, h⟩ := exists_of_bind_eq_ok h
  cases h
  exact ha.pick indices

theorem Within.get {a c : Affine α} {index : Nat} (ha : a.Within id n)
    (h : a.get index = .ok c) : c.Within id n := by
  obtain ⟨_, -, h⟩ := exists_of_bind_eq_ok h
  cases h
  exact (ha.pick [index]).reshape .scalar rfl

theorem Within.leftMul {a c : Affine α} {m : DenseMatrix α} (ha : a.Within id n)
    (h : a.leftMul m = .ok c) : c.Within id n := by
  obtain ⟨-, howner, hlinear, -⟩ := of_leftMul_eq_ok h
  refine ⟨howner ▸ ha.owner, ?_⟩
  rw [hlinear, SparseMatrix.ncols_leftMul]
  exact ha.ncols

/-- **What is built from the blocks of a model stays within the model.** -/
theorem Built.within (h : Block.Spanned id n blocks) {a : Affine α} (ha : a.Built blocks) :
    a.Within id n := by
  induction ha with
  | block hb => exact within_ofBlock (h _ hb).1 (h _ hb).2
  | selection hs => exact within_ofSelection h hs
  | values hv => exact within_of_ofValues hv
  | zeros shape => exact within_zeros shape
  | number x => exact within_number x
  | numbers xs => exact within_of_constant rfl rfl
  | add _ _ hc iha ihb => exact iha.add ihb hc
  | sub _ _ hc iha ihb => exact iha.add ihb.neg hc
  | neg _ ih => exact ih.neg
  | scale x _ ih => exact ih.scale x
  | offset x _ ih => exact ih.offset x
  | sum _ ih => exact ih.sum
  | select _ hc ih => exact ih.select hc
  | get _ hc ih => exact ih.get hc
  | leftMul _ hc ih => exact ih.leftMul hc

end Affine

theorem ConvexExpression.Built.scoped (h : Block.Spanned id n blocks) {c : ConvexExpression α}
    (hc : c.Built blocks) : c.Scoped id n := by
  induction hc with
  | apply kind ha => exact scoped_apply kind (ha.within h)
  | neg _ ih => exact ih.neg
  | add _ ha hd ih => exact ih.add (ha.within h) hd
  | sub _ ha hd ih => exact ih.add (ha.within h).neg hd

/-! ## Constraints -/

namespace Affine

variable {a b : Affine α} {c : LinearConstraint α}

/-- The rows of a comparison are over the columns of its sides. -/
theorem Within.le (ha : a.Within id n) (hb : b.Within id n) (h : a.le b = .ok c) :
    c.linear.ncols ≤ n := by
  obtain ⟨r, hr, h⟩ := exists_of_bind_eq_ok h
  cases h
  exact (ha.add hb.neg hr).ncols

theorem Within.eq (ha : a.Within id n) (hb : b.Within id n) (h : a.eq b = .ok c) :
    c.linear.ncols ≤ n := by
  obtain ⟨r, hr, h⟩ := exists_of_bind_eq_ok h
  cases h
  exact (ha.add hb.neg hr).ncols

end Affine

omit [Scalar α] in
theorem Bounds.mem_columns_of_ofValues {b : Block} {side : Side} {values : List (Bound α)}
    {c : Bounds α} (h : Bounds.ofValues b side values = .ok c) :
    ∀ q ∈ c.items, q.1 ∈ b.columns := by
  intro q hq
  unfold ofValues at h
  split at h
  · cases h
    exact mem_block_of_mem_uniform hq
  · split at h
    · cases h
      exact (List.of_mem_zip hq).1
    · cases h

theorem ConeConstraint.of_ofSelections_eq_ok {vector apex : Selection} {c : ConeConstraint}
    (h : ofSelections vector apex = .ok c) : c.apex = apex ∧ c.vector = vector := by
  unfold ofSelections at h
  split at h
  · split at h
    · cases h
      exact ⟨rfl, rfl⟩
    · cases h
  · cases h

namespace Constraint

/-- Constraints over the first `n` columns of a model. Memberships in the exponential cone, which
no store takes, do not matter. -/
def Scoped (id : ModelId) (n : Nat) : Constraint α → Prop
  | linear c => c.linear.ncols ≤ n
  | bounds c => ∀ q ∈ c.items, q.1 < n
  | convex c => c.Scoped ConvexKind.elementwise id n
  | cone c => ∀ j ∈ c.record, j < n
  | expCone _ => True

theorem Built.scoped (h : Block.Spanned id n blocks) {c : Constraint α} (hc : c.Built blocks) :
    c.Scoped id n := by
  have hcolumns : ∀ b ∈ blocks, ∀ j ∈ b.columns, j < n := fun b hb j hj =>
    (Block.mem_columns.mp hj).2.trans_le (h b hb).2
  cases hc with
  | le ha hb hc => exact (ha.within h).le (hb.within h) hc
  | ge ha hb hc => exact (hb.within h).le (ha.within h) hc
  | eq ha hb hc => exact (ha.within h).eq (hb.within h) hc
  | upper hb hc => exact fun q hq => hcolumns _ hb _ (Bounds.mem_columns_of_ofValues hc q hq)
  | lower hb hc => exact fun q hq => hcolumns _ hb _ (Bounds.mem_columns_of_ofValues hc q hq)
  | nonneg hb => exact fun q hq => hcolumns _ hb _ (Bounds.mem_block_of_mem_uniform hq)
  | nonpos hb => exact fun q hq => hcolumns _ hb _ (Bounds.mem_block_of_mem_uniform hq)
  | convexLe hc ha hv => exact (hc.scoped h).le (ha.within h) hv
  | convexGe hc ha hv => exact (hc.scoped h).ge (ha.within h) hv
  | cone hvector hapex hc =>
    obtain ⟨rfl, rfl⟩ := ConeConstraint.of_ofSelections_eq_ok hc
    refine List.forall_mem_cons.mpr ⟨?_, fun j hj => ?_⟩
    · exact hcolumns _ hapex _ (Selection.mem_block_of_mem_columns (List.head_mem _))
    · exact hcolumns _ hvector _ (Selection.mem_block_of_mem_columns hj)
  | expCone => trivial

end Constraint

/-! ## Objectives -/

namespace Objective

/-- Objectives over the first `n` columns of a model. -/
def Scoped (id : ModelId) (n : Nat) : Objective α → Prop
  | affine a => a.Within id n
  | convex c => c.Scoped id n

theorem Built.scoped (h : Block.Spanned id n blocks) {e : Objective α} (he : e.Built blocks) :
    e.Scoped id n := by
  cases he with
  | affine ha => exact ha.within h
  | convex hc => exact hc.scoped h

end Objective

end ConicForm
