import ConicForm.Proofs.Canonical.Expansion
import ConicForm.Proofs.Model.Valid

/-!
# The objective as a constraint

The canonical program minimizes the objective column, which is bounded from below by the
objective. The constraint that says so is the piece that the objective contributes.

## Main definitions

* `Goal.signed`: a value, negated where it is to be maximized
* `Objective.AtMost`: an objective, turned so that it is to be minimized, under a bound
* `Store.ObjectiveHolds`: the objective column is at least the objective
* `ConeStore.PiecesHold`: what the pieces of a cone model say together

## Main results

* `Piece.exists_ofConvex`: convex constraints other than on the exponential are pieces
* `Store.exists_epigraph`: the piece of the objective
* `ConeStore.exists_pieces`: the pieces of a cone model
-/

namespace ConicForm

variable {K : Type} [Field K] [LinearOrder K] {id : ModelId} {n : Nat}

/-! ## Functions of one value -/

/-- A function of a single value has a single bound. -/
theorem PiecewiseKind.atMost_const {k : PiecewiseKind} {m : Nat} {u w : Nat → K}
    (h : k.elementwise → m = 1) : k.AtMost m u w ↔ k.AtMost m u fun _ => w 0 := by
  cases k with
  | abs =>
    obtain rfl := h rfl
    refine forall₂_congr fun i hi => ?_
    rw [Nat.lt_one_iff.mp hi]
  | norm1 => rfl
  | normInf => rfl

theorem ConicKind.atMost_const {k : ConicKind} {m : Nat} {u w : Nat → K}
    (h : k.elementwise → m = 1) : k.AtMost m u w ↔ k.AtMost m u fun _ => w 0 := by
  cases k with
  | norm2 => rfl
  | square =>
    obtain rfl := h rfl
    refine forall₂_congr fun i hi => ?_
    rw [Nat.lt_one_iff.mp hi]
  | sumSquares => rfl

/-- A convex constraint on a single value, other than of the exponential, is a piece. -/
theorem Piece.exists_ofConvex [IsStrictOrderedRing K] {v : ConvexConstraint ConvexKind K}
    (hv : v.Scoped ConvexKind.elementwise id n) (hexp : v.kind ≠ .exp) (hone : v.output.size = 1) :
    ∃ p, ofConvex v = .ok p ∧ p.Scoped id n ∧ ∀ x, p.Holds x ↔
      v.kind.AtMost v.input.size (v.input.value x) fun _ =>
        if v.kind.squared then -v.output.value x 0 else v.output.value x 0 := by
  obtain ⟨owner, input, output, kind⟩ := v
  obtain ⟨hin, hout, hsize⟩ := hv
  dsimp only at hin hout hsize hexp hone ⊢
  have helem : kind.elementwise → input.size = 1 := by
    intro he
    rw [if_pos he] at hsize
    rw [← hsize, hone]
  cases kind with
  | piecewise k =>
    refine ⟨.piecewise ⟨owner, input, output, k⟩, rfl, ⟨hin, hout, hsize⟩, fun x => ?_⟩
    exact PiecewiseKind.atMost_const helem
  | conic k =>
    refine ⟨.conic ⟨owner, input, output, k⟩, rfl, ⟨hin, hout, hsize⟩, fun x => ?_⟩
    exact ConicKind.holds_iff_atMost.trans (ConicKind.atMost_const helem)
  | exp => exact absurd rfl hexp

/-! ## Objectives -/

/-- A value, negated where it is to be maximized. -/
def Goal.signed (goal : Goal) (v : K) : K :=
  match goal with
  | minimize => v
  | maximize => -v

theorem Goal.factor_mul (goal : Goal) (v : K) : goal.factor * v = goal.signed v := by
  cases goal with
  | minimize => exact one_mul v
  | maximize => exact neg_one_mul v

/-- Whether an objective at `x`, negated when it is to be maximized, is at most `t`. -/
def Objective.AtMost (goal : Goal) (x : Nat → K) (t : K) : Objective K → Prop
  | affine a => goal.signed (a.value x 0) ≤ t
  | convex c => c.kind.AtMost c.input.size (c.input.value x) fun _ =>
      t - goal.signed (c.offset.value x 0)

/-- An objective of the curvature of its goal is convex when it is to be minimized. -/
theorem Goal.curvature_orient {α : Type} [Scalar α] {goal : Goal} {c : ConvexExpression α}
    (h : c.curvature = goal.curvature) : (goal.orient c).curvature = .convex := by
  cases goal with
  | minimize => exact h
  | maximize =>
    show c.curvature.flip = .convex
    rw [h]
    rfl

theorem Goal.scoped_orient {α : Type} [Scalar α] (goal : Goal) {c : ConvexExpression α}
    (hc : c.Scoped id n) : (goal.orient c).Scoped id n := by
  cases goal with
  | minimize => exact hc
  | maximize => exact hc.neg

@[simp] theorem Goal.kind_orient {α : Type} [Scalar α] (goal : Goal) (c : ConvexExpression α) :
    (goal.orient c).kind = c.kind := by cases goal <;> rfl

@[simp] theorem Goal.input_orient {α : Type} [Scalar α] (goal : Goal) (c : ConvexExpression α) :
    (goal.orient c).input = c.input := by cases goal <;> rfl

theorem Goal.size_orient {α : Type} [Scalar α] (goal : Goal) (c : ConvexExpression α) :
    (goal.orient c).offset.size = c.offset.size := by cases goal <;> rfl

theorem Goal.offset_orient (goal : Goal) (c : ConvexExpression K) (x : Nat → K) (i : Nat) :
    (goal.orient c).offset.value x i = goal.signed (c.offset.value x i) := by
  cases goal with
  | minimize => rfl
  | maximize => exact Affine.value_neg

namespace Store

variable {s : Store K}

/-- Whether the objective column is at least the objective. -/
def ObjectiveHolds (s : Store K) (x : Nat → K) : Prop :=
  ∀ p ∈ s.objective, p.1.AtMost p.2 x (x 0)

/-- The objective column as an expression. -/
theorem Valid.within_objective {α : Type} [Scalar α] {s : Store α} {handles : ConvexKind → Bool}
    (hs : s.Valid handles) :
    (Affine.ofBlock s.objectiveBlock : Affine α).Within s.id s.columnCount :=
  Affine.within_ofBlock rfl (hs.spanned _ (List.mem_cons_self ..)).2

theorem value_objective (s : Store K) (x : Nat → K) :
    (Affine.ofBlock s.objectiveBlock : Affine K).value x 0 = x 0 :=
  Affine.value_ofBlock (b := s.objectiveBlock) Nat.one_pos

variable [IsStrictOrderedRing K]

/-- The row that bounds an affine objective. -/
theorem Valid.exists_objectiveRow {handles : ConvexKind → Bool} (hs : s.Valid handles)
    {a : Affine K} (ha : a.Within s.id s.columnCount) (hone : a.size = 1) (goal : Goal) :
    ∃ c, (a.scale goal.factor).le (.ofBlock s.objectiveBlock) = .ok c ∧
      c.linear.ncols ≤ s.columnCount ∧
      ∀ x, c.Holds x ↔ (Objective.affine a).AtMost goal x (x 0) := by
  have hshape : (a.scale goal.factor).shape.elementwise
      (Affine.ofBlock s.objectiveBlock : Affine K).shape = some a.shape :=
    Shape.elementwise_scalar _
  obtain ⟨c, hc, hd⟩ := Affine.exists_le (ha.scale goal.factor) hs.within_objective hshape
  have hsize : a.shape.size = 1 := hone
  refine ⟨c, hc, hd.ncols_le, fun x => ?_⟩
  have hleft : (a.scale goal.factor).spread x 0 = goal.signed (a.value x 0) := by
    rw [Affine.spread_of_size_eq_one (a := a.scale _) hone, Affine.value_scale, mul_comm,
      goal.factor_mul]
  have hright : (Affine.ofBlock s.objectiveBlock).spread x 0 = x 0 := by
    rw [Affine.spread_of_size_eq_one rfl, value_objective]
  rw [hd.holds_le_iff, hsize, Objective.AtMost, ← hleft]
  simp only [Nat.lt_one_iff, forall_eq, hright]

/-- The piece that bounds a convex objective, or a concave one that is to be maximized. -/
theorem Valid.exists_objectivePiece {handles : ConvexKind → Bool} (hs : s.Valid handles)
    {c : ConvexExpression K} {goal : Goal} (hc : c.Scoped s.id s.columnCount)
    (hone : c.offset.size = 1) (hexp : c.kind ≠ .exp) (hcurv : c.curvature = goal.curvature) :
    ∃ v p, (goal.orient c).le (.ofBlock s.objectiveBlock) = .ok v ∧ Piece.ofConvex v = .ok p ∧
      p.Scoped s.id s.columnCount ∧
      ∀ x, p.Holds x ↔ (Objective.convex c).AtMost goal x (x 0) := by
  have hscoped := goal.scoped_orient hc
  obtain ⟨v, hv, hinput, hkind, houtput⟩ := ConvexExpression.exists_le_scalar hscoped
    (Goal.curvature_orient hcurv) hs.within_objective rfl
  rw [Goal.input_orient] at hinput
  rw [Goal.kind_orient] at hkind
  have hvs := hscoped.le hs.within_objective hv
  have hvone : v.output.size = 1 := by
    rw [hvs.size, hkind, hinput, ← hc.size, hone]
  obtain ⟨p, hp, hps, hholds⟩ := Piece.exists_ofConvex hvs (hkind.symm ▸ hexp) hvone
  refine ⟨v, p, hv, hp, hps, fun x => ?_⟩
  have hvalue := houtput x 0 (by rw [Goal.size_orient, hone]; exact Nat.one_pos)
  rw [hholds, hkind, hinput, hvalue, value_objective, Goal.kind_orient, Goal.offset_orient,
    Objective.AtMost]
  cases c.kind.squared <;> simp

/-- **The objective of a valid store has a piece** that holds where the objective column is at
least the objective. -/
theorem Valid.exists_epigraph (hs : s.Valid ConeModel.handles) :
    ∃ o, s.epigraph = .ok o ∧ (∀ p ∈ o, p.Scoped s.id s.columnCount) ∧
      ∀ x, (∀ p ∈ o, p.Holds x) ↔ s.ObjectiveHolds x := by
  unfold epigraph ObjectiveHolds
  have hobjective := hs.objective
  rcases hsome : s.objective with _ | ⟨e, goal⟩
  · exact ⟨none, rfl, by simp, by simp⟩
  · obtain ⟨hscoped, hsuits⟩ := hobjective _ hsome
    cases e with
    | affine a =>
      obtain ⟨c, hc, hw, hholds⟩ := hs.exists_objectiveRow hscoped hsuits goal
      refine ⟨some (.rows c), ?_, by simpa [Piece.Scoped] using hw,
        by simpa [Piece.Holds] using hholds⟩
      simp only [hc, bind, Except.bind, pure, Except.pure]
    | convex c =>
      obtain ⟨hone, hhandles, hcurv⟩ := hsuits
      have hexp : c.kind ≠ .exp := fun h => by simp [h, ConeModel.handles] at hhandles
      obtain ⟨v, p, hv, hp, hps, hholds⟩ := hs.exists_objectivePiece hscoped hone hexp hcurv
      refine ⟨some p, ?_, by simpa using hps, by simpa using hholds⟩
      simp only [hv, hp, bind, Except.bind, pure, Except.pure]

end Store

/-! ## Pieces of a cone model -/

namespace ConeStore

/-- The pieces are the convex constraints and that of the objective, which stands in front of the
constraints or behind the conic ones. -/
theorem exists_pieces_of_epigraph {α : Type} [Scalar α] {s : ConeStore α} {o : Option (Piece α)}
    (ho : s.linear.epigraph = .ok o) :
    ∃ ps, s.pieces = .ok ps ∧ ∀ p, p ∈ ps ↔
      (∃ c ∈ s.conic, .conic c = p) ∨ (∃ c ∈ s.linear.piecewise, .piecewise c = p) ∨
        p ∈ o.toList := by
  unfold pieces
  rw [ho]
  rcases o with _ | (c | c | c)
  · exact ⟨_, rfl, fun p => by simp⟩
  · exact ⟨_, rfl, fun p => by simp [or_comm, or_left_comm]⟩
  · exact ⟨_, rfl, fun p => by simp [or_comm, or_left_comm]⟩
  · exact ⟨_, rfl, fun p => by simp [or_comm, or_left_comm]⟩

/-- Whether all convex constraints hold and the objective column is at least the objective. -/
structure PiecesHold (s : ConeStore K) (x : Nat → K) : Prop where
  conic : ∀ c ∈ s.conic, c.ConicHolds x
  piecewise : ∀ c ∈ s.linear.piecewise, c.PiecewiseHolds x
  objective : s.linear.ObjectiveHolds x

variable [IsStrictOrderedRing K] {s : ConeStore K}

/-- **The pieces of a valid store** are its convex constraints and the objective. -/
theorem Valid.exists_pieces (hs : s.Valid) :
    ∃ ps, s.pieces = .ok ps ∧ (∀ p ∈ ps, p.Scoped s.linear.id s.linear.columnCount) ∧
      ∀ x, (∀ p ∈ ps, p.Holds x) ↔ s.PiecesHold x := by
  obtain ⟨o, ho, hscoped, hholds⟩ := hs.linear.exists_epigraph
  obtain ⟨ps, hps, hmem⟩ := exists_pieces_of_epigraph ho
  refine ⟨ps, hps, fun p hp => ?_, fun x => ?_⟩
  · rcases (hmem p).mp hp with ⟨c, hc, rfl⟩ | ⟨c, hc, rfl⟩ | hp
    · exact hs.conic c hc
    · exact hs.linear.piecewise c hc
    · exact hscoped p (Option.mem_toList.mp hp)
  · constructor
    · intro h
      refine ⟨fun c hc => ?_, fun c hc => ?_, (hholds x).mp fun p hp => ?_⟩
      · exact h _ ((hmem _).mpr (.inl ⟨c, hc, rfl⟩))
      · exact h _ ((hmem _).mpr (.inr (.inl ⟨c, hc, rfl⟩)))
      · exact h p ((hmem p).mpr (.inr (.inr (Option.mem_toList.mpr hp))))
    · intro h p hp
      rcases (hmem p).mp hp with ⟨c, hc, rfl⟩ | ⟨c, hc, rfl⟩ | hp
      · exact h.conic c hc
      · exact h.piecewise c hc
      · exact (hholds x).mpr h.objective p (Option.mem_toList.mp hp)

end ConeStore

end ConicForm
