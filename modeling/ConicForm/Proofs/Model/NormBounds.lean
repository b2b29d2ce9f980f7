import ConicForm.Proofs.Canonical.Parts
import ConicForm.Proofs.Model.Workspace

/-!
# Bounds of norms

A norm is bounded by an expression that can then not be negative. Nothing says so in the canonical
program; it follows from the rows and records that a norm expands to: the sum of absolute values
through the row of its auxiliary columns, the Euclidean norm through its record, and the largest
absolute value through the two rows of any element. Without elements the first two still have a row
or a record. The third one has neither, and its bound may have either sign.

## Main definitions

* `PiecewiseKind.Anchors`, `ConicKind.Anchors`, `ConvexKind.Anchors`: norms with a row or record for
  their bound
* `vaulted`: models of a norm of columns under a further one

## Main results

* `ConvexConstraint.Scoped.nonneg_of_expandPiecewise`,
  `ConvexConstraint.Scoped.nonneg_of_expandConic`: what the expansion of a norm says of its bound
* `Workspace.norm_bounds`: norms in models and as objectives
* `exists_norm_neg`: a feasible point at which a norm has a negative bound
-/

namespace ConicForm

/-! ## Norms with a row for their bound -/

/-- Whether the function is a norm of `m` elements that has a row or a record for its bound: any
norm but the largest absolute value of no elements. -/
def PiecewiseKind.Anchors (m : Nat) : PiecewiseKind → Prop
  | abs => False
  | norm1 => True
  | normInf => 0 < m

@[inherit_doc PiecewiseKind.Anchors] def ConicKind.Anchors : ConicKind → Prop
  | norm2 => True
  | square | sumSquares => False

@[inherit_doc PiecewiseKind.Anchors] def ConvexKind.Anchors (m : Nat) : ConvexKind → Prop
  | piecewise k => k.Anchors m
  | conic k => k.Anchors
  | exp => False

/-- A norm is no function of elements, and does not square. -/
theorem ConvexKind.Anchors.not_elementwise {m : Nat} {k : ConvexKind} (h : k.Anchors m) :
    k.elementwise = false ∧ k.squared = false := by
  rcases k with (_ | _ | _) | (_ | _ | _) | _
  all_goals first | exact h.elim | exact ⟨rfl, rfl⟩

variable {K : Type} [Field K] [LinearOrder K] [IsStrictOrderedRing K]

/-! ## What expansions say of bounds -/

namespace ConvexConstraint

variable {id : ModelId} {n next : Nat} {e : Expansion K} {x : Nat → K}

/-- The rows of a norm, wherever its auxiliary columns start, do not hold under a negative bound. -/
theorem Scoped.nonneg_of_expandPiecewise {c : ConvexConstraint PiecewiseKind K}
    (hc : c.Scoped PiecewiseKind.elementwise id n) (hk : c.kind.Anchors c.input.size)
    (h : c.expandPiecewise id next = .ok e) (hx : ∀ d ∈ e.rows, d.Holds x) :
    0 ≤ c.output.value x 0 := by
  cases hkind : c.kind with
  | abs =>
    rw [hkind] at hk
    exact hk.elim
  | norm1 =>
    obtain ⟨rows, he, -, -, hrows⟩ := exists_norm1Rows (Nat.le_max_left n _)
      (Nat.le_max_right _ (next + c.input.size)) hc hkind rfl
    obtain rfl := Except.ok.inj (he.symm.trans h)
    obtain ⟨habove, htotal⟩ := (hrows x).mp hx
    refine le_trans (Finset.sum_nonneg fun i hi => ?_) htotal
    exact (abs_nonneg _).trans (habove i (Finset.mem_range.mp hi))
  | normInf =>
    obtain ⟨rows, he, -, hrows⟩ := exists_elementRows hc (by rw [hkind]; rintro ⟨⟩)
    obtain rfl := Except.ok.inj ((he next).symm.trans h)
    have hholds := (hrows x).mp hx
    rw [PiecewiseHolds, hkind] at hholds
    rw [hkind] at hk
    exact (abs_nonneg _).trans (hholds 0 hk)

/-- The largest absolute value of no elements has rows that hold everywhere. -/
theorem Scoped.holds_of_expandPiecewise_empty {c : ConvexConstraint PiecewiseKind K}
    (hc : c.Scoped PiecewiseKind.elementwise id n) (hk : c.kind = .normInf)
    (hempty : c.input.size = 0) (h : c.expandPiecewise id next = .ok e) (x : Nat → K) :
    ∀ d ∈ e.rows, d.Holds x := by
  obtain ⟨rows, he, -, hrows⟩ := exists_elementRows hc (by rw [hk]; rintro ⟨⟩)
  obtain rfl := Except.ok.inj ((he next).symm.trans h)
  refine (hrows x).mpr ?_
  rw [PiecewiseHolds, hk, hempty]
  intro i hi
  exact absurd hi (Nat.not_lt_zero i)

/-- The record of a Euclidean norm is headed by a copy of its bound. -/
theorem nonneg_of_expandNorm {input output : Affine K} (hout : output.Within id n)
    (hone : output.size = 1) (h : expandNorm id next input output = .ok e)
    (hx : ∀ d ∈ e.rows, d.Holds x) (hrecords : ∀ r ∈ e.records, RecordHolds x r) :
    0 ≤ output.value x 0 := by
  obtain ⟨left, right, r₁, r₂, c₁, c₂, -, hright, -, ⟨hr₂, hc₂⟩, rfl⟩ := of_expandNorm_eq_ok h
  -- the width is one that has room for both the copy and the bound
  obtain ⟨r, c, hr, hc, hd⟩ := exists_copyRows (b := right)
    (hout.mono (Nat.le_max_left n right.stop)) (by rw [hright]; rfl) (Nat.le_max_right _ _)
    (by rw [hright]; rfl)
  obtain rfl := Except.ok.inj (hr.symm.trans hr₂)
  obtain rfl := Except.ok.inj (hc.symm.trans hc₂)
  have hcopy := hd.holds_eq_iff.mp (hx c (by simp)) 0 (hone.symm ▸ Nat.one_pos)
  rw [Nat.add_zero] at hcopy
  rw [hcopy]
  exact (hrecords _ (List.mem_singleton_self _)).1

theorem Scoped.nonneg_of_expandConic {c : ConvexConstraint ConicKind K}
    (hc : c.Scoped ConicKind.elementwise id n) (hk : c.kind.Anchors)
    (h : c.expandConic id next = .ok e) (hx : ∀ d ∈ e.rows, d.Holds x)
    (hrecords : ∀ r ∈ e.records, RecordHolds x r) : 0 ≤ c.output.value x 0 := by
  have hsize := hc.size
  unfold expandConic at h
  cases hkind : c.kind with
  | norm2 =>
    rw [hkind] at h hsize
    exact nonneg_of_expandNorm hc.output hsize h hx hrecords
  | square | sumSquares =>
    rw [hkind] at hk
    exact hk.elim

end ConvexConstraint

/-! ## Norms of models -/

omit [IsStrictOrderedRing K] in
/-- The constraint of a norm as objective: its bound is the objective column less the offset. -/
theorem Store.exists_of_epigraph {s : Store K} {n : Nat} (hn : s.columnCount ≤ n)
    {c : ConvexExpression K} {goal : Goal} (hobjective : s.objective = some (.convex c, goal))
    (hc : c.Scoped s.id n) (hk : c.kind.Anchors c.input.size) {o : Option (Piece K)}
    (ho : s.epigraph = .ok o) : ∃ v q, Piece.ofConvex v = .ok q ∧ o = some q ∧
      v.Scoped ConvexKind.elementwise s.id n ∧ v.kind = c.kind ∧ v.input = c.input ∧
      ∀ x, v.output.value x 0 = x 0 - goal.signed (c.offset.value x 0) := by
  have ht : (Affine.ofBlock s.objectiveBlock : Affine K).Within s.id n :=
    Affine.within_ofBlock rfl (s.columnCount_pos.trans_le hn)
  unfold epigraph at ho
  rw [hobjective] at ho
  obtain ⟨v, hv, ho⟩ := exists_of_bind_eq_ok ho
  obtain ⟨q, hq, ho⟩ := exists_of_bind_eq_ok ho
  cases ho
  have horient := goal.scoped_orient hc
  obtain ⟨hcurv, -⟩ := ConvexExpression.of_le_eq_ok hv
  obtain ⟨v', hv', hinput, hkind, hvalue⟩ := ConvexExpression.exists_le_scalar horient hcurv ht rfl
  obtain rfl := Except.ok.inj (hv'.symm.trans hv)
  obtain ⟨helement, hsquared⟩ := hk.not_elementwise
  have hone : (goal.orient c).offset.size = 1 := by
    rw [goal.size_orient, hc.size, helement]
    rfl
  rw [Goal.kind_orient] at hkind hvalue
  rw [Goal.input_orient] at hinput
  refine ⟨v', q, hq, rfl, horient.le ht hv, hkind, hinput, fun x => ?_⟩
  rw [hvalue x 0 (hone.symm ▸ Nat.one_pos), hsquared, if_neg Bool.false_ne_true,
    s.value_objective, Goal.offset_orient]

namespace ConeStore

variable {s : ConeStore K} {n : Nat} {p : ConeProgram K} {x : Nat → K}

section Feasible

variable (hs : s.Over n) (hn : s.linear.columnCount ≤ n) (hp : s.coneProgram = .ok p)
  (hx : p.Feasible x)

include hs hp hx

theorem Over.norm_nonneg : (∀ c ∈ s.linear.piecewise, c.kind.Anchors c.input.size →
      0 ≤ c.output.value x 0) ∧
    ∀ c ∈ s.conic, c.kind.Anchors → 0 ≤ c.output.value x 0 := by
  obtain ⟨ps, hps, hexpand⟩ := exists_holds_of_feasible hp hx
  obtain ⟨o, -, hmem⟩ := exists_epigraph_of_pieces hps
  constructor
  · intro c hc hk
    obtain ⟨next, e, he, hrows, -⟩ := hexpand _ ((hmem _).mpr (.inr (.inl ⟨c, hc, rfl⟩)))
    exact (hs.piecewise c hc).nonneg_of_expandPiecewise hk he hrows
  · intro c hc hk
    obtain ⟨next, e, he, hrows, hrecords⟩ := hexpand _ ((hmem _).mpr (.inl ⟨c, hc, rfl⟩))
    exact (hs.conic c hc).nonneg_of_expandConic hk he hrows hrecords

include hn

/-- A norm as objective is bounded by the objective column, less what is added to the norm. -/
theorem Over.objective_nonneg {c : ConvexExpression K} {goal : Goal}
    (hobjective : s.linear.objective = some (.convex c, goal))
    (hk : c.kind.Anchors c.input.size) : goal.signed (c.offset.value x 0) ≤ x 0 := by
  obtain ⟨ps, hps, hexpand⟩ := exists_holds_of_feasible hp hx
  obtain ⟨o, ho, hmem⟩ := exists_epigraph_of_pieces hps
  obtain ⟨v, q, hq, rfl, hv, hkind, hinput, hvalue⟩ :=
    Store.exists_of_epigraph hn hobjective (hs.objective _ hobjective) hk ho
  obtain ⟨next, e, he, hrows, hrecords⟩ := hexpand q ((hmem q).mpr (.inr (.inr (by simp))))
  rw [← hkind, ← hinput] at hk
  rw [← sub_nonneg, ← hvalue]
  unfold Piece.ofConvex at hq
  split at hq
  · next k hvk =>
    cases hq
    rw [hvk] at hk
    exact ConvexConstraint.Scoped.nonneg_of_expandPiecewise
      (hv.withKind (congrArg ConvexKind.elementwise hvk)) hk he hrows
  · next k hvk =>
    cases hq
    rw [hvk] at hk
    exact ConvexConstraint.Scoped.nonneg_of_expandConic
      (hv.withKind (congrArg ConvexKind.elementwise hvk)) hk he hrows hrecords
  · cases hq

end Feasible

end ConeStore

/-- **Bounds of norms are not negative** at feasible points of the canonical program of a model: of
stored constraints, and of objectives, where the objective column bounds the norm and its offset.
This is so for every norm but the largest absolute value of no elements, whose expansion does not
refer to its bound. -/
theorem Workspace.norm_bounds {ms : List (AnyModel K)} (h : Workspace ms) {m : ConeModel K}
    (hm : .cone m ∈ ms) {p : Handle (ConeProgram K)} (hp : m.primal.1 = .ok p) :
    (∀ x, p.value.Feasible x →
      (∀ c ∈ m.store.linear.piecewise, c.kind.Anchors c.input.size → 0 ≤ c.output.value x 0) ∧
      (∀ c ∈ m.store.conic, c.kind.Anchors → 0 ≤ c.output.value x 0) ∧
      ∀ c goal, m.store.linear.objective = some (.convex c, goal) →
        c.kind.Anchors c.input.size → goal.signed (c.offset.value x 0) ≤ x 0) ∧
    ∀ c ∈ m.store.linear.piecewise, c.kind = .normInf → c.input.size = 0 →
      ∀ next e, c.expandPiecewise m.store.linear.id next = .ok e →
        ∀ x, ∀ d ∈ e.rows, d.Holds x := by
  obtain ⟨n, hms⟩ := h.exists_within
  obtain ⟨hcurrent, hover, hcount⟩ := hms _ hm
  have hprogram : m.store.coneProgram = .ok p.value :=
    Handle.eq_ok_of_map_eq (ConeModel.Current.primal_spec hcurrent).1 hp
  have hs : m.store.Over n := hover
  constructor
  · intro x hx
    obtain ⟨hpiecewise, hconic⟩ := hs.norm_nonneg hprogram hx
    refine ⟨hpiecewise, hconic, fun c goal hobjective hk => ?_⟩
    exact hs.objective_nonneg hcount hprogram hx hobjective hk
  · intro c hc hk hempty next e he x
    exact (hs.piecewise c hc).holds_of_expandPiecewise_empty hk hempty he x

/-! ### Models of a norm under a column -/

/-- The blocks of `n` columns and of the column behind them. -/
def legs (n : Nat) : Block := ⟨⟨0⟩, 1, .vector n, .continuous, none⟩

@[inherit_doc legs] def ceiling (n : Nat) : Block :=
  ⟨⟨0⟩, (legs n).stop, .scalar, .continuous, none⟩

/-- A model that holds a constraint on `n` columns and one behind them. -/
def vaulted (n : Nat) (v : ConvexConstraint ConvexKind ℚ) : ConeModel ℚ :=
  (((ConeModel.empty ⟨0⟩ {} none).after (.declare (.vector n) .continuous none)).after
    (.declare .scalar .continuous none)).after (.subjectTo (.leaf (.convex v)))

theorem store_vaulted {n : Nat} {v : ConvexConstraint ConvexKind ℚ} (howner : v.owner = some ⟨0⟩)
    {k : PiecewiseKind} (hk : v.kind = .piecewise k) : (vaulted n v).store =
      ⟨⟨⟨0⟩, none, {}, [legs n, ceiling n], [], [], [{ v with kind := k }], none⟩, [], []⟩ := by
  obtain ⟨owner, input, output, kind⟩ := v
  obtain rfl : owner = some ⟨0⟩ := howner
  obtain rfl : kind = .piecewise k := hk
  unfold vaulted
  simp only [ConeModel.after, ConeModel.subjectTo, Collection.flatten, Collection.walk]
  rfl

theorem reachable_vaulted {n : Nat} {k : ConvexKind} {v : ConvexConstraint ConvexKind ℚ}
    (hv : (ConvexExpression.apply k (.ofBlock (legs n))).le (.ofBlock (ceiling n)) = .ok v) :
    (vaulted n v).Reachable := by
  have hlegs : legs n ∈
      [Store.objectiveBlock (.empty ⟨0⟩ {} none : Store ℚ), legs n, ceiling n] := by simp
  have hceiling : ceiling n ∈
      [Store.objectiveBlock (.empty ⟨0⟩ {} none : Store ℚ), legs n, ceiling n] := by simp
  refine .after (.after (.after (.empty ..) trivial) trivial) (.leaf ?_)
  exact .convexLe (.apply k (.block hlegs)) (.block hceiling) hv

/-- What the model holds and answers. -/
theorem exists_primal_vaulted {n : Nat} {k : PiecewiseKind} {v : ConvexConstraint ConvexKind ℚ}
    (hv : (ConvexExpression.apply (.piecewise k) (.ofBlock (legs n))).le (.ofBlock (ceiling n)) =
      .ok v) (howner : v.owner = some ⟨0⟩) (hk : v.kind = .piecewise k) {p : ConeProgram ℚ}
    (hp : ConeStore.coneProgram ⟨⟨⟨0⟩, none, {}, [legs n, ceiling n], [], [],
      [{ v with kind := k }], none⟩, [], []⟩ = .ok p) :
    (vaulted n v).Reachable ∧ { v with kind := k } ∈ (vaulted n v).store.linear.piecewise ∧
      ∃ q, (vaulted n v).primal.1 = .ok q ∧ q.value = p := by
  have hm := reachable_vaulted hv
  have hstore := store_vaulted (n := n) howner hk
  rw [← hstore] at hp
  refine ⟨hm, ?_, Handle.exists_of_map_eq_ok (hm.valid.primal_spec.1.trans hp)⟩
  rw [hstore]
  exact List.mem_singleton_self _

theorem Workspace.norm_bounds_vaulted : ∃ (m : ConeModel ℚ) (p : Handle (ConeProgram ℚ))
    (c : ConvexConstraint PiecewiseKind ℚ) (x : Nat → ℚ), Workspace [.cone m] ∧
      AnyModel.cone m ∈ [AnyModel.cone m] ∧ m.primal.1 = .ok p ∧ p.value.Feasible x ∧
      c ∈ m.store.linear.piecewise ∧ c.kind.Anchors c.input.size ∧ 0 ≤ c.output.value x 0 := by
  have hcheck : (do
      let v ← (ConvexExpression.apply (.piecewise .normInf) (.ofBlock (legs 1))).le
        (.ofBlock (ceiling 1) : Affine ℚ)
      let p ← ConeStore.coneProgram ⟨⟨⟨0⟩, none, {}, [legs 1, ceiling 1], [], [],
        [{ v with kind := .normInf }], none⟩, [], []⟩
      return decide (v.owner = some ⟨0⟩ ∧ v.kind = .piecewise .normInf ∧ 0 < v.input.size ∧
        p.Feasible ([0, -3, 4].getD · 0))) = Except.ok true := by
    decide +kernel
  obtain ⟨v, hv, h⟩ := exists_of_bind_eq_ok hcheck
  obtain ⟨p, hp, h⟩ := exists_of_bind_eq_ok h
  obtain ⟨howner, hk, hsize, hx⟩ := of_decide_eq_true (Except.ok.inj h)
  obtain ⟨hm, hmem, q, hq, rfl⟩ := exists_primal_vaulted hv howner hk hp
  have hworkspace := (AnyModel.Reachable.session (m := .cone (vaulted 1 v)) hm).workspace
  obtain ⟨hbounds, -⟩ := hworkspace.norm_bounds (List.mem_singleton_self _) hq
  obtain ⟨hpiecewise, -⟩ := hbounds _ hx
  exact ⟨_, q, _, _, hworkspace, List.mem_singleton_self _, hq, hx, hmem, hsize,
    hpiecewise _ hmem hsize⟩

/-- **A norm with a negative bound.** The largest absolute value of no elements is at most a column
that is negative at a feasible point. -/
theorem exists_norm_neg : ∃ (m : ConeModel ℚ) (p : Handle (ConeProgram ℚ))
    (c : ConvexConstraint PiecewiseKind ℚ) (x : Nat → ℚ), m.Reachable ∧ m.primal.1 = .ok p ∧
      p.value.Feasible x ∧ c ∈ m.store.linear.piecewise ∧ c.kind = .normInf ∧
      c.output.value x 0 < 0 := by
  have hcheck : (do
      let v ← (ConvexExpression.apply (.piecewise .normInf) (.ofBlock (legs 0))).le
        (.ofBlock (ceiling 0) : Affine ℚ)
      let p ← ConeStore.coneProgram ⟨⟨⟨0⟩, none, {}, [legs 0, ceiling 0], [], [],
        [{ v with kind := .normInf }], none⟩, [], []⟩
      return decide (v.owner = some ⟨0⟩ ∧ v.kind = .piecewise .normInf ∧
        p.Feasible ([0, -1].getD · 0) ∧ v.output.value ([0, -1].getD · 0) 0 < 0)) =
      Except.ok true := by
    decide +kernel
  obtain ⟨v, hv, h⟩ := exists_of_bind_eq_ok hcheck
  obtain ⟨p, hp, h⟩ := exists_of_bind_eq_ok h
  obtain ⟨howner, hk, hx, hneg⟩ := of_decide_eq_true (Except.ok.inj h)
  obtain ⟨hm, hmem, q, hq, rfl⟩ := exists_primal_vaulted hv howner hk hp
  exact ⟨vaulted 0 v, q, _, _, hm, hq, hx, hmem, rfl, hneg⟩

end ConicForm
