import ConicForm.Proofs.Canonical.Identity
import ConicForm.Proofs.Duality.Model

/-!
# The conic dual of a model

The conic dual of a program asks that the reduced costs of the members of a record lie in its cone.
The derived dual of a model without direct memberships asks for more. Its record is over the
multipliers of identity rows, whose head is at most zero, so that all of them vanish, and with them
the reduced costs. Conversely a reduced cost of zero leaves the multiplier of the one row zero that
mentions the column. So the derived dual is the part of the conic dual without slack at records.

## Main definitions

* `ConeProgram.ConicDual`: the feasible multipliers of the conic dual
* `ConeProgram.Tight`: multipliers without slack at the members of records

## Main results

* `ConeProgram.feasible_deriveDual_iff`: the derived dual, if the members of records have one row
* `ConeModel.dual_feasible_iff`: the derived dual of a model is the tight part of its conic dual
* `ConeModel.exists_conicDual_not_feasible`: a model for which this is a proper part
-/

namespace ConicForm

variable {K : Type} [Field K] [LinearOrder K]

namespace ConeProgram

/-- The conic dual of a program, over multipliers of its rows and of those that stand for bounds.
Multipliers of inequalities are at most zero, a column outside all records has its row of the
linear dual, and the reduced costs of the members of a record lie in its cone. -/
structure ConicDual (p : ConeProgram K) (y : Nat → K) : Prop where
  signs : ∀ i < p.linear.dualProgram.ncols, p.linear.allSenses.getD i .le = .le → y i ≤ 0
  rows : ∀ j < p.linear.dualProgram.nrows, (∀ r ∈ p.records, j ∉ r) →
    (p.linear.dualProgram.senses.getD j .le).Holds (p.linear.dualProgram.linear.rowValue y j)
      (p.linear.dualProgram.constants.getD j 0)
  records : ∀ r ∈ p.records, RecordHolds (p.linear.reducedCost y) r

instance (p : ConeProgram K) (y : Nat → K) : Decidable (p.ConicDual y) :=
  decidable_of_iff (_ ∧ _ ∧ _)
    ⟨fun h => ⟨h.1, h.2.1, h.2.2⟩, fun h => ⟨h.signs, h.rows, h.records⟩⟩

/-- Whether multipliers leave no reduced cost to the members of records. -/
def Tight (p : ConeProgram K) (y : Nat → K) : Prop :=
  ∀ r ∈ p.records, ∀ j ∈ r, p.linear.reducedCost y j = 0

instance (p : ConeProgram K) (y : Nat → K) : Decidable (p.Tight y) :=
  inferInstanceAs (Decidable (∀ r ∈ p.records, ∀ j ∈ r, _))

variable {p d : ConeProgram K} {y : Nat → K}

theorem mem_headPattern {m : SparseMatrix K} {r : List Nat} {i : Nat} (h : i ∈ headPattern m r) :
    ∃ j ∈ r, i ∈ m.rowPattern j := by
  cases r with
  | nil => cases h
  | cons j rest => exact ⟨j, List.mem_cons_self, h⟩

section Derived

variable (hp : p.linear.Consistent)
  (hd : p.deriveDual p.linear.dualProgram = .ok d)
  (hobjective : ∀ r ∈ p.records, ∀ j ∈ r, p.linear.objective.getD j 0 = 0)

include hp hd hobjective

/-- Where the multipliers of records vanish, points of the derived dual are points of the conic
dual without slack at the members. -/
theorem conicDual_of_feasible
    (hvanish : ∀ r ∈ p.records, d.Vanishes (dualRecord p.linear.dualProgram.linear r))
    (hy : d.Feasible y) : p.ConicDual y ∧ p.Tight y := by
  have htight : p.Tight y := by
    intro r hr j hj
    have hmul : p.linear.multiplierValue y j = 0 := by
      apply LinearProgram.multiplierValue_eq_zero hp
      intro i hi
      exact hvanish r hr y hy i (mem_dualRecord.mpr ⟨j, hj, hi⟩)
    rw [LinearProgram.reducedCost, hobjective r hr j hj, hmul, sub_zero]
  refine ⟨⟨?_, (row_deriveDual_iff hd).mp hy.linear.rows, ?_⟩, htight⟩
  · intro i hi hs
    have hupper := upper_of_feasible_deriveDual hp hd hy i hi
    rwa [LinearProgram.getD_upper_dualProgram hp hi, if_pos hs] at hupper
  · intro r hr
    exact recordHolds_of_eq_zero (htight r hr)

omit hd in
/-- A multiplier of the only row that mentions a member of a record vanishes without slack. -/
theorem Tight.eq_zero (htight : p.Tight y) {r : List Nat} (hr : r ∈ p.records) {j : Nat}
    (hj : j ∈ r)
    (hunique : {i | i ∈ p.linear.dualProgram.linear.rowPattern j}.Subsingleton) :
    ∀ i ∈ p.linear.dualProgram.linear.rowPattern j, y i = 0 := by
  intro i hi
  have hmul : p.linear.multiplierValue y j = 0 := by
    have hcost := htight r hr j hj
    rwa [LinearProgram.reducedCost, hobjective r hr j hj, zero_sub, neg_eq_zero] at hcost
  have hother : ∀ k ∈ p.linear.dualProgram.linear.rowPattern j, k ≠ i → y k = 0 := by
    intro k hk hne
    exact absurd (hunique hk hi) hne
  obtain ⟨a, ha, hvalue⟩ := SparseMatrix.exists_rowValue_eq_mul hi hother
  rw [LinearProgram.rowValue_dualProgram hp, hmul, mul_zero] at hvalue
  exact (mul_eq_zero.mp hvalue.symm).resolve_left ha

/-- Where each member of a record has one row, points of the conic dual without slack at the
members are points of the derived dual. -/
theorem ConicDual.feasible (hy : p.ConicDual y) (htight : p.Tight y)
    (hunique : ∀ r ∈ p.records, ∀ j ∈ r,
      {i | i ∈ p.linear.dualProgram.linear.rowPattern j}.Subsingleton) : d.Feasible y where
  linear := by
    have hupper := (LinearProgram.dualProgram_consistent hp).upper
    refine ⟨(row_deriveDual_iff hd).mpr hy.rows, ?_, ?_⟩
    · intro i hi
      rw [ncols_deriveDual hd] at hi
      rw [getD_upper_deriveDual hd (hupper.symm ▸ hi)]
      split
      · next hhead =>
        obtain ⟨r, hr, hir⟩ := hhead
        obtain ⟨j, hj, hij⟩ := mem_headPattern hir
        exact (htight.eq_zero hp hobjective hr hj (hunique r hr j hj) i hij).le
      · rw [LinearProgram.getD_upper_dualProgram hp hi]
        split
        · next hs => exact hy.signs i hi hs
        · trivial
    · intro i _
      rw [lower_deriveDual hd, LinearProgram.getD_lower_dualProgram]
      trivial
  records := by
    rw [(eq_of_deriveDual_eq_ok hd).1, List.forall_mem_map]
    intro r hr
    apply recordHolds_of_eq_zero
    intro i hi
    obtain ⟨j, hj, hij⟩ := mem_dualRecord.mp hi
    exact htight.eq_zero hp hobjective hr hj (hunique r hr j hj) i hij

/-- **The derived dual is the tight part of the conic dual** of a program, if the multipliers of
its records vanish and each member of a record has one row and no objective. -/
theorem feasible_deriveDual_iff
    (hvanish : ∀ r ∈ p.records, d.Vanishes (dualRecord p.linear.dualProgram.linear r))
    (hunique : ∀ r ∈ p.records, ∀ j ∈ r,
      {i | i ∈ p.linear.dualProgram.linear.rowPattern j}.Subsingleton) :
    d.Feasible y ↔ p.ConicDual y ∧ p.Tight y := by
  constructor
  · exact conicDual_of_feasible hp hd hobjective hvanish
  · rintro ⟨hy, htight⟩
    exact hy.feasible hp hd hobjective htight hunique

end Derived

end ConeProgram

/-! ## Stores without direct memberships -/

namespace ConeStore

variable {s : ConeStore K} {e : Expansion K} {d : ConeProgram K} {y : Nat → K}

/-- One multiplier is in the dual row of a member of a record: that of its identity row. -/
theorem Valid.subsingleton_rowPattern (hs : s.Valid)
    (he : e.Identified s.linear.columnCount s.linear.columnCount) {r : List Nat}
    (hr : r ∈ e.records) {j : Nat} (hj : j ∈ r) :
    {i | i ∈ (s.assembled e).linear.dualProgram.linear.rowPattern j}.Subsingleton := by
  have hlo := ((he.records r hr).2 j hj).1
  -- no bound of an auxiliary column stands as a row, so its coefficients are all there is
  have hrow : ∀ i ∈ (s.assembled e).linear.dualProgram.linear.rowPattern j,
      (s.linear.assembled e).linear.rowValue (Pi.single j 1) i ≠ 0 := by
    intro i hi
    rcases LinearProgram.of_mem_rowPattern_dualProgram hi with ⟨-, hne⟩ | ⟨b, hb, rfl⟩
    · exact hne
    · have hlt := hs.linear.column_lt_of_mem_boundRows_assembled he.toConfined hb
      omega
  intro i hi k hk
  exact hs.linear.eq_of_rowValue_assembled_ne_zero he hr hj (hrow i hi) (hrow k hk)

/-- The dual of a store without direct memberships is the tight part of its conic dual. -/
theorem Valid.feasible_dual_iff [IsStrictOrderedRing K] (hs : s.Valid)
    (he : e.Identified s.linear.columnCount s.linear.columnCount) (hcones : s.cones = [])
    (hd : (s.assembled e).deriveDual (s.assembled e).linear.dualProgram = .ok d) :
    d.Feasible y ↔ (s.assembled e).ConicDual y ∧ (s.assembled e).Tight y := by
  have hrecords : (s.assembled e).records = e.records := by
    rw [assembled, hcones, List.map_nil, List.append_nil]
  have hconsistent : (s.assembled e).linear.Consistent := Store.assembled_consistent
  apply ConeProgram.feasible_deriveDual_iff hconsistent hd
  all_goals
    rw [hrecords]
    intro r hr
  · intro j hj
    exact objective_of_mem_records he.toConfined hr hj
  · exact hs.vanishes_of_mem_records hd he.toConfined hr
  · intro j hj
    exact hs.subsingleton_rowPattern he hr hj

end ConeStore

/-! ## Reachable models -/

namespace ConeModel

variable [IsStrictOrderedRing K] {m : ConeModel K}

/-- **The derived dual of a reachable model** with continuous columns and without direct
memberships exists, and its feasible points are those of the conic dual without slack at records.
So it is the conic dual exactly if no point of this has slack there. -/
theorem dual_feasible_iff (hm : m.Reachable)
    (hc : ∀ b ∈ m.store.linear.declared, b.type = .continuous) (hcones : m.store.cones = []) :
    ∃ p l d, m.primal.1 = .ok p ∧ m.linearDual.1 = .ok l ∧ m.dual.1 = .ok d ∧
      l.value = p.value.linear.dualProgram ∧
      (∀ y, d.value.Feasible y ↔ p.value.ConicDual y ∧ p.value.Tight y) ∧
      ((∀ y, d.value.Feasible y ↔ p.value.ConicDual y) ↔
        ∀ y, p.value.ConicDual y → p.value.Tight y) := by
  have hvalid := hm.valid
  obtain ⟨e, he, hprogram⟩ := hvalid.store.exists_coneProgram_identified
  have hdualize := LinearProgram.dualize_eq_ok _ (Store.types_assembled hc he.types)
  obtain ⟨d, hd⟩ :=
    (m.store.assembled e).exists_deriveDual (m.store.assembled e).linear.dualProgram
  obtain ⟨p, l, q, hp, hl, hq, hpv, hlv, hqv⟩ := hvalid.exists_programs hprogram hdualize hd
  have hiff : ∀ y, q.value.Feasible y ↔ p.value.ConicDual y ∧ p.value.Tight y := by
    intro y
    rw [hpv, hqv]
    exact hvalid.store.feasible_dual_iff he hcones hd
  refine ⟨p, l, q, hp, hl, hq, ?_, hiff, ?_⟩
  · rw [hpv, hlv]
    rfl
  · simp only [hiff, and_iff_left_iff_imp]

/-- The block of a column behind the objective column. -/
def radius : Block := ⟨⟨0⟩, 1, .scalar, .continuous, none⟩

/-- Minimize a column that is at least one, under a further constraint. -/
def disk (v : ConvexConstraint ConvexKind ℚ) : ConeModel ℚ :=
  (((empty ⟨0⟩ {} none).after (.declare .scalar .continuous none)).after
    (.setObjective (.affine (.ofBlock radius)) .minimize)).after
    (.subjectTo (.group [.leaf (.bounds (.uniform radius .lower (.value 1))), .leaf (.convex v)]))

theorem store_disk {v : ConvexConstraint ConvexKind ℚ} (ho : v.owner = some ⟨0⟩)
    (hk : v.kind = .conic .norm2) : (disk v).store =
      ⟨⟨⟨0⟩, none, {}, [radius], [], [.uniform radius .lower (.value 1)], [],
        some (.affine (.ofBlock radius), .minimize)⟩,
        [⟨some ⟨0⟩, v.input, v.output, .norm2⟩], []⟩ := by
  obtain ⟨owner, input, output, kind⟩ := v
  obtain rfl : owner = some ⟨0⟩ := ho
  obtain rfl : kind = .conic .norm2 := hk
  unfold disk
  simp only [after, subjectTo, Collection.flatten, Collection.walk, Collection.within,
    List.map_cons, List.map_nil, List.cons_append, List.nil_append]
  rfl

theorem reachable_disk {v : ConvexConstraint ConvexKind ℚ}
    (hv : (ConvexExpression.apply (.conic .norm2) (.ofBlock radius)).le (.number 5) = .ok v) :
    (disk v).Reachable := by
  have hradius : radius ∈
      [Store.objectiveBlock (.empty ⟨0⟩ {} none : Store ℚ), radius] := by
    simp
  have hlower : radius.lower [.value (1 : ℚ)] = .ok (.uniform radius .lower (.value 1)) := rfl
  refine .after (.after (.after (.empty ..) trivial) (.affine (.block hradius))) ?_
  show ∀ c ∈ Collection.leaves _, Constraint.Built _ c
  simp only [Collection.leaves_group, Collection.leaves_leaf, List.flatMap_cons, List.flatMap_nil,
    List.cons_append, List.nil_append, List.forall_mem_cons]
  exact ⟨.lower hradius hlower, .convexLe (.apply _ (.block hradius)) (.number 5) hv, by simp⟩

/-- Multipliers of the norm are refused, those without it are not. -/
theorem exists_disk : ∃ v, (disk v).Reachable ∧
    (∀ b ∈ (disk v).store.linear.declared, b.type = .continuous) ∧
    (disk v).store.cones = [] ∧
    ∃ p d, (disk v).primal.1 = .ok p ∧ (disk v).dual.1 = .ok d ∧
      d.value.Feasible ([-1, 0, 0, -1].getD · 0) ∧
      p.value.ConicDual ([-1, 1, 1, 0].getD · 0) ∧
      ¬d.value.Feasible ([-1, 1, 1, 0].getD · 0) := by
  have hcheck : (do
      let v ← (ConvexExpression.apply (.conic .norm2) (.ofBlock radius)).le (.number (5 : ℚ))
      let s : ConeStore ℚ := ⟨⟨⟨0⟩, none, {}, [radius], [],
        [.uniform radius .lower (.value 1)], [],
        some (.affine (.ofBlock radius), .minimize)⟩,
        [⟨some ⟨0⟩, v.input, v.output, .norm2⟩], []⟩
      let p ← s.coneProgram
      let l ← p.linear.dualize
      let d ← p.deriveDual l
      return decide (v.owner = some ⟨0⟩ ∧ v.kind = .conic .norm2 ∧
        d.Feasible ([-1, 0, 0, -1].getD · 0) ∧ p.ConicDual ([-1, 1, 1, 0].getD · 0) ∧
        ¬d.Feasible ([-1, 1, 1, 0].getD · 0))) = Except.ok true := by
    decide +kernel
  obtain ⟨v, hv, h⟩ := exists_of_bind_eq_ok hcheck
  obtain ⟨p, hp, h⟩ := exists_of_bind_eq_ok h
  obtain ⟨l, hl, h⟩ := exists_of_bind_eq_ok h
  obtain ⟨d, hd, h⟩ := exists_of_bind_eq_ok h
  obtain ⟨howner, hkind, hfeasible, hconic, hrefused⟩ := of_decide_eq_true (Except.ok.inj h)
  have hm := reachable_disk hv
  have hstore := store_disk howner hkind
  rw [← hstore] at hp
  obtain ⟨p', l', d', hp', -, hd', rfl, -, rfl⟩ := hm.valid.exists_programs hp hl hd
  refine ⟨v, hm, ?_, ?_, p', d', hp', hd', hfeasible, hconic, hrefused⟩
  · rw [hstore]
    simp [radius]
  · rw [hstore]

theorem dual_feasible_iff_disk : ∃ v, (disk v).Reachable ∧
    (∀ b ∈ (disk v).store.linear.declared, b.type = .continuous) ∧
    (disk v).store.cones = [] ∧
    ∃ p d, (disk v).primal.1 = .ok p ∧ (disk v).dual.1 = .ok d ∧
      d.value.Feasible ([-1, 0, 0, -1].getD · 0) ∧ p.value.Tight ([-1, 0, 0, -1].getD · 0) ∧
      ¬p.value.Tight ([-1, 1, 1, 0].getD · 0) := by
  obtain ⟨v, hm, hc, hcones, p, d, hp, hd, hfeasible, hconic, hrefused⟩ := exists_disk
  obtain ⟨p', l', d', hp', -, hd', -, hiff, -⟩ := dual_feasible_iff hm hc hcones
  obtain rfl := Except.ok.inj (hp'.symm.trans hp)
  obtain rfl := Except.ok.inj (hd'.symm.trans hd)
  refine ⟨v, hm, hc, hcones, p', d', hp, hd, hfeasible, ((hiff _).mp hfeasible).2, ?_⟩
  intro htight
  exact hrefused ((hiff _).mpr ⟨hconic, htight⟩)

/-- The derived dual caps the multiplier of a norm's bound at zero, and the conic dual does not. -/
theorem exists_conicDual_not_feasible : ∃ m : ConeModel ℚ, m.Reachable ∧
    (∀ b ∈ m.store.linear.declared, b.type = .continuous) ∧ m.store.cones = [] ∧
    ∃ p d y, m.primal.1 = .ok p ∧ m.dual.1 = .ok d ∧
      p.value.ConicDual y ∧ ¬d.value.Feasible y := by
  obtain ⟨v, hm, hc, hcones, p, d, hp, hd, -, hconic, hrefused⟩ := exists_disk
  exact ⟨disk v, hm, hc, hcones, p, d, _, hp, hd, hconic, hrefused⟩

end ConeModel

end ConicForm
