import ConicForm.Proofs.Canonical.Exactness
import ConicForm.Proofs.Duality.Cone

/-!
# Weak duality of cone models

The records of an expansion stand over columns that rows mention, so that their duals are headed
by multipliers that are at most zero. A direct membership is over declared columns, which need
not occur in any row: if its apex occurs in none, the dual of its record is headed by a multiplier
of another column, and the dual may be unbounded although the model has solutions.

## Main definitions

* `ConeProgram.Bounds`: a program whose objective bounds that of another one

## Main results

* `ConeModel.weak_duality_iff`: the gap is nonnegative if the duals of direct memberships vanish,
  unless the objective column is a member of a cone and may be negative
* `ConeModel.exists_gap_neg`: a model whose dual does not bound it
-/

namespace ConicForm

variable {K : Type} [Field K] [LinearOrder K]

/-- Whether the objectives of two programs, which point in opposite directions, sum to at least
zero at feasible points. -/
def ConeProgram.Bounds (d p : ConeProgram K) : Prop :=
  ∀ x y, p.Feasible x → d.Feasible y →
    0 ≤ p.linear.objectiveValue x + d.linear.objectiveValue y

namespace ConeStore

variable {s : ConeStore K} {e : Expansion K} {d : ConeProgram K}

/-- The objective column is no member of the records of an expansion. -/
theorem objective_of_mem_records (he : e.Confined s.linear.columnCount) {r : List Nat}
    (hr : r ∈ e.records) {j : Nat} (hj : j ∈ r) :
    (s.linear.assembled e).objective.getD j 0 = 0 := by
  have hle := ((he.records r hr).2 j hj).1
  have hpos := s.linear.columnCount_pos
  rw [Store.getD_objective_assembled, if_neg fun h => by omega]

/-- The objective terms of the members of all records are nonnegative if the objective column
is, where it is a member of one. -/
theorem objective_mul_nonneg (he : e.Confined s.linear.columnCount) {x : Nat → K}
    (h : s.linear.objective.isSome → ∀ c ∈ s.cones, 0 ∈ c.record → 0 ≤ x 0) :
    ∀ r ∈ (s.assembled e).records, ∀ j ∈ r,
      0 ≤ (s.assembled e).linear.objective.getD j 0 * x j := by
  refine List.forall_mem_append.mpr ⟨fun r hr j hj => ?_, ?_⟩
  · have hzero : (s.assembled e).linear.objective.getD j 0 = 0 := objective_of_mem_records he hr hj
    rw [hzero, zero_mul]
  · refine List.forall_mem_map.mpr fun c hc j hj => ?_
    show 0 ≤ (s.linear.assembled e).objective.getD j 0 * x j
    rw [Store.getD_objective_assembled]
    by_cases hj' : j = 0 ∧ s.linear.objective.isSome
    · obtain ⟨rfl, hsome⟩ := hj'
      rw [if_pos ⟨rfl, hsome⟩, one_mul]
      exact h hsome c hc hj
    · rw [if_neg hj', zero_mul]

section Derived

variable [IsStrictOrderedRing K]
  (hd : (s.assembled e).deriveDual (s.assembled e).linear.dualProgram = .ok d)

include hd

/-- The dual of a record whose head occurs in some row vanishes. -/
theorem vanishes_of_rowPattern {j : Nat} {rest : List Nat}
    (hr : j :: rest ∈ (s.assembled e).records)
    (h : (s.assembled e).linear.dualProgram.linear.rowPattern j ≠ []) :
    d.Vanishes (ConeProgram.dualRecord (s.assembled e).linear.dualProgram.linear (j :: rest)) := by
  have hconsistent : (s.assembled e).linear.Consistent := Store.assembled_consistent
  exact (ConeProgram.headed_dualRecord hconsistent hd hr h).vanishes hd hr

omit [IsStrictOrderedRing K] in
/-- A program that its dual bounds has a nonnegative objective column in direct memberships: all
multipliers may be zero, since the row of such a column is dropped. -/
theorem objective_nonneg_of_bounds (hbounds : d.Bounds (s.assembled e))
    (hsome : s.linear.objective.isSome) {c : ConeConstraint} (hc : c ∈ s.cones)
    (hzero : 0 ∈ c.record) {x : Nat → K} (hx : (s.assembled e).Feasible x) : 0 ≤ x 0 := by
  have hconsistent : (s.assembled e).linear.Consistent := Store.assembled_consistent
  have hfeasible : d.Feasible 0 := by
    refine ConeProgram.feasible_zero hconsistent hd fun j _ hrecords => ?_
    have hne : j ≠ 0 := by
      rintro rfl
      exact hrecords c.record (List.mem_append_right _ (List.mem_map_of_mem hc)) hzero
    exact (Store.getD_objective_assembled j).trans (if_neg fun h => hne h.1)
  have hgap := hbounds x 0 hx hfeasible
  have hdual : d.linear.objectiveValue 0 = 0 := by simp [LinearProgram.objectiveValue]
  rw [hdual, add_zero] at hgap
  change 0 ≤ (s.linear.assembled e).objectiveValue x at hgap
  rwa [Store.objectiveValue_assembled, if_pos hsome] at hgap

variable (hs : s.Valid) (he : e.Confined s.linear.columnCount)

include hs he

/-- The duals of the records of an expansion vanish. -/
theorem Valid.vanishes_of_mem_records {r : List Nat} (hr : r ∈ e.records) :
    d.Vanishes (ConeProgram.dualRecord (s.assembled e).linear.dualProgram.linear r) := by
  have hrows : ∀ c ∈ s.linear.rows ++ e.rows,
      c.linear.ncols ≤ s.linear.columnCount + e.width :=
    List.forall_mem_append.mpr
      ⟨fun c hc => (hs.linear.rows c hc).trans (Nat.le_add_right _ _), he.rows⟩
  obtain ⟨j, rest, rfl⟩ := List.exists_cons_of_ne_nil (he.records r hr).1
  obtain ⟨c, hc, hmentions⟩ := he.heads _ hr j rfl
  have hconsistent : (s.assembled e).linear.Consistent := Store.assembled_consistent
  obtain ⟨i, hi, hne⟩ : ∃ i < (s.assembled e).linear.nrows,
      (s.assembled e).linear.linear.rowValue (Pi.single j 1) i ≠ 0 :=
    Store.exists_row_assembled hrows (List.mem_append_right _ hc) hmentions
  have hmem := LinearProgram.mem_rowPattern_dualProgram hconsistent hi hne
  exact vanishes_of_rowPattern hd (List.mem_append_left _ hr) (List.ne_nil_of_mem hmem)

/-- The dual of a canonical program bounds it if the duals of direct memberships vanish, unless
the objective column is a member of one and is negative somewhere. -/
theorem Valid.bounds_iff
    (hcones : ∀ c ∈ s.cones,
      d.Vanishes (ConeProgram.dualRecord (s.assembled e).linear.dualProgram.linear c.record)) :
    d.Bounds (s.assembled e) ↔
      (s.linear.objective.isSome → ∀ c ∈ s.cones, 0 ∈ c.record →
        ∀ x, (s.assembled e).Feasible x → 0 ≤ x 0) := by
  constructor
  · intro hbounds hsome c hc hzero x hx
    exact objective_nonneg_of_bounds hd hbounds hsome hc hzero hx
  · intro hobjective x y hx hy
    have hconsistent : (s.assembled e).linear.Consistent := Store.assembled_consistent
    refine ConeProgram.gap_nonneg hconsistent hd hx hy ?_ ?_
    · refine List.forall_mem_append.mpr ⟨fun r hr => hs.vanishes_of_mem_records hd he hr, ?_⟩
      exact List.forall_mem_map.mpr hcones
    · exact objective_mul_nonneg he fun hsome c hc hzero => hobjective hsome c hc hzero x hx

end Derived

end ConeStore

/-! ## Reachable models -/

namespace ConeModel

variable [IsStrictOrderedRing K] {m : ConeModel K}

/-- **Weak duality of cone models.** The programs of a reachable model with continuous columns
exist. The dual of a direct membership whose apex occurs in some row vanishes; if all of them do,
the dual bounds the model exactly if the objective column, where it is a member of a cone, is
nowhere negative. -/
theorem weak_duality_iff (hm : m.Reachable)
    (hc : ∀ b ∈ m.store.linear.declared, b.type = .continuous) :
    ∃ p l d, m.primal.1 = .ok p ∧ m.linearDual.1 = .ok l ∧ m.dual.1 = .ok d ∧
      (∀ c ∈ m.store.cones, l.value.linear.rowPattern c.apexColumn ≠ [] →
        d.value.Vanishes (ConeProgram.dualRecord l.value.linear c.record)) ∧
      ((∀ c ∈ m.store.cones,
          d.value.Vanishes (ConeProgram.dualRecord l.value.linear c.record)) →
        (d.value.Bounds p.value ↔ (m.store.linear.objective.isSome → ∀ c ∈ m.store.cones,
          0 ∈ c.record → ∀ x, p.value.Feasible x → 0 ≤ x 0))) := by
  have hvalid := hm.valid
  obtain ⟨e, he, hprogram⟩ := hvalid.store.exists_coneProgram
  have hdualize := LinearProgram.dualize_eq_ok _ (Store.types_assembled hc he.types)
  obtain ⟨d, hd⟩ :=
    (m.store.assembled e).exists_deriveDual (m.store.assembled e).linear.dualProgram
  obtain ⟨p, l, q, hp, hl, hq, hpv, hlv, hqv⟩ := hvalid.exists_programs hprogram hdualize hd
  refine ⟨p, l, q, hp, hl, hq, ?_⟩
  rw [hpv, hlv, hqv]
  refine ⟨fun c hc h => ?_, hvalid.store.bounds_iff hd he.toConfined⟩
  exact ConeStore.vanishes_of_rowPattern hd
    (List.mem_append_right _ (List.mem_map_of_mem hc)) h

theorem weak_duality_boundedNorm : boundedNorm.Reachable ∧
    (∀ b ∈ boundedNorm.store.linear.declared, b.type = .continuous) ∧
    ∃ p d, boundedNorm.primal.1 = .ok p ∧ boundedNorm.dual.1 = .ok d ∧
      d.value.Bounds p.value := by
  have hm := reachable_boundedNorm
  have hstore := store_boundedNorm
  have hc : ∀ b ∈ boundedNorm.store.linear.declared, b.type = .continuous := by
    rw [hstore]
    simp [pair, apex]
  obtain ⟨p, l, d, hp, hl, hd, happear, hiff⟩ := weak_duality_iff hm hc
  have hcheck : (do
      let l ← boundedNorm.store.linearDualProgram
      return decide (l.linear.rowPattern 3 ≠ [])) = Except.ok true := by
    rw [hstore]
    decide +kernel
  obtain ⟨l', hl', h⟩ := exists_of_bind_eq_ok hcheck
  have hvalue := hm.valid.linearDual_spec.1
  rw [hl, hl'] at hvalue
  obtain rfl : l.value = l' := Except.ok.inj hvalue
  refine ⟨hm, hc, p, d, hp, hd, (hiff fun c hcone => happear c hcone ?_).mpr ?_⟩
  · rw [hstore] at hcone
    obtain rfl := List.mem_singleton.mp hcone
    exact of_decide_eq_true (Except.ok.inj h)
  · intro _ c hcone hzero
    rw [hstore] at hcone
    obtain rfl := List.mem_singleton.mp hcone
    exact absurd hzero (by decide)

/-! ### A dual that does not bound its model -/

/-- The blocks of two columns behind the objective column. -/
def cap : Block := ⟨⟨0⟩, 1, .scalar, .continuous, none⟩

@[inherit_doc cap] def member : Block := ⟨⟨0⟩, 2, .scalar, .continuous, none⟩

/-- A model of two columns with rows, the second in absolute value at most the first. -/
def capped (c : LinearConstraint ℚ) : ConeModel ℚ :=
  (((empty ⟨0⟩ {} none).after (.declare .scalar .continuous none)).after
    (.declare .scalar .continuous none)).after
    (.subjectTo (.group [.leaf (.linear c), .leaf (.cone ⟨cap.all, member.all, rfl, rfl⟩)]))

theorem store_capped {c : LinearConstraint ℚ} (hc : c.owner = some ⟨0⟩) : (capped c).store =
    ⟨⟨⟨0⟩, none, {}, [cap, member], [c], [], [], none⟩, [],
      [⟨cap.all, member.all, rfl, rfl⟩]⟩ := by
  obtain ⟨owner, linear, constant, sense, hlength⟩ := c
  obtain rfl : owner = some ⟨0⟩ := hc
  unfold capped
  simp only [after, subjectTo, Collection.flatten, Collection.walk, Collection.within,
    List.map_cons, List.map_nil, List.cons_append, List.nil_append]
  rfl

theorem reachable_capped {c : LinearConstraint ℚ}
    (hc : (Affine.ofBlock member).eq (.number 3) = .ok c) : (capped c).Reachable := by
  have hcap : cap.all.block ∈
      [Store.objectiveBlock (.empty ⟨0⟩ {} none : Store ℚ), cap, member] := by
    simp [Block.all]
  have hmember : member.all.block ∈
      [Store.objectiveBlock (.empty ⟨0⟩ {} none : Store ℚ), cap, member] := by
    simp [Block.all]
  refine .after (.after (.after (.empty ..) trivial) trivial) ?_
  show ∀ c ∈ Collection.leaves _, Constraint.Built _ c
  simp only [Collection.leaves_group, Collection.leaves_leaf, List.flatMap_cons, List.flatMap_nil,
    List.cons_append, List.nil_append, List.forall_mem_cons]
  exact ⟨.eq (.block hmember) (.number 3) hc, .cone hmember hcap rfl, by simp⟩

/-- The column under the cone is three, and its multiplier is bounded by nothing. -/
theorem exists_gap_neg : ∃ m : ConeModel ℚ, m.Reachable ∧
    (∀ b ∈ m.store.linear.declared, b.type = .continuous) ∧
    ∃ p d x y, m.primal.1 = .ok p ∧ m.dual.1 = .ok d ∧
      p.value.Feasible x ∧ d.value.Feasible y ∧
      p.value.linear.objectiveValue x + d.value.linear.objectiveValue y < 0 := by
  have hcheck : (do
      let c ← (Affine.ofBlock member : Affine ℚ).eq (.number 3)
      let s : ConeStore ℚ := ⟨⟨⟨0⟩, none, {}, [cap, member], [c], [], [], none⟩, [],
        [⟨cap.all, member.all, rfl, rfl⟩]⟩
      let p ← s.coneProgram
      let l ← p.linear.dualize
      let d ← p.deriveDual l
      return decide (c.owner = some ⟨0⟩ ∧ p.Feasible ([0, 3, 3].getD · 0) ∧
        d.Feasible ([1].getD · 0) ∧ p.linear.objectiveValue ([0, 3, 3].getD · 0) +
          d.linear.objectiveValue ([1].getD · 0) < 0)) = Except.ok true := by
    decide +kernel
  obtain ⟨c, hc, h⟩ := exists_of_bind_eq_ok hcheck
  obtain ⟨p, hp, h⟩ := exists_of_bind_eq_ok h
  obtain ⟨l, hl, h⟩ := exists_of_bind_eq_ok h
  obtain ⟨d, hd, h⟩ := exists_of_bind_eq_ok h
  obtain ⟨howner, hx, hy, hgap⟩ := of_decide_eq_true (Except.ok.inj h)
  have hm := reachable_capped hc
  rw [← store_capped howner] at hp
  obtain ⟨p', l', d', hp', -, hd', rfl, -, rfl⟩ := hm.valid.exists_programs hp hl hd
  refine ⟨capped c, hm, ?_, p', d', _, _, hp', hd', hx, hy, hgap⟩
  rw [store_capped howner]
  simp [cap, member]

end ConeModel

end ConicForm
