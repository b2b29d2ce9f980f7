import ConicForm.Proofs.Duality.Linear

/-!
# The dual of the dual

The dual of a program has one nonpositive or free column for each row, and no bound of it
stands as a further row. So its own dual has the rows and further rows of the program back,
with each column turned over by a factor: the dual of the dual is the program.

## Main definitions

* `LinearProgram.mirrorFactor`, `LinearProgram.mirror`: the factors and the assignment turned
  over

## Main results

* `LinearProgram.feasible_double_iff`: feasibility in the second dual
* `LinearProgram.double_dual`: the dual of the dual is the program
-/

namespace ConicForm

variable {K : Type} [Field K] [LinearOrder K]

/-- The sign that a column's bounds give its value. -/
def ColumnSign.Holds : ColumnSign → K → Prop
  | nonneg, a => 0 ≤ a
  | nonpos, a => a ≤ 0
  | free, _ => True

namespace LinearProgram

/-- The factor of a column: `-1` if its lower bound is not zero and its upper bound is, and `1`
otherwise. -/
def mirrorFactor (p : LinearProgram K) (j : Nat) : K :=
  if !(p.lower.getD j .minusInf).isZero && (p.upper.getD j .plusInf).isZero then -1 else 1

/-- The assignment that each column's factor turns over, `xⱼ = -sⱼ zⱼ`. -/
def mirror (p : LinearProgram K) (z : Nat → K) : Nat → K := fun j => -(p.mirrorFactor j * z j)

theorem factor_sign (p : LinearProgram K) (j : Nat) : (p.sign j).factor = p.mirrorFactor j := by
  unfold mirrorFactor sign ColumnSign.ofBounds
  cases (p.lower.getD j .minusInf).isZero <;> cases (p.upper.getD j .plusInf).isZero <;> rfl

theorem mirrorFactor_mul_self (p : LinearProgram K) (j : Nat) :
    p.mirrorFactor j * p.mirrorFactor j = 1 := by
  unfold mirrorFactor
  split <;> simp

theorem mirror_involutive (p : LinearProgram K) : Function.Involutive p.mirror := by
  intro z
  funext j
  have h := p.mirrorFactor_mul_self j
  show -(p.mirrorFactor j * -(p.mirrorFactor j * z j)) = z j
  linear_combination z j * h

/-! ## The dual of a dual -/

section DoubleDual

variable {p : LinearProgram K} (hp : p.Consistent)

include hp

/-- A column of the dual has the sign of its row: an inequality makes it nonpositive. -/
theorem sign_dualProgram {i : Nat} (hi : i < p.dualProgram.ncols) :
    p.dualProgram.sign i = if p.allSenses.getD i .le = .le then .nonpos else .free := by
  rw [sign, getD_lower_dualProgram, getD_upper_dualProgram hp hi]
  split <;> simp [ColumnSign.ofBounds, Bound.isZero]

/-- The bounds of a dual are no further rows. -/
theorem boundRows_dualProgram : p.dualProgram.boundRows = [] := by
  refine List.eq_nil_iff_forall_not_mem.mpr fun r hr => ?_
  obtain ⟨i, hi, hr⟩ := mem_boundRows.mp hr
  rw [getD_lower_dualProgram, getD_upper_dualProgram hp hi, sign_dualProgram hp hi,
    mem_boundRowsOf] at hr
  split at hr <;> simp at hr

/-- A column of the dual, at multipliers of its rows, has the values of the rows of the program
at the mirrored assignment, negated. -/
theorem multiplierValue_dualProgram (z : Nat → K) (i : Nat) :
    p.dualProgram.multiplierValue z i =
      -(p.linear.rowValue (p.mirror z) i +
        ∑ k ∈ Finset.range p.boundRows.length, (p.boundRow k).coefficient *
          if p.constants.length + k = i then p.mirror z (p.boundRow k).column else 0) := by
  rw [multiplierValue, weightedSum_dualTriplets, boundRows_dualProgram hp, List.length_nil,
    Finset.sum_range_zero, add_zero, weightedSum_dualProgram hp, weightedSum_dualTriplets,
    neg_add, SparseMatrix.rowValue, ← neg_one_mul, ← weightedSum_smul,
    ← Finset.sum_neg_distrib]
  congr 1
  · refine weightedSum_congr fun e _ => ?_
    rw [factor_sign, mirror]
    split <;> ring
  · refine Finset.sum_congr rfl fun k _ => ?_
    rw [factor_sign, mirror]
    split <;> ring

theorem multiplierValue_dualProgram_of_lt (z : Nat → K) {i : Nat} (hi : i < p.nrows) :
    p.dualProgram.multiplierValue z i = -p.linear.rowValue (p.mirror z) i := by
  rw [multiplierValue_dualProgram hp, Finset.sum_eq_zero fun k _ => ?_, add_zero]
  rw [if_neg (by have := hp.constants; omega), mul_zero]

theorem multiplierValue_dualProgram_add (z : Nat → K) {k : Nat} (hk : k < p.boundRows.length) :
    p.dualProgram.multiplierValue z (p.constants.length + k) =
      -((p.boundRow k).coefficient * p.mirror z (p.boundRow k).column) := by
  have hrow : p.linear.rowValue (p.mirror z) (p.constants.length + k) = 0 :=
    SparseMatrix.rowValue_of_nrows_le (by have := hp.constants; unfold nrows at this; omega) _
  rw [multiplierValue_dualProgram hp, hrow, zero_add, Finset.sum_eq_single k]
  · rw [if_pos rfl]
  · intro l _ hl
    rw [if_neg (by omega), mul_zero]
  · intro h
    exact absurd (Finset.mem_range.mpr hk) h

/-- A row of the second dual relates what its columns give to the right-hand side as the row
of the program does. -/
theorem row_double_iff [IsStrictOrderedRing K] (z : Nat → K) {i : Nat}
    (hi : i < p.dualProgram.ncols) (a : K) (ha : p.dualProgram.multiplierValue z i = -a) :
    (p.dualProgram.dualProgram.senses.getD i .le).Holds
        (p.dualProgram.dualProgram.linear.rowValue z i)
        (p.dualProgram.dualProgram.constants.getD i 0) ↔
      (p.allSenses.getD i .le).Holds a (p.allConstants.getD i 0) := by
  rw [getD_senses_dualProgram _ hi, rowValue_dualProgram (dualProgram_consistent hp),
    getD_constants_dualProgram _ hi, getD_objective_dualProgram, ha, sign_dualProgram hp hi]
  cases p.allSenses.getD i .le <;>
    simp [ColumnSign.sense, ColumnSign.factor, Sense.Holds]

end DoubleDual

/-- Bounds of a column that are not infinite on the wrong side hold exactly if its sign and its
further rows do. -/
theorem bounds_iff [IsStrictOrderedRing K] {l u : Bound K} (hl : l ≠ .plusInf)
    (hu : u ≠ .minusInf) (j : Nat) (a : K) :
    u.IsUpper a ∧ l.IsLower a ↔ (ColumnSign.ofBounds l u).Holds a ∧
      ∀ r ∈ boundRowsOf (.ofBounds l u) j l u, r.coefficient * a ≤ r.constant := by
  constructor
  · rintro ⟨hua, hla⟩
    refine ⟨?_, fun r hr => boundRow_le hr hua hla⟩
    cases hs : ColumnSign.ofBounds l u with
    | nonneg =>
      rw [ColumnSign.ofBounds_eq_nonneg_iff.mp hs] at hla
      exact hla
    | nonpos =>
      rw [(ColumnSign.ofBounds_eq_nonpos_iff.mp hs).2] at hua
      exact hua
    | free => trivial
  · rintro ⟨hs, hr⟩
    constructor
    · cases u with
      | minusInf => exact absurd rfl hu
      | plusInf => trivial
      | value b =>
        by_cases h : ColumnSign.ofBounds l (.value b) = .nonpos
        · rw [h] at hs
          rw [(ColumnSign.ofBounds_eq_nonpos_iff.mp h).2]
          exact hs
        · simpa [Bound.IsUpper] using hr _ (mem_boundRowsOf.mpr (.inl ⟨h, b, rfl, rfl⟩))
    · cases l with
      | plusInf => exact absurd rfl hl
      | minusInf => trivial
      | value b =>
        by_cases h : ColumnSign.ofBounds (.value b) u = .nonneg
        · rw [h] at hs
          rw [ColumnSign.ofBounds_eq_nonneg_iff.mp h]
          exact hs
        · simpa [Bound.IsLower] using hr _ (mem_boundRowsOf.mpr (.inr ⟨h, b, rfl, rfl⟩))

section DoubleDual

variable [IsStrictOrderedRing K] {p : LinearProgram K} (hp : p.Consistent)

include hp

omit [IsStrictOrderedRing K] in
theorem ncols_double : p.dualProgram.dualProgram.ncols = p.ncols := by
  rw [ncols_dualProgram, boundRows_dualProgram hp, List.length_nil, add_zero]
  exact (dualProgram_consistent hp).constants

/-- The bounds that the second dual puts on a column are the sign of the mirrored value. -/
theorem column_double_iff (z : Nat → K) {j : Nat} (hj : j < p.ncols) :
    (p.dualProgram.dualProgram.upper.getD j .plusInf).IsUpper (z j) ↔
      (p.sign j).Holds (p.mirror z j) := by
  have hsense : p.dualProgram.allSenses.getD j .le = (p.sign j).sense := by
    rw [allSenses, boundRows_dualProgram hp, List.map_nil, List.append_nil,
      getD_senses_dualProgram p hj]
  rw [getD_upper_dualProgram (dualProgram_consistent hp) (by rwa [ncols_double hp]), hsense,
    mirror, ← factor_sign]
  cases p.sign j <;>
    simp [ColumnSign.sense, ColumnSign.factor, ColumnSign.Holds, Bound.IsUpper]

/-- The rows of the program reappear in the second dual. -/
theorem row_double_of_lt (z : Nat → K) {i : Nat} (hi : i < p.nrows) :
    (p.dualProgram.dualProgram.senses.getD i .le).Holds
        (p.dualProgram.dualProgram.linear.rowValue z i)
        (p.dualProgram.dualProgram.constants.getD i 0) ↔
      (p.senses.getD i .le).Holds (p.linear.rowValue (p.mirror z) i) (p.constants.getD i 0) := by
  have hd : i < p.dualProgram.ncols := by
    rw [ncols_dualProgram, hp.constants]
    omega
  rw [row_double_iff hp z hd _ (multiplierValue_dualProgram_of_lt hp z hi),
    getD_allSenses_of_lt p (hp.senses.symm ▸ hi),
    getD_allConstants_of_lt p (hp.constants.symm ▸ hi)]

/-- The further rows of the program reappear in the second dual. -/
theorem row_double_add (z : Nat → K) {k : Nat} (hk : k < p.boundRows.length) :
    (p.dualProgram.dualProgram.senses.getD (p.constants.length + k) .le).Holds
        (p.dualProgram.dualProgram.linear.rowValue z (p.constants.length + k))
        (p.dualProgram.dualProgram.constants.getD (p.constants.length + k) 0) ↔
      (p.boundRow k).coefficient * p.mirror z (p.boundRow k).column ≤
        (p.boundRow k).constant := by
  have hlen : p.constants.length = p.senses.length := hp.constants.trans hp.senses.symm
  have hd : p.constants.length + k < p.dualProgram.ncols := by
    rw [ncols_dualProgram]
    omega
  rw [row_double_iff hp z hd _ (multiplierValue_dualProgram_add hp z hk),
    getD_allConstants_add p hk, hlen, getD_allSenses_add p hk]
  rfl

omit hp [IsStrictOrderedRing K] in
/-- The further rows hold at an assignment if those of each column do. -/
theorem forall_boundRow_iff (x : Nat → K) :
    (∀ k < p.boundRows.length,
      (p.boundRow k).coefficient * x (p.boundRow k).column ≤ (p.boundRow k).constant) ↔
    ∀ j < p.ncols, ∀ r ∈ boundRowsOf (p.sign j) j (p.lower.getD j .minusInf)
      (p.upper.getD j .plusInf), r.coefficient * x j ≤ r.constant := by
  constructor
  · intro h j hj r hr
    obtain ⟨k, hk, rfl⟩ := List.getElem_of_mem (mem_boundRows.mpr ⟨j, hj, hr⟩)
    have hkr := h k hk
    rwa [boundRow, List.getD_eq_getElem _ _ hk, column_of_mem_boundRowsOf hr] at hkr
  · intro h k hk
    obtain ⟨j, hj, hr⟩ := mem_boundRows.mp (boundRow_mem p hk)
    rw [column_of_mem_boundRowsOf hr]
    exact h j hj _ hr

/-- The bounds of all columns hold exactly if their signs and the further rows do. -/
theorem bounds_double_iff (hl : ∀ l ∈ p.lower, l ≠ .plusInf)
    (hu : ∀ u ∈ p.upper, u ≠ .minusInf)
    (x : Nat → K) :
    (∀ j < p.ncols, (p.upper.getD j .plusInf).IsUpper (x j) ∧
      (p.lower.getD j .minusInf).IsLower (x j)) ↔
    (∀ j < p.ncols, (p.sign j).Holds (x j)) ∧ ∀ k < p.boundRows.length,
      (p.boundRow k).coefficient * x (p.boundRow k).column ≤ (p.boundRow k).constant := by
  rw [forall_boundRow_iff, ← forall₂_and]
  refine forall₂_congr fun j hj => ?_
  have hlj : j < p.lower.length := hp.lower.symm ▸ hj
  have huj : j < p.upper.length := hp.upper.symm ▸ hj
  refine bounds_iff ?_ ?_ j (x j)
  · rw [List.getD_eq_getElem _ _ hlj]
    exact hl _ (List.getElem_mem hlj)
  · rw [List.getD_eq_getElem _ _ huj]
    exact hu _ (List.getElem_mem huj)

theorem feasible_double_iff (hl : ∀ l ∈ p.lower, l ≠ .plusInf)
    (hu : ∀ u ∈ p.upper, u ≠ .minusInf) (z : Nat → K) :
    p.dualProgram.dualProgram.Feasible z ↔ p.Feasible (p.mirror z) := by
  have hnrows : p.dualProgram.dualProgram.nrows = p.nrows + p.boundRows.length := by
    rw [nrows_dualProgram, ncols_dualProgram, hp.constants]
  constructor
  · intro hz
    have hb := (bounds_double_iff hp hl hu (p.mirror z)).mpr
      ⟨fun j hj => (column_double_iff hp z hj).mp (hz.upper j (by rwa [ncols_double hp])),
        fun k hk => (row_double_add hp z hk).mp (hz.rows _ (by rw [hp.constants]; omega))⟩
    exact ⟨fun i hi => (row_double_of_lt hp z hi).mp (hz.rows i (by omega)),
      fun j hj => (hb j hj).1, fun j hj => (hb j hj).2⟩
  · intro hx
    obtain ⟨hsigns, hfurther⟩ := (bounds_double_iff hp hl hu (p.mirror z)).mp
      fun j hj => ⟨hx.upper j hj, hx.lower j hj⟩
    refine ⟨fun i hi => ?_, fun j hj => ?_, fun j _ => ?_⟩
    · by_cases him : i < p.nrows
      · exact (row_double_of_lt hp z him).mpr (hx.rows i him)
      · obtain ⟨k, rfl⟩ := Nat.exists_eq_add_of_le (Nat.not_lt.mp him)
        rw [← hp.constants]
        exact (row_double_add hp z (by omega)).mpr (hfurther k (by omega))
    · rw [ncols_double hp] at hj
      exact (column_double_iff hp z hj).mpr (hsigns j hj)
    · rw [getD_lower_dualProgram]
      trivial

omit [IsStrictOrderedRing K] in
theorem objectiveValue_double (z : Nat → K) :
    p.objectiveValue (p.mirror z) = p.dualProgram.dualProgram.objectiveValue z := by
  rw [objectiveValue, objectiveValue, ncols_double hp]
  refine Finset.sum_congr rfl fun j hj => ?_
  have hj := Finset.mem_range.mp hj
  rw [getD_objective_dualProgram, allConstants, boundRows_dualProgram hp, List.map_nil,
    List.append_nil, getD_constants_dualProgram p hj, factor_sign, mirror]
  ring

end DoubleDual

/-- **The dual of the dual is the program.** If no bound is infinite on the wrong side, both
duals exist, and turning the columns over maps the feasible points of the second dual one to
one onto those of the program, with the same objective. -/
theorem double_dual [IsStrictOrderedRing K] {p : LinearProgram K} (hp : p.Consistent)
    (hc : ∀ t ∈ p.types, t = .continuous) (hl : ∀ l ∈ p.lower, l ≠ .plusInf)
    (hu : ∀ u ∈ p.upper, u ≠ .minusInf) :
    ∃ d dd, p.dualize = .ok d ∧ d.dualize = .ok dd ∧ Set.BijOn p.mirror dd.points p.points ∧
      ∀ z ∈ dd.points, dd.objectiveValue z = p.objectiveValue (p.mirror z) := by
  have hdc : ∀ t ∈ p.dualProgram.types, t = .continuous := fun t ht =>
    List.eq_of_mem_replicate ht
  have hmem : ∀ z, z ∈ p.dualProgram.dualProgram.points ↔ p.mirror z ∈ p.points := by
    intro z
    refine and_congr (feasible_double_iff hp hl hu z) (forall_congr' fun j => ?_)
    rw [ncols_double hp]
    refine imp_congr_right fun _ => ?_
    have hne : p.mirrorFactor j ≠ 0 := left_ne_zero_of_mul_eq_one (p.mirrorFactor_mul_self j)
    simp [mirror, hne]
  refine ⟨_, _, dualize_eq_ok p hc, dualize_eq_ok _ hdc, ⟨?_, ?_, ?_⟩, fun z _ => ?_⟩
  · exact fun z hz => (hmem z).mp hz
  · exact p.mirror_involutive.injective.injOn
  · intro x hx
    refine ⟨p.mirror x, (hmem _).mpr ?_, p.mirror_involutive x⟩
    rwa [p.mirror_involutive x]
  · exact (objectiveValue_double hp z).symm

theorem double_dual_mixedProgram :
    mixedProgram.Consistent ∧ (∀ t ∈ mixedProgram.types, t = .continuous) ∧
      (∀ l ∈ mixedProgram.lower, l ≠ .plusInf) ∧
      (∀ u ∈ mixedProgram.upper, u ≠ .minusInf) ∧
      ∃ d dd, mixedProgram.dualize = .ok d ∧ d.dualize = .ok dd ∧
        Set.BijOn mixedProgram.mirror dd.points mixedProgram.points ∧
        ∀ z ∈ dd.points, dd.objectiveValue z =
          mixedProgram.objectiveValue (mixedProgram.mirror z) := by
  have hp : mixedProgram.Consistent := ⟨rfl, rfl, rfl, rfl, rfl, rfl⟩
  have hc : ∀ t ∈ mixedProgram.types, t = .continuous := by decide
  have hl : ∀ l ∈ mixedProgram.lower, l ≠ .plusInf := by simp [mixedProgram]
  have hu : ∀ u ∈ mixedProgram.upper, u ≠ .minusInf := by simp [mixedProgram]
  exact ⟨hp, hc, hl, hu, double_dual hp hc hl hu⟩

end LinearProgram

end ConicForm
