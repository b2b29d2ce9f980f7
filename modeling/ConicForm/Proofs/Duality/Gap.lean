import ConicForm.Program.LinearDual
import ConicForm.Proofs.Program.Feasible

/-!
# The duality gap of linear programs

A program and its dual minimize objectives of opposite sign, so the sum of the two is the
duality gap. It is split here into one term for each column, each row and each bound that
stands as a further row, without regard to feasibility; then each kind of term is shown to
be nonnegative under the conditions on its column or row alone.

## Main definitions

* `LinearProgram.multiplierValue`: the value of a column at multipliers of all rows
* `LinearProgram.reducedCost`: the objective of a column that the multipliers leave

## Main results

* `LinearProgram.rowValue_dualProgram`: the rows of the dual
* `LinearProgram.objectiveValue_add_dualProgram`: the gap as a sum of terms
* `LinearProgram.reducedCost_mul_nonneg`, `LinearProgram.rowTerm_nonneg`,
  `LinearProgram.boundTerm_nonneg`: the signs of the terms
-/

namespace ConicForm

/-! ## The lists of the dual -/

namespace LinearProgram

variable {α : Type} [Scalar α]

section Lengths

variable (p : LinearProgram α)

theorem dualize_eq_ok (h : ∀ t ∈ p.types, t = .continuous) : p.dualize = .ok p.dualProgram := by
  have hnone : p.discreteColumn? = none := by
    rw [discreteColumn?, Option.map_eq_none_iff, List.find?_eq_none]
    intro q hq
    simpa using h q.1 (List.fst_mem_of_mem_zipIdx hq)
  rw [dualize, hnone]

variable {p} in
/-- A dual that a program has is the one without regard to the types of its columns. -/
theorem eq_of_dualize_eq_ok {d : LinearProgram α} (h : p.dualize = .ok d) : d = p.dualProgram := by
  unfold dualize at h
  split at h
  · cases h
  · exact (Except.ok.inj h).symm

/-- A program with other columns has no dual. The error names the first of them. -/
theorem exists_dualize_eq_error (h : ¬∀ t ∈ p.types, t = .continuous) :
    ∃ j t, p.types[j]? = some t ∧ t ≠ .continuous ∧
      (∀ i < j, p.types[i]? = some .continuous) ∧ p.dualize = .error (.dualUndefined j t) := by
  obtain ⟨q, hfind⟩ : ∃ q, p.types.zipIdx.find? (fun q => q.1 ≠ .continuous) = some q := by
    rw [← Option.isSome_iff_exists, List.find?_isSome]
    obtain ⟨t, ht, hne⟩ : ∃ t ∈ p.types, t ≠ .continuous := by simpa using h
    obtain ⟨j, hj, rfl⟩ := List.getElem_of_mem ht
    exact ⟨(p.types[j], j), List.mem_zipIdx_iff_getElem?.mpr (List.getElem?_eq_getElem hj),
      by simpa using hne⟩
  obtain ⟨hne, j, hj, hq, hbefore⟩ := List.find?_eq_some_iff_getElem.mp hfind
  have hlen : j < p.types.length := by simpa using hj
  rw [List.getElem_zipIdx, Nat.zero_add] at hq
  subst hq
  refine ⟨j, p.types[j], List.getElem?_eq_getElem hlen, by simpa using hne, fun i hi => ?_, ?_⟩
  · have hi' : i < p.types.length := hi.trans hlen
    rw [List.getElem?_eq_getElem hi']
    simpa using hbefore i hi
  · rw [dualize, discreteColumn?, hfind]
    rfl

@[simp] theorem nrows_dualProgram : p.dualProgram.nrows = p.ncols := rfl

@[simp] theorem length_allConstants :
    p.allConstants.length = p.constants.length + p.boundRows.length := by
  simp [allConstants]

@[simp] theorem ncols_dualProgram :
    p.dualProgram.ncols = p.constants.length + p.boundRows.length :=
  p.length_allConstants

end Lengths

section BoundRows

variable (p : LinearProgram α)

theorem zipIdx_signs : p.signs.zipIdx = (List.range p.ncols).map fun j => (p.sign j, j) := by
  refine List.ext_getElem (by simp [signs]) fun j h₁ h₂ => ?_
  simp [signs]

theorem boundRows_eq_flatMap : p.boundRows = (List.range p.ncols).flatMap fun j =>
    boundRowsOf (p.sign j) j (p.lower.getD j .minusInf) (p.upper.getD j .plusInf) := by
  rw [boundRows, zipIdx_signs, List.flatMap_map]

variable {p} in
theorem mem_boundRows {r : BoundRow α} :
    r ∈ p.boundRows ↔ ∃ j < p.ncols, r ∈
      boundRowsOf (p.sign j) j (p.lower.getD j .minusInf) (p.upper.getD j .plusInf) := by
  simp [boundRows_eq_flatMap]

theorem column_of_mem_boundRowsOf {s : ColumnSign} {j : Nat} {l u : Bound α} {r : BoundRow α}
    (h : r ∈ boundRowsOf s j l u) : r.column = j := by
  unfold boundRowsOf at h
  rcases List.mem_append.mp h with h | h <;> split at h <;> simp at h
  all_goals
    obtain ⟨a, -, rfl⟩ := h
    rfl

variable {p} in
theorem column_lt_of_mem_boundRows {r : BoundRow α} (h : r ∈ p.boundRows) :
    r.column < p.ncols := by
  obtain ⟨j, hj, hr⟩ := mem_boundRows.mp h
  rwa [column_of_mem_boundRowsOf hr]

/-- A column that is at least zero, or free, has a sign that settles its bounds. -/
theorem boundRowsOf_eq_nil [Scalar.Units α] {j : Nat} {l : Bound α}
    (hl : l = .minusInf ∨ l = .value 0) :
    boundRowsOf (.ofBounds l .plusInf) j l .plusInf = [] := by
  rcases hl with rfl | rfl
  · rfl
  · have hsign : ColumnSign.ofBounds (.value (0 : α)) .plusInf = .nonneg :=
      if_pos Scalar.Units.isZero_zero
    rw [hsign]
    rfl

end BoundRows

section Consistent

variable {p : LinearProgram α} (hp : p.Consistent)

include hp

theorem length_allSenses : p.allSenses.length = p.dualProgram.ncols := by
  rw [allSenses, List.length_append, List.length_map, ncols_dualProgram, hp.senses, hp.constants]

theorem dualProgram_consistent : p.dualProgram.Consistent where
  constants := by simp [dualProgram, nrows]
  senses := by simp [dualProgram, nrows]
  types := by simp [dualProgram, ncols]
  upper := by
    rw [← length_allSenses hp]
    exact List.length_map _
  lower := by simp [dualProgram, ncols]
  objective := by simp [dualProgram, ncols]

/-- The triplets of the dual lie in it. -/
theorem dualTriplets_inRange {e : Entry α} (he : e ∈ p.dualTriplets) :
    e.InRange p.ncols p.allConstants.length := by
  rcases List.mem_append.mp he with he | he
  · obtain ⟨f, hf, rfl⟩ := List.mem_map.mp he
    have hrow := (p.linear.in_range f hf).1
    have hlen := hp.constants
    refine ⟨(p.linear.in_range f hf).2, ?_⟩
    simp only [length_allConstants]
    unfold nrows at hlen
    omega
  · obtain ⟨⟨r, k⟩, hrk, rfl⟩ := List.mem_map.mp he
    have hk := List.snd_lt_of_mem_zipIdx hrk
    refine ⟨column_lt_of_mem_boundRows (List.fst_mem_of_mem_zipIdx hrk), ?_⟩
    simp only [length_allConstants] at hk ⊢
    omega

end Consistent

end LinearProgram

variable {K : Type} [Field K] [LinearOrder K]

namespace ColumnSign

variable {l u : Bound K}

theorem ofBounds_eq_nonneg_iff : ofBounds l u = nonneg ↔ l = .value 0 := by
  rw [← Bound.isZero_iff, ofBounds]
  split_ifs <;> simp_all

theorem ofBounds_eq_nonpos_iff : ofBounds l u = nonpos ↔ l ≠ .value 0 ∧ u = .value 0 := by
  rw [Ne, ← Bound.isZero_iff, ← Bound.isZero_iff, ofBounds]
  split_ifs <;> simp_all

theorem factor_ne_zero (s : ColumnSign) : (s.factor : K) ≠ 0 := by
  cases s <;> simp [factor]

end ColumnSign

namespace LinearProgram

/-- A further row, or one without coefficient past the last of them. -/
def boundRow (p : LinearProgram K) (k : Nat) : BoundRow K := p.boundRows.getD k ⟨0, 0, 0⟩

/-- The value of a column at multipliers of all rows, further ones included. -/
def multiplierValue (p : LinearProgram K) (y : Nat → K) (j : Nat) : K :=
  weightedSum (fun r c => if r = j then y c else 0) p.dualTriplets

/-- The objective of a column that multipliers of the rows leave. -/
def reducedCost (p : LinearProgram K) (y : Nat → K) (j : Nat) : K :=
  p.objective.getD j 0 - p.multiplierValue y j

/-! ## The parts of the dual -/

section Parts

variable (p : LinearProgram K)

theorem boundRow_mem {k : Nat} (hk : k < p.boundRows.length) : p.boundRow k ∈ p.boundRows := by
  rw [boundRow, List.getD_eq_getElem _ _ hk]
  exact List.getElem_mem hk

theorem getD_allConstants_of_lt {i : Nat} (hi : i < p.constants.length) :
    p.allConstants.getD i 0 = p.constants.getD i 0 :=
  List.getD_append _ _ _ _ hi

theorem getD_allConstants_add {k : Nat} (hk : k < p.boundRows.length) :
    p.allConstants.getD (p.constants.length + k) 0 = (p.boundRow k).constant := by
  rw [allConstants, List.getD_append_right _ _ _ _ (Nat.le_add_right _ _),
    Nat.add_sub_cancel_left]
  simp [boundRow, hk]

theorem getD_allSenses_of_lt {i : Nat} (hi : i < p.senses.length) :
    p.allSenses.getD i .le = p.senses.getD i .le :=
  List.getD_append _ _ _ _ hi

theorem getD_allSenses_add {k : Nat} (hk : k < p.boundRows.length) :
    p.allSenses.getD (p.senses.length + k) .le = .le := by
  rw [allSenses, List.getD_append_right _ _ _ _ (Nat.le_add_right _ _),
    Nat.add_sub_cancel_left]
  simp [hk]

theorem getD_constants_dualProgram {j : Nat} (hj : j < p.ncols) :
    p.dualProgram.constants.getD j 0 = (p.sign j).factor * p.objective.getD j 0 := by
  simp [dualProgram, zipIdx_signs, hj]

theorem getD_senses_dualProgram {j : Nat} (hj : j < p.ncols) :
    p.dualProgram.senses.getD j .le = (p.sign j).sense := by
  simp [dualProgram, signs, hj]

theorem getD_objective_dualProgram (i : Nat) :
    p.dualProgram.objective.getD i 0 = -p.allConstants.getD i 0 := by
  show (p.allConstants.map (- ·)).getD i 0 = _
  rw [List.getD_eq_getElem?_getD, List.getElem?_map, List.getD_eq_getElem?_getD]
  cases p.allConstants[i]? <;> simp

end Parts

section Signs

variable {p : LinearProgram K} (hp : p.Consistent)

include hp

omit hp in
theorem getD_lower_dualProgram (i : Nat) : p.dualProgram.lower.getD i .minusInf = .minusInf := by
  simp [dualProgram, List.getElem?_replicate]
  split <;> rfl

theorem getD_upper_dualProgram {i : Nat} (hi : i < p.dualProgram.ncols) :
    p.dualProgram.upper.getD i .plusInf =
      if p.allSenses.getD i .le = .le then .value 0 else .plusInf := by
  rw [← length_allSenses hp] at hi
  simp [dualProgram, hi]

end Signs

/-! ## The rows of the dual -/

section Rows

variable {p : LinearProgram K} (hp : p.Consistent)

include hp

/-- **A weighted sum over the dual** is one over the transposed coefficients, each row times
its factor. -/
theorem weightedSum_dualProgram (w : Nat → Nat → K) :
    weightedSum w p.dualProgram.linear.entries =
      weightedSum (fun r c => (p.sign r).factor * w r c) p.dualTriplets := by
  show weightedSum w (SparseMatrix.ofTriplets _ _ _).entries = _
  rw [SparseMatrix.weightedSum_ofTriplets_of_inRange]
  · refine weightedSum_map w _ _ fun e _ => ?_
    ring
  · intro e he
    obtain ⟨f, hf, rfl⟩ := List.mem_map.mp he
    have hrange := dualTriplets_inRange hp hf
    exact hrange

theorem rowValue_dualProgram (y : Nat → K) (j : Nat) :
    p.dualProgram.linear.rowValue y j = (p.sign j).factor * p.multiplierValue y j := by
  rw [SparseMatrix.rowValue, weightedSum_dualProgram hp, multiplierValue, ← weightedSum_smul]
  refine weightedSum_congr fun e _ => ?_
  split
  · next h => rw [h]
  · simp

end Rows

/-- A weighted sum of the transposed coefficients, split into those of the program and those of
the further rows. -/
theorem weightedSum_dualTriplets (p : LinearProgram K) (w : Nat → Nat → K) :
    weightedSum w p.dualTriplets =
      weightedSum (fun r c => w c r) p.linear.entries +
        ∑ k ∈ Finset.range p.boundRows.length,
          (p.boundRow k).coefficient * w (p.boundRow k).column (p.constants.length + k) := by
  rw [dualTriplets, weightedSum_append]
  congr 1
  · exact weightedSum_map w _ _ fun e _ => rfl
  · rw [weightedSum, List.map_map]
    exact sum_map_zipIdx
      (fun (r : BoundRow K) k => r.coefficient * w r.column (p.constants.length + k)) _ _

/-! ## The gap as a sum of terms -/

/-- The multipliers of the columns, added up at an assignment. -/
theorem sum_multiplierValue_mul {p : LinearProgram K} (hp : p.Consistent) (x y : Nat → K) :
    ∑ j ∈ Finset.range p.ncols, x j * p.multiplierValue y j =
      ∑ i ∈ Finset.range p.nrows, y i * p.linear.rowValue x i +
        ∑ k ∈ Finset.range p.boundRows.length,
          y (p.constants.length + k) *
            ((p.boundRow k).coefficient * x (p.boundRow k).column) := by
  -- exchange the sums: both sides range over the transposed coefficients
  have hexchange : ∑ j ∈ Finset.range p.ncols, x j * p.multiplierValue y j =
      weightedSum (fun r c => x r * y c) p.dualTriplets :=
    sum_mul_weightedSum_row (fun e he => (dualTriplets_inRange hp he).1) x fun _ c => y c
  have hrows := p.linear.sum_mul_rowValue x y
  rw [hexchange, weightedSum_dualTriplets]
  show _ = ∑ i ∈ Finset.range p.linear.nrows, _ + _
  rw [hrows]
  congr 1
  · exact weightedSum_congr fun e _ => mul_comm _ _
  · exact Finset.sum_congr rfl fun k _ => by ring

/-- The objective of the dual, in the right-hand sides of the rows. -/
theorem objectiveValue_dualProgram {p : LinearProgram K} (hp : p.Consistent) (y : Nat → K) :
    p.dualProgram.objectiveValue y =
      -(∑ i ∈ Finset.range p.nrows, y i * p.constants.getD i 0 +
        ∑ k ∈ Finset.range p.boundRows.length,
          y (p.constants.length + k) * (p.boundRow k).constant) := by
  have hterm : ∀ i, p.dualProgram.objective.getD i 0 * y i = -(y i * p.allConstants.getD i 0) :=
    fun i => by rw [getD_objective_dualProgram]; ring
  rw [objectiveValue, ncols_dualProgram, Finset.sum_congr rfl fun i _ => hterm i,
    Finset.sum_neg_distrib, Finset.sum_range_add, hp.constants]
  congr 2
  · refine Finset.sum_congr rfl fun i hi => ?_
    rw [getD_allConstants_of_lt p (by simpa [hp.constants] using hi)]
  · refine Finset.sum_congr rfl fun k hk => ?_
    rw [← hp.constants, getD_allConstants_add p (Finset.mem_range.mp hk)]

/-- **The duality gap**, with a term for each column, each row and each further row. -/
theorem objectiveValue_add_dualProgram {p : LinearProgram K} (hp : p.Consistent)
    (x y : Nat → K) :
    p.objectiveValue x + p.dualProgram.objectiveValue y =
      ∑ j ∈ Finset.range p.ncols, p.reducedCost y j * x j +
      ∑ i ∈ Finset.range p.nrows, y i * (p.linear.rowValue x i - p.constants.getD i 0) +
      ∑ k ∈ Finset.range p.boundRows.length, y (p.constants.length + k) *
        ((p.boundRow k).coefficient * x (p.boundRow k).column - (p.boundRow k).constant) := by
  have hcolumns : ∑ j ∈ Finset.range p.ncols, p.reducedCost y j * x j =
      p.objectiveValue x - ∑ j ∈ Finset.range p.ncols, x j * p.multiplierValue y j := by
    rw [objectiveValue, ← Finset.sum_sub_distrib]
    exact Finset.sum_congr rfl fun j _ => by rw [reducedCost]; ring
  simp only [hcolumns, objectiveValue_dualProgram hp, sum_multiplierValue_mul hp, mul_sub,
    Finset.sum_sub_distrib]
  ring

/-! ## The signs of the terms -/

theorem mem_boundRowsOf {s : ColumnSign} {j : Nat} {l u : Bound K} {r : BoundRow K} :
    r ∈ boundRowsOf s j l u ↔
      (s ≠ .nonpos ∧ ∃ b, u = .value b ∧ r = ⟨j, 1, b⟩) ∨
        (s ≠ .nonneg ∧ ∃ b, l = .value b ∧ r = ⟨j, -1, -b⟩) := by
  cases s <;> cases l <;> cases u <;> simp [boundRowsOf]

section Signs

variable [IsStrictOrderedRing K] {p : LinearProgram K} {x y : Nat → K}

/-- A bound that stands as a row is respected as one. -/
theorem boundRow_le {s : ColumnSign} {j : Nat} {l u : Bound K} {r : BoundRow K} {a : K}
    (hr : r ∈ boundRowsOf s j l u) (hu : u.IsUpper a) (hl : l.IsLower a) :
    r.coefficient * a ≤ r.constant := by
  rcases mem_boundRowsOf.mp hr with ⟨-, b, rfl, rfl⟩ | ⟨-, b, rfl, rfl⟩
  · simpa [Bound.IsUpper] using hu
  · simpa [Bound.IsLower] using hl

omit [IsStrictOrderedRing K] in
/-- The multiplier of an inequality is at most zero. -/
theorem nonpos_of_upper_dualProgram {i : Nat} (hi : i < p.allSenses.length)
    (hs : p.allSenses.getD i .le = .le)
    (hy : (p.dualProgram.upper.getD i .plusInf).IsUpper (y i)) : y i ≤ 0 := by
  rw [List.getD_eq_getElem _ _ hi] at hs
  simpa [dualProgram, hi, hs, Bound.IsUpper] using hy

/-- The term of a column is nonnegative if its row holds in the dual. -/
theorem reducedCost_mul_nonneg {j : Nat}
    (hu : (p.upper.getD j .plusInf).IsUpper (x j))
    (hl : (p.lower.getD j .minusInf).IsLower (x j))
    (hrow : (p.sign j).sense.Holds ((p.sign j).factor * p.multiplierValue y j)
      ((p.sign j).factor * p.objective.getD j 0)) :
    0 ≤ p.reducedCost y j * x j := by
  unfold reducedCost
  cases hs : p.sign j with
  | nonneg =>
    have hx : 0 ≤ x j := by
      rw [ColumnSign.ofBounds_eq_nonneg_iff.mp hs] at hl
      exact hl
    rw [hs] at hrow
    simp only [ColumnSign.sense, ColumnSign.factor, Sense.Holds, one_mul] at hrow
    exact mul_nonneg (sub_nonneg.mpr hrow) hx
  | nonpos =>
    have hx : x j ≤ 0 := by
      rw [(ColumnSign.ofBounds_eq_nonpos_iff.mp hs).2] at hu
      exact hu
    rw [hs] at hrow
    simp only [ColumnSign.sense, ColumnSign.factor, Sense.Holds, neg_one_mul,
      neg_le_neg_iff] at hrow
    exact mul_nonneg_of_nonpos_of_nonpos (sub_nonpos.mpr hrow) hx
  | free =>
    rw [hs] at hrow
    simp only [ColumnSign.sense, ColumnSign.factor, Sense.Holds, one_mul] at hrow
    rw [hrow, sub_self, zero_mul]

/-- The term of a row is nonnegative if the row holds and its multiplier has its sign. -/
theorem rowTerm_nonneg (hp : p.Consistent) {i : Nat} (hi : i < p.nrows)
    (hx : (p.senses.getD i .le).Holds (p.linear.rowValue x i) (p.constants.getD i 0))
    (hy : (p.dualProgram.upper.getD i .plusInf).IsUpper (y i)) :
    0 ≤ y i * (p.linear.rowValue x i - p.constants.getD i 0) := by
  have hlen : i < p.senses.length := hp.senses.symm ▸ hi
  cases hs : p.senses.getD i .le with
  | le =>
    have hle : p.allSenses.getD i .le = .le := by rw [getD_allSenses_of_lt p hlen, hs]
    have hyi : y i ≤ 0 :=
      nonpos_of_upper_dualProgram (by rw [allSenses, List.length_append]; omega) hle hy
    rw [hs] at hx
    exact mul_nonneg_of_nonpos_of_nonpos hyi (sub_nonpos.mpr hx)
  | eq =>
    rw [hs] at hx
    rw [show p.linear.rowValue x i = p.constants.getD i 0 from hx, sub_self, mul_zero]

/-- The term of a further row is nonnegative if the bounds hold and its multiplier has its
sign. -/
theorem boundTerm_nonneg (hp : p.Consistent) {k : Nat} (hk : k < p.boundRows.length)
    (hu : ∀ j < p.ncols, (p.upper.getD j .plusInf).IsUpper (x j))
    (hl : ∀ j < p.ncols, (p.lower.getD j .minusInf).IsLower (x j))
    (hy : (p.dualProgram.upper.getD (p.constants.length + k) .plusInf).IsUpper
      (y (p.constants.length + k))) :
    0 ≤ y (p.constants.length + k) *
      ((p.boundRow k).coefficient * x (p.boundRow k).column - (p.boundRow k).constant) := by
  have hlen : p.constants.length = p.senses.length := hp.constants.trans hp.senses.symm
  have hyk : y (p.constants.length + k) ≤ 0 := by
    refine nonpos_of_upper_dualProgram ?_ ?_ hy
    · simp only [allSenses, List.length_append, List.length_map]
      omega
    · rw [hlen, getD_allSenses_add p hk]
  obtain ⟨j, hj, hr⟩ := mem_boundRows.mp (boundRow_mem p hk)
  have hle := boundRow_le hr (hu j hj) (hl j hj)
  rw [column_of_mem_boundRowsOf hr]
  exact mul_nonneg_of_nonpos_of_nonpos hyk (sub_nonpos.mpr hle)

/-- The gap is nonnegative if the terms of all columns are, the rows and bounds hold, and
the multipliers have their signs. -/
theorem gap_nonneg_of_columns (hp : p.Consistent) (hx : p.Feasible x)
    (hy : ∀ i < p.dualProgram.ncols, (p.dualProgram.upper.getD i .plusInf).IsUpper (y i))
    (hcolumns : ∀ j < p.ncols, 0 ≤ p.reducedCost y j * x j) :
    0 ≤ p.objectiveValue x + p.dualProgram.objectiveValue y := by
  rw [objectiveValue_add_dualProgram hp]
  refine add_nonneg (add_nonneg ?_ ?_) ?_
  · exact Finset.sum_nonneg fun j hj => hcolumns j (Finset.mem_range.mp hj)
  · refine Finset.sum_nonneg fun i hi => ?_
    have hi := Finset.mem_range.mp hi
    refine rowTerm_nonneg hp hi (hx.rows i hi) (hy i ?_)
    rw [ncols_dualProgram, hp.constants]
    omega
  · refine Finset.sum_nonneg fun k hk => ?_
    have hk := Finset.mem_range.mp hk
    refine boundTerm_nonneg hp hk hx.upper hx.lower (hy _ ?_)
    rw [ncols_dualProgram]
    omega

end Signs

end LinearProgram

end ConicForm
