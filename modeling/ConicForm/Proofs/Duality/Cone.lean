import ConicForm.Program.ConeDual
import ConicForm.Proofs.Duality.Gap
import ConicForm.Proofs.Matrix.Pattern
import ConicForm.Proofs.Matrix.Rows

/-!
# Duals of cone programs

The dual of a cone program keeps the rows of the columns outside all records. A record whose
dual is headed by a multiplier that is at most zero forces all of its multipliers to zero, so
that the columns of the record contribute only their own objective to the gap.

## Main definitions

* `ConeProgram.Headed`: the first column of a record, if it has one, is at most zero
* `ConeProgram.Vanishes`: all columns of a record are zero at feasible points

## Main results

* `ConeProgram.exists_deriveDual`: the dual of a cone program exists
* `ConeProgram.headed_dualRecord`: records whose first column occurs in a row have headed duals
* `ConeProgram.Headed.vanishes`: the multipliers of a headed record vanish
* `ConeProgram.gap_nonneg`: the gap is nonnegative where the multipliers of records vanish
-/

namespace ConicForm

/-! ## The dual exists -/

namespace ConeProgram

section Exists

variable {α : Type} [Scalar α] (p : ConeProgram α) (dual : LinearProgram α) {d : ConeProgram α}

theorem mem_dualRecord {m : SparseMatrix α} {r : List Nat} {i : Nat} :
    i ∈ dualRecord m r ↔ ∃ j ∈ r, i ∈ m.rowPattern j := List.mem_flatMap

/-- The dual of a cone program exists, whatever linear dual it is given. -/
theorem exists_deriveDual : ∃ d, p.deriveDual dual = .ok d := by
  unfold deriveDual
  split
  · exact ⟨_, rfl⟩
  · refine ⟨_, withRecords_eq_ok_iff.mpr ⟨fun r hr j hj => ?_, rfl⟩⟩
    obtain ⟨record, -, rfl⟩ := List.mem_map.mp hr
    obtain ⟨k, -, hjk⟩ := mem_dualRecord.mp hj
    exact SparseMatrix.lt_ncols_of_mem_rowPattern (m := dual.linear) hjk

variable {p dual}

theorem eq_of_deriveDual_eq_ok (h : p.deriveDual dual = .ok d) :
    d.records = p.records.map (dualRecord dual.linear) ∧
      d.linear = if p.records = [] then dual else p.dualLinear dual := by
  unfold deriveDual at h
  split at h
  · next hempty =>
    cases h
    rw [List.isEmpty_iff.mp hempty]
    exact ⟨rfl, rfl⟩
  · next hne =>
    obtain ⟨-, rfl⟩ := withRecords_eq_ok_iff.mp h
    exact ⟨rfl, (if_neg fun h => hne (List.isEmpty_iff.mpr h)).symm⟩

theorem ncols_deriveDual (hd : p.deriveDual dual = .ok d) : d.linear.ncols = dual.ncols := by
  rw [(eq_of_deriveDual_eq_ok hd).2]
  split <;> rfl

/-- The members of the records of the dual are columns of it. -/
theorem lt_ncols_of_mem_records (h : p.deriveDual dual = .ok d) :
    ∀ r ∈ d.records, ∀ i ∈ r, i < d.linear.ncols := by
  intro r hr i hi
  rw [(eq_of_deriveDual_eq_ok h).1] at hr
  obtain ⟨record, -, rfl⟩ := List.mem_map.mp hr
  obtain ⟨j, -, hij⟩ := mem_dualRecord.mp hi
  rw [ncols_deriveDual h]
  exact SparseMatrix.lt_ncols_of_mem_rowPattern (m := dual.linear) hij

/-- The dual of a cone program is consistent if the dual of its linear part is. -/
theorem consistent_deriveDual (hdual : dual.Consistent) (h : p.deriveDual dual = .ok d) :
    d.linear.Consistent := by
  rw [(eq_of_deriveDual_eq_ok h).2]
  split
  · exact hdual
  · constructor
    · simp [dualLinear, LinearProgram.nrows]
    · simp [dualLinear, LinearProgram.nrows]
    · exact hdual.types
    · show (dual.upper.zipIdx.map _).length = dual.ncols
      rw [List.length_map, List.length_zipIdx, hdual.upper]
    · exact hdual.lower
    · exact hdual.objective

theorem getD_upper_dualLinear {i : Nat} (hi : i < dual.upper.length) :
    (p.dualLinear dual).upper.getD i .plusInf =
      if ∃ r ∈ p.records, i ∈ headPattern dual.linear r then .value 0
      else dual.upper.getD i .plusInf := by
  simp [dualLinear, hi]

theorem getD_upper_deriveDual (hd : p.deriveDual dual = .ok d) {i : Nat}
    (hi : i < dual.upper.length) : d.linear.upper.getD i .plusInf =
      if ∃ r ∈ p.records, i ∈ headPattern dual.linear r then .value 0
      else dual.upper.getD i .plusInf := by
  rw [(eq_of_deriveDual_eq_ok hd).2]
  split
  · next hempty => simp [hempty]
  · exact getD_upper_dualLinear hi

end Exists

end ConeProgram

variable {K : Type} [Field K] [LinearOrder K]

/-- A coefficient of a column in a row is one of the row of that column in the dual. -/
theorem LinearProgram.mem_rowPattern_dualProgram {p : LinearProgram K} (hp : p.Consistent)
    {i j : Nat} (hi : i < p.nrows) (h : p.linear.rowValue (Pi.single j 1) i ≠ 0) :
    i ∈ p.dualProgram.linear.rowPattern j := by
  refine SparseMatrix.mem_rowPattern_of_rowValue_ne_zero ?_
  rw [rowValue_dualProgram hp]
  have hvalue : p.multiplierValue (Pi.single i 1) j = p.linear.rowValue (Pi.single j 1) i := by
    rw [multiplierValue, weightedSum_dualTriplets, Finset.sum_eq_zero, add_zero]
    · refine weightedSum_congr fun e _ => ?_
      simp only [Pi.single_apply]
      split_ifs <;> rfl
    · intro k _
      have hne : p.constants.length + k ≠ i := by
        have := hp.constants
        omega
      simp [Pi.single_eq_of_ne hne]
  rw [hvalue]
  exact mul_ne_zero (p.sign j).factor_ne_zero h

/-- What a column's row in the dual mentions are rows with a coefficient of the column, and those
that stand for its bounds. -/
theorem LinearProgram.of_mem_rowPattern_dualProgram {p : LinearProgram K} {i j : Nat}
    (h : i ∈ p.dualProgram.linear.rowPattern j) :
    (i < p.nrows ∧ p.linear.rowValue (Pi.single j 1) i ≠ 0) ∨ ∃ r ∈ p.boundRows, r.column = j := by
  obtain ⟨e, he, rfl, rfl⟩ := SparseMatrix.mem_rowPattern.mp h
  obtain ⟨t, ht, hrow, hcol⟩ := SparseMatrix.exists_cell_of_mem_ofTriplets he
  obtain ⟨u, hu, rfl⟩ := List.mem_map.mp ht
  rw [hrow, hcol]
  rcases List.mem_append.mp hu with hu | hu
  · obtain ⟨f, hf, rfl⟩ := List.mem_map.mp hu
    refine .inl ⟨(p.linear.in_range f hf).1, ?_⟩
    exact SparseMatrix.rowValue_ne_zero_of_mem_rowPattern
      (SparseMatrix.mem_rowPattern.mpr ⟨f, hf, rfl, rfl⟩)
  · obtain ⟨⟨r, k⟩, hr, rfl⟩ := List.mem_map.mp hu
    exact .inr ⟨r, List.fst_mem_of_mem_zipIdx hr, rfl⟩

/-- A column with no multiplier but zero has the value zero. -/
theorem LinearProgram.multiplierValue_eq_zero {p : LinearProgram K} (hp : p.Consistent) {j : Nat}
    {y : Nat → K} (h : ∀ i ∈ p.dualProgram.linear.rowPattern j, y i = 0) :
    p.multiplierValue y j = 0 := by
  have hrow := SparseMatrix.rowValue_eq_zero_of_rowPattern h
  rw [rowValue_dualProgram hp] at hrow
  exact (mul_eq_zero.mp hrow).resolve_left (p.sign j).factor_ne_zero

/-! ## Records under a head that is at most zero -/

theorem RecordHolds.eq_zero [IsStrictOrderedRing K] {y : Nat → K} {r : List Nat}
    (h : RecordHolds y r) (hhead : ∀ i ∈ r.head?, y i ≤ 0) : ∀ i ∈ r, y i = 0 := by
  cases r with
  | nil => simp
  | cons head rest =>
    obtain ⟨hpos, hsum⟩ := h
    have hzero : y head = 0 := le_antisymm (hhead head rfl) hpos
    rw [hzero, zero_pow two_ne_zero] at hsum
    refine List.forall_mem_cons.mpr ⟨hzero, fun i hi => ?_⟩
    have hle : y i ^ 2 ≤ (rest.map fun j => y j ^ 2).sum :=
      List.single_le_sum (by simp [sq_nonneg]) _ (List.mem_map_of_mem hi)
    exact pow_eq_zero_iff two_ne_zero |>.mp (le_antisymm (hle.trans hsum) (sq_nonneg _))

theorem recordHolds_of_eq_zero {x : Nat → K} {r : List Nat} (h : ∀ j ∈ r, x j = 0) :
    RecordHolds x r := by
  have hzero : RecordHolds (0 : Nat → K) r := by
    cases r with
    | nil => trivial
    | cons head rest => simp [RecordHolds]
  apply hzero.congr
  intro j hj
  exact (h j hj).symm

namespace ConeProgram

/-- Whether the first column of a record, if it has one, is at most zero. -/
def Headed (d : ConeProgram K) (r : List Nat) : Prop :=
  ∀ i ∈ r.head?, d.linear.upper.getD i .plusInf = .value 0

/-- Whether all columns of a record are zero at all feasible points. -/
def Vanishes (d : ConeProgram K) (r : List Nat) : Prop := ∀ y, d.Feasible y → ∀ i ∈ r, y i = 0

variable {p d : ConeProgram K} {x y : Nat → K} {r : List Nat}

/-! ## The parts of the dual -/

section Parts

variable {dual : LinearProgram K}

theorem mem_retainedRows {records : List (List Nat)} {n j : Nat} :
    j ∈ retainedRows records n ↔ j < n ∧ ∀ r ∈ records, j ∉ r := by
  simp [retainedRows]

/-- The rows that stay are those of the linear dual. -/
theorem row_dualLinear_iff :
    (∀ k < (p.dualLinear dual).nrows, ((p.dualLinear dual).senses.getD k .le).Holds
      ((p.dualLinear dual).linear.rowValue y k) ((p.dualLinear dual).constants.getD k 0)) ↔
    ∀ j < dual.nrows, (∀ r ∈ p.records, j ∉ r) →
      (dual.senses.getD j .le).Holds (dual.linear.rowValue y j) (dual.constants.getD j 0) := by
  have hrow : ∀ k (hk : k < (retainedRows p.records dual.nrows).length),
      (((p.dualLinear dual).senses.getD k .le).Holds
        ((p.dualLinear dual).linear.rowValue y k) ((p.dualLinear dual).constants.getD k 0) ↔
      (dual.senses.getD (retainedRows p.records dual.nrows)[k] .le).Holds
        (dual.linear.rowValue y (retainedRows p.records dual.nrows)[k])
        (dual.constants.getD (retainedRows p.records dual.nrows)[k] 0)) := by
    intro k hk
    simp only [dualLinear]
    rw [SparseMatrix.rowValue_selectRows y dual.linear hk,
      List.getD_eq_getElem _ _ (by simpa using hk), List.getD_eq_getElem _ _ (by simpa using hk),
      List.getElem_map, List.getElem_map]
  constructor
  · intro h j hj hrecords
    obtain ⟨k, hk, rfl⟩ := List.getElem_of_mem (mem_retainedRows.mpr ⟨hj, hrecords⟩)
    exact (hrow k hk).mp (h k hk)
  · intro h k hk
    have hmem := mem_retainedRows.mp (List.getElem_mem hk)
    exact (hrow k hk).mpr (h _ hmem.1 hmem.2)

theorem row_deriveDual_iff (hd : p.deriveDual dual = .ok d) :
    (∀ k < d.linear.nrows, (d.linear.senses.getD k .le).Holds
      (d.linear.linear.rowValue y k) (d.linear.constants.getD k 0)) ↔
    ∀ j < dual.nrows, (∀ r ∈ p.records, j ∉ r) →
      (dual.senses.getD j .le).Holds (dual.linear.rowValue y j) (dual.constants.getD j 0) := by
  rw [(eq_of_deriveDual_eq_ok hd).2]
  split
  · next hempty => simp [hempty]
  · exact row_dualLinear_iff

theorem lower_deriveDual (hd : p.deriveDual dual = .ok d) : d.linear.lower = dual.lower := by
  rw [(eq_of_deriveDual_eq_ok hd).2]
  split <;> rfl

theorem objectiveValue_deriveDual (hd : p.deriveDual dual = .ok d) (y : Nat → K) :
    d.linear.objectiveValue y = dual.objectiveValue y := by
  rw [(eq_of_deriveDual_eq_ok hd).2]
  split <;> rfl

end Parts

/-! ## The gap -/

section Gap

variable (hp : p.linear.Consistent) (hd : p.deriveDual p.linear.dualProgram = .ok d)

include hp hd

/-- The dual of a record whose first column occurs in some row is headed by a multiplier that is
at most zero. -/
theorem headed_dualRecord {j : Nat} {rest : List Nat} (hr : j :: rest ∈ p.records)
    (h : p.linear.dualProgram.linear.rowPattern j ≠ []) :
    d.Headed (dualRecord p.linear.dualProgram.linear (j :: rest)) := by
  intro i hi
  obtain ⟨first, others, hpattern⟩ := List.exists_cons_of_ne_nil h
  rw [dualRecord, List.flatMap_cons, hpattern] at hi
  obtain rfl := Option.mem_some_iff.mp hi
  have hfirst : first ∈ p.linear.dualProgram.linear.rowPattern j := by rw [hpattern]; simp
  have hlt := SparseMatrix.lt_ncols_of_mem_rowPattern hfirst
  rw [getD_upper_deriveDual hd ((LinearProgram.dualProgram_consistent hp).upper.symm ▸ hlt)]
  exact if_pos ⟨_, hr, hfirst⟩

omit hp in
/-- A record that is headed by a column of value at most zero is zero. -/
theorem Headed.vanishes [IsStrictOrderedRing K] (hr : r ∈ p.records)
    (h : d.Headed (dualRecord p.linear.dualProgram.linear r)) :
    d.Vanishes (dualRecord p.linear.dualProgram.linear r) := by
  intro y hy
  have hmem : dualRecord p.linear.dualProgram.linear r ∈ d.records := by
    rw [(eq_of_deriveDual_eq_ok hd).1]
    exact List.mem_map_of_mem hr
  refine (hy.records _ hmem).eq_zero fun i hi => ?_
  obtain ⟨j, -, hij⟩ := mem_dualRecord.mp (List.mem_of_mem_head? hi)
  have hupper := hy.linear.upper i
    (ncols_deriveDual hd ▸ SparseMatrix.lt_ncols_of_mem_rowPattern hij)
  rwa [h i hi] at hupper

/-- Feasible multipliers of the dual have the signs that the linear dual gives them. -/
theorem upper_of_feasible_deriveDual (hy : d.Feasible y) :
    ∀ i < p.linear.dualProgram.ncols,
      (p.linear.dualProgram.upper.getD i .plusInf).IsUpper (y i) := by
  intro i hi
  have hlen := (LinearProgram.dualProgram_consistent hp).upper
  have hupper := hy.linear.upper i (ncols_deriveDual hd ▸ hi)
  rw [getD_upper_deriveDual hd (hlen.symm ▸ hi)] at hupper
  split at hupper
  · rw [LinearProgram.getD_upper_dualProgram hp hi]
    split
    · exact hupper
    · trivial
  · exact hupper

/-- **The gap is nonnegative** where the multipliers of all records vanish, if the columns of the
records do not lower the objective. -/
theorem gap_nonneg [IsStrictOrderedRing K] (hx : p.Feasible x) (hy : d.Feasible y)
    (hzero : ∀ r ∈ p.records, d.Vanishes (dualRecord p.linear.dualProgram.linear r))
    (hobjective : ∀ r ∈ p.records, ∀ j ∈ r, 0 ≤ p.linear.objective.getD j 0 * x j) :
    0 ≤ p.linear.objectiveValue x + d.linear.objectiveValue y := by
  rw [objectiveValue_deriveDual hd]
  refine LinearProgram.gap_nonneg_of_columns hp hx.linear (upper_of_feasible_deriveDual hp hd hy)
    fun j hj => ?_
  by_cases hmem : ∃ r ∈ p.records, j ∈ r
  · obtain ⟨r, hr, hjr⟩ := hmem
    have hmul : p.linear.multiplierValue y j = 0 := by
      refine LinearProgram.multiplierValue_eq_zero hp fun i hi => ?_
      exact hzero r hr y hy i (mem_dualRecord.mpr ⟨j, hjr, hi⟩)
    rw [LinearProgram.reducedCost, hmul, sub_zero]
    exact hobjective r hr j hjr
  · have hrow := (row_deriveDual_iff hd).mp hy.linear.rows j hj
      fun r hr hjr => hmem ⟨r, hr, hjr⟩
    rw [LinearProgram.getD_senses_dualProgram _ hj, LinearProgram.rowValue_dualProgram hp,
      LinearProgram.getD_constants_dualProgram _ hj] at hrow
    exact LinearProgram.reducedCost_mul_nonneg (hx.linear.upper j hj) (hx.linear.lower j hj) hrow

/-- No multipliers are feasible if the columns outside all records have no objective. -/
theorem feasible_zero (hobjective : ∀ j < p.linear.ncols, (∀ r ∈ p.records, j ∉ r) →
    p.linear.objective.getD j 0 = 0) : d.Feasible 0 where
  linear := by
    have hconsistent := LinearProgram.dualProgram_consistent hp
    refine ⟨(row_deriveDual_iff hd).mpr fun j hj hrecords => ?_, fun i hi => ?_, fun i hi => ?_⟩
    · rw [SparseMatrix.rowValue_zero, LinearProgram.getD_constants_dualProgram _ hj,
        hobjective j hj hrecords, mul_zero]
      cases p.linear.dualProgram.senses.getD j .le with
      | le => exact le_refl (0 : K)
      | eq => exact rfl
    · rw [ncols_deriveDual hd] at hi
      rw [getD_upper_deriveDual hd (hconsistent.upper.symm ▸ hi),
        LinearProgram.getD_upper_dualProgram hp hi]
      split_ifs
      · exact le_refl (0 : K)
      · exact le_refl (0 : K)
      · trivial
    · rw [lower_deriveDual hd, LinearProgram.getD_lower_dualProgram]
      trivial
  records _ _ := recordHolds_of_eq_zero fun _ _ => rfl

end Gap

end ConeProgram

end ConicForm
