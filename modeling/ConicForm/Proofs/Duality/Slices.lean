import ConicForm.Proofs.Duality.Cone

/-!
# The dual as a slice

The dual of a cone program is a slice of the linear dual that it is given: the rows whose index
occurs in a record leave, the columns stay. What the rows that leave refer to is kept twice, as the
records of the dual and as the cap at zero on the columns of the row at the head of a record, and
both are read in the linear dual before rows have left. This holds of any records over any linear
program, whether or not the one is a dual that fits the other: records may overlap, repeat an index
or name a row that does not exist.

## Main definitions

* `SparseMatrix.Refers`, `SparseMatrix.referenced`: the columns that a row refers to
* `ConeProgram.Slices`: a cone program whose linear part is a slice of a linear program

## Main results

* `SparseMatrix.rowPattern_eq_referenced`: the pattern of a row lists what it refers to, ascending
* `ConeProgram.slices_of_deriveDual_eq_ok`: each part of a slice
* `ConeProgram.exists_slices`: the dual exists and is a slice
-/

namespace ConicForm

/-! ## References -/

namespace SparseMatrix

variable {α : Type} [Scalar α] {m : SparseMatrix α} {i j : Nat}

/-- Whether a row has a coefficient in a column. -/
def Refers (m : SparseMatrix α) (i j : Nat) : Prop := ∃ e ∈ m.entries, e.row = i ∧ e.col = j

instance (m : SparseMatrix α) (i j : Nat) : Decidable (m.Refers i j) :=
  inferInstanceAs (Decidable (∃ e ∈ m.entries, _))

/-- The columns that a row refers to, ascending. -/
def referenced (m : SparseMatrix α) (i : Nat) : List Nat :=
  (List.range m.ncols).filter fun j => m.Refers i j

theorem mem_referenced : j ∈ m.referenced i ↔ m.Refers i j := by
  rw [referenced, List.mem_filter, List.mem_range, decide_eq_true_iff, and_iff_right_iff_imp]
  rintro ⟨e, he, -, rfl⟩
  exact (m.in_range e he).2

/-- The pattern of a row lists what the row refers to, in ascending order. -/
theorem rowPattern_eq_referenced (m : SparseMatrix α) : m.rowPattern = m.referenced := by
  funext i
  refine eq_filter_range (m.sorted_rowPattern i) fun j => ?_
  rw [decide_eq_true_iff, mem_rowPattern]
  exact ⟨fun h => ⟨lt_ncols_of_mem_rowPattern (mem_rowPattern.mpr h), h⟩, And.right⟩

/-- A row that does not exist refers to nothing. -/
theorem referenced_of_nrows_le (h : m.nrows ≤ i) : m.referenced i = [] := by
  refine List.eq_nil_iff_forall_not_mem.mpr fun j hj => ?_
  obtain ⟨e, he, rfl, -⟩ := mem_referenced.mp hj
  exact absurd (m.in_range e he).1 (Nat.not_lt.mpr h)

end SparseMatrix

/-! ## Slices -/

namespace ConeProgram

variable {α : Type} [Scalar α]

/-- The program `q` has the rows `kept` of `d`, those that occur in no record of `p`, and is over
the same columns. Its records, and the columns capped at zero, are what the rows of `d` refer to
that the records of `p` list. -/
structure Slices (p : ConeProgram α) (d : LinearProgram α) (q : ConeProgram α)
    (kept : List Nat) : Prop where
  /-- The rows stay in their order, each once. -/
  ascending : kept.Pairwise (· < ·)
  /-- A row stays unless it occurs in a record. -/
  mem_kept : ∀ i, i ∈ kept ↔ i < d.nrows ∧ ∀ r ∈ p.records, i ∉ r
  nrows : q.linear.nrows = kept.length
  ncols : q.linear.ncols = d.ncols
  /-- The coefficients of a row are those that it had, and there are no others. -/
  entries : ∀ e : Entry α, e ∈ q.linear.linear.entries ↔
    ∃ i, kept[e.row]? = some i ∧ { e with row := i } ∈ d.linear.entries
  constants : q.linear.constants.map some = kept.map (d.constants[·]?)
  senses : q.linear.senses.map some = kept.map (d.senses[·]?)
  types : q.linear.types = d.types
  lower : q.linear.lower = d.lower
  objective : q.linear.objective = d.objective
  /-- The cap is at zero where the first row of a record refers, and elsewhere as it was. -/
  upper : ∀ j < d.ncols, q.linear.upper[j]? =
    if ∃ r ∈ p.records, ∃ i ∈ r.head?, d.linear.Refers i j then some (.value 0) else d.upper[j]?
  /-- A record lists what its rows refer to, row after row. -/
  records : q.records = p.records.map (·.flatMap d.linear.referenced)
  /-- A row that does not exist adds nothing to a record. -/
  beyond : ∀ i, d.nrows ≤ i → d.linear.referenced i = []
  consistent : q.linear.Consistent

variable {p : ConeProgram α} {d : LinearProgram α}

theorem mem_headPattern_iff_refers {r : List Nat} {j : Nat} :
    j ∈ headPattern d.linear r ↔ ∃ i ∈ r.head?, d.linear.Refers i j := by
  cases r with
  | nil => simp [headPattern]
  | cons i r =>
    simp [headPattern, SparseMatrix.rowPattern_eq_referenced, SparseMatrix.mem_referenced]

theorem ascending_retainedRows (records : List (List Nat)) (n : Nat) :
    (retainedRows records n).Pairwise (· < ·) := List.pairwise_lt_range.filter _

/-- Looking up rows that exist gives what they have. -/
theorem map_some_getD {τ : Type} {l : List τ} {default : τ} {kept : List Nat}
    (h : ∀ i ∈ kept, i < l.length) :
    (kept.map fun i => l.getD i default).map some = kept.map (l[·]?) := by
  rw [List.map_map]
  refine List.map_congr_left fun i hi => ?_
  rw [Function.comp_apply, List.getD_eq_getElem _ _ (h i hi), List.getElem?_eq_getElem (h i hi)]

theorem getElem?_upper_dualLinear {j : Nat} (hj : j < d.upper.length) :
    (p.dualLinear d).upper[j]? =
      if ∃ r ∈ p.records, ∃ i ∈ r.head?, d.linear.Refers i j then some (.value 0)
      else d.upper[j]? := by
  have hcap : j ∈ p.records.flatMap (headPattern d.linear) ↔
      ∃ r ∈ p.records, ∃ i ∈ r.head?, d.linear.Refers i j := by
    simp only [List.mem_flatMap, mem_headPattern_iff_refers]
  simp only [dualLinear, List.getElem?_map, List.getElem?_zipIdx, List.getElem?_eq_getElem hj,
    Option.map_some, List.contains_iff_mem, hcap, Nat.zero_add]
  split <;> rfl

/-- The dual with its rebuilt records is a slice. -/
theorem slices_of_deriveDual_eq_ok (hd : d.Consistent) (hne : p.records ≠ []) {q : ConeProgram α}
    (hq : p.deriveDual d = .ok q) : Slices p d q (retainedRows p.records d.nrows) := by
  have hconsistent := consistent_deriveDual hd hq
  obtain ⟨hrecords, hlinear⟩ := eq_of_deriveDual_eq_ok hq
  rw [if_neg hne] at hlinear
  have hlt : ∀ i ∈ retainedRows p.records d.nrows, i < d.nrows := fun i hi =>
    (mem_retainedRows.mp hi).1
  refine ⟨ascending_retainedRows .., fun i => mem_retainedRows, ?_, ?_, ?_, ?_, ?_, ?_, ?_, ?_, ?_,
    ?_, fun i => SparseMatrix.referenced_of_nrows_le, hconsistent⟩
  · rw [hlinear]
    rfl
  · rw [hlinear]
    rfl
  · intro e
    rw [hlinear]
    exact SparseMatrix.mem_entries_selectRows
  · rw [hlinear]
    exact map_some_getD fun i hi => hd.constants ▸ hlt i hi
  · rw [hlinear]
    exact map_some_getD fun i hi => hd.senses ▸ hlt i hi
  · rw [hlinear]
    rfl
  · rw [hlinear]
    rfl
  · rw [hlinear]
    rfl
  · intro j hj
    rw [hlinear]
    exact getElem?_upper_dualLinear (hd.upper.symm ▸ hj)
  · rw [hrecords]
    refine List.map_congr_left fun r _ => ?_
    rw [dualRecord, SparseMatrix.rowPattern_eq_referenced]

/-- **The dual is a slice** of the linear dual that it is given, whatever the records are. It never
fails. -/
theorem exists_slices (p : ConeProgram α) (hd : d.Consistent) : ∃ q, p.deriveDual d = .ok q ∧
    (p.records = [] → q = ⟨d, []⟩) ∧ (p.records ≠ [] → ∃ kept, Slices p d q kept) := by
  obtain ⟨q, hq⟩ := p.exists_deriveDual d
  refine ⟨q, hq, fun hempty => ?_, fun hne => ⟨_, slices_of_deriveDual_eq_ok hd hne hq⟩⟩
  rw [deriveDual, hempty] at hq
  exact (Except.ok.inj hq).symm

/-! ### Records that overlap -/

/-- Six rows over four columns, the second row without coefficients. -/
def sixRows : LinearProgram ℚ where
  linear := .ofTriplets 6 4 [⟨0, 0, 2⟩, ⟨0, 2, -1⟩, ⟨2, 1, 1⟩, ⟨2, 3, 4⟩, ⟨3, 2, 1⟩, ⟨4, 0, 1⟩,
    ⟨4, 3, 1⟩, ⟨5, 1, -3⟩]
  constants := [1, 2, 3, 4, 5, 6]
  senses := [.eq, .le, .eq, .eq, .le, .eq]
  types := List.replicate 4 .continuous
  upper := [.value 0, .plusInf, .plusInf, .value 7]
  lower := List.replicate 4 .minusInf
  objective := [1, 0, 0, -1]

/-- Records that share rows and heads, repeat a row, name one that does not exist or are empty. -/
def overlapping : ConeProgram ℚ := ⟨sixRows, [[2, 0, 2], [2], [7, 3], [1], []]⟩

theorem exists_slices_overlapping : sixRows.Consistent ∧ overlapping.records ≠ [] ∧
    ∃ q kept, overlapping.deriveDual sixRows = .ok q ∧ Slices overlapping sixRows q kept ∧
      q.records = [[1, 3, 0, 2, 1, 3], [1, 3], [2], [], []] := by
  have hd : sixRows.Consistent := ⟨rfl, rfl, rfl, rfl, rfl, rfl⟩
  have hne : overlapping.records ≠ [] := List.cons_ne_nil _ _
  obtain ⟨q, hq, -, hslices⟩ := exists_slices overlapping hd
  obtain ⟨kept, h⟩ := hslices hne
  refine ⟨hd, hne, q, kept, hq, h, h.records.trans ?_⟩
  decide +kernel

end ConeProgram

end ConicForm
