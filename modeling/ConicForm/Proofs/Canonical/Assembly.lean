import ConicForm.Proofs.Canonical.Bounds
import ConicForm.Proofs.Canonical.Realization

/-!
# The assembled program

The linear program that a store and an expansion are assembled to is feasible where the stored
rows, the rows and bounds of the expansion, and the bounds of the declared columns hold.

## Main definitions

* `Store.BoundsHold`: the bounds of the declared columns hold

## Main results

* `LinearConstraint.holds_stack_iff`: the rows of a stack are those of its blocks
* `Store.assemble_eq_ok`: a store over its own columns is assembled
* `Store.assembled_consistent`: the lists of the program have an entry for each row or column
* `Store.feasible_assembled_iff`: the feasible points of the program
-/

namespace ConicForm

/-! ## Stacked rows -/

namespace LinearConstraint

variable {α : Type} [Scalar α]

theorem length_flatMap_constant (cs : List (LinearConstraint α)) :
    (cs.flatMap (·.constant)).length = SparseMatrix.totalRows (cs.map (·.linear)) := by
  induction cs with
  | nil => rfl
  | cons c cs ih =>
    rw [List.flatMap_cons, List.length_append, ih, c.length_constant]
    rfl

theorem length_flatMap_sense (cs : List (LinearConstraint α)) :
    (cs.flatMap fun c => List.replicate c.length c.sense).length =
      SparseMatrix.totalRows (cs.map (·.linear)) := by
  induction cs with
  | nil => rfl
  | cons c cs ih =>
    rw [List.flatMap_cons, List.length_append, ih, List.length_replicate]
    rfl

end LinearConstraint

section Stack

variable {K : Type} [Field K] [LinearOrder K]

/-- Each block of a stack has its rows in it. -/
theorem SparseMatrix.exists_rows_stack {ms : List (SparseMatrix K)} {n : Nat}
    (h : ∀ m ∈ ms, m.ncols ≤ n) {m : SparseMatrix K} (hm : m ∈ ms) :
    ∃ offset, offset + m.nrows ≤ totalRows ms ∧
      ∀ x, ∀ i < m.nrows, (stack ms n).rowValue x (offset + i) = m.rowValue x i := by
  induction ms with
  | nil => cases hm
  | cons k ms ih =>
    simp only [totalRows_cons]
    rcases List.mem_cons.mp hm with rfl | hm
    · refine ⟨0, by omega, fun x i hi => ?_⟩
      rw [Nat.zero_add, rowValue_stack_of_lt x h i hi]
    · obtain ⟨offset, hle, hrow⟩ := ih (fun k hk => h k (by simp [hk])) hm
      refine ⟨k.nrows + offset, by omega, fun x i hi => ?_⟩
      rw [Nat.add_assoc, rowValue_stack_add x h, hrow x i hi]

namespace LinearConstraint

/-- The rows of a stack hold if those of its blocks do. -/
theorem holds_stack_iff {cs : List (LinearConstraint K)} {n : Nat}
    (h : ∀ c ∈ cs, c.linear.ncols ≤ n) (x : Nat → K) :
    (∀ i < SparseMatrix.totalRows (cs.map (·.linear)),
      ((cs.flatMap fun c : LinearConstraint K => List.replicate c.length c.sense).getD i .le).Holds
        ((SparseMatrix.stack (cs.map (·.linear)) n).rowValue x i)
        ((cs.flatMap (·.constant)).getD i 0)) ↔ ∀ c ∈ cs, c.Holds x := by
  induction cs with
  | nil => simp
  | cons c cs ih =>
    have hms : ∀ m ∈ c.linear :: cs.map (·.linear), m.ncols ≤ n := by simpa using h
    have hsenses : (List.replicate c.length c.sense).length = c.length := List.length_replicate
    have hconst : c.constant.length = c.length := c.length_constant
    rw [List.forall_mem_cons, ← ih fun d hd => h d (by simp [hd])]
    simp only [List.map_cons, SparseMatrix.totalRows_cons, List.flatMap_cons]
    generalize cs.flatMap (fun c => List.replicate c.length c.sense) = senses
    generalize cs.flatMap (·.constant) = constants
    have hfirst : ∀ i < c.length,
        (((List.replicate c.length c.sense ++ senses).getD i .le).Holds
          ((SparseMatrix.stack (c.linear :: cs.map (·.linear)) n).rowValue x i)
          ((c.constant ++ constants).getD i 0) ↔
        c.sense.Holds (c.linear.rowValue x i) (c.constant.getD i 0)) := by
      intro i hi
      rw [List.getD_append _ _ _ _ (hi.trans_eq hsenses.symm), List.getD_replicate _ hi,
        List.getD_append _ _ _ _ (hi.trans_eq hconst.symm),
        SparseMatrix.rowValue_stack_of_lt x hms i hi]
    have hrest : ∀ i,
        (((List.replicate c.length c.sense ++ senses).getD (c.length + i) .le).Holds
          ((SparseMatrix.stack (c.linear :: cs.map (·.linear)) n).rowValue x (c.length + i))
          ((c.constant ++ constants).getD (c.length + i) 0) ↔
        (senses.getD i .le).Holds ((SparseMatrix.stack (cs.map (·.linear)) n).rowValue x i)
          (constants.getD i 0)) := by
      intro i
      rw [List.getD_append_right _ _ _ _ (hsenses.trans_le (Nat.le_add_right _ _)), hsenses,
        List.getD_append_right _ _ _ _ (hconst.trans_le (Nat.le_add_right _ _)), hconst,
        Nat.add_sub_cancel_left, length, SparseMatrix.rowValue_stack_add x hms]
    exact forall_lt_add_iff.trans
      (and_congr (forall₂_congr hfirst) (forall₂_congr fun i _ => hrest i))

end LinearConstraint

end Stack

/-! ## Programs of stores -/

namespace Store

section Checks

variable {α : Type} [Scalar α] {s : Store α} {e : Expansion α}

/-- A store and an expansion over their own columns are assembled. -/
theorem assemble_eq_ok
    (hrows : ∀ c ∈ s.rows ++ e.rows, c.linear.ncols ≤ s.columnCount + e.width)
    (hbounds : ∀ b ∈ s.bounds ++ e.bounds, ∀ q ∈ b.items, q.1 < s.columnCount + e.width) :
    s.assemble e = .ok (s.assembled e) := by
  have hnone : (s.rows ++ e.rows).find? (fun c => s.columnCount + e.width < c.linear.ncols) =
      none := by
    rw [List.find?_eq_none]
    intro c hc
    simpa using hrows c hc
  have hnone' : ((s.bounds ++ e.bounds).flatMap (·.items)).find?
      (fun q => s.columnCount + e.width ≤ q.1) = none := by
    rw [List.find?_eq_none]
    intro q hq
    obtain ⟨b, hb, hq⟩ := List.mem_flatMap.mp hq
    simpa using hbounds b hb q hq
  unfold assemble
  simp only [hnone, hnone']

theorem length_types_assembled : (s.assembled e).types.length = s.columnCount + e.width := by
  show (Block.types (s.blocks ++ e.blocks)).length = _
  rw [Block.length_types, Block.totalSize_append]
  rfl

theorem assembled_consistent : (s.assembled e).Consistent where
  constants := LinearConstraint.length_flatMap_constant _
  senses := LinearConstraint.length_flatMap_sense _
  types := length_types_assembled
  upper := by
    show (applyBounds _ _ _).length = _
    rw [length_applyBounds, List.length_map]
    exact length_types_assembled
  lower := by
    show (applyBounds _ _ _).length = _
    rw [length_applyBounds, List.length_map]
    exact length_types_assembled
  objective := by simp [assembled, LinearProgram.ncols]

theorem columnCount_pos (s : Store α) : 0 < s.columnCount :=
  Nat.add_pos_left Nat.one_pos _

/-- A store of continuous columns has a continuous program. -/
theorem types_assembled (hs : ∀ b ∈ s.declared, b.type = .continuous)
    (he : ∀ b ∈ e.blocks, b.type = .continuous) :
    ∀ t ∈ (s.assembled e).types, t = .continuous := by
  intro t ht
  obtain ⟨b, hb, rfl⟩ := Block.mem_types_imp ht
  rcases List.mem_append.mp hb with hb | hb
  · rcases List.mem_cons.mp hb with rfl | hb
    · rfl
    · exact hs b hb
  · exact he b hb

/-! ### Bounds of auxiliary columns -/

theorem getD_types_add (htypes : ∀ b ∈ e.blocks, b.type = .continuous) (i : Nat) :
    (Block.types (s.blocks ++ e.blocks)).getD (s.columnCount + i) .continuous = .continuous := by
  have hlen : (Block.types s.blocks).length = s.columnCount := Block.length_types _
  rw [Block.types_append, List.getD_append_right _ _ _ _ (by omega), hlen, Nat.add_sub_cancel_left]
  by_cases hi : i < (Block.types e.blocks).length
  · rw [List.getD_eq_getElem _ _ hi]
    obtain ⟨b, hb, ht⟩ := Block.mem_types_imp (List.getElem_mem hi)
    rw [ht, htypes b hb]
  · exact List.getD_eq_default _ _ (Nat.not_lt.mp hi)

/-- Bounds from below leave a column unbounded from above. -/
theorem upper_boundOf_eq (hside : ∀ b ∈ e.bounds, b.side = .lower) (j : Nat) :
    boundOf .upper e.bounds .continuous j = .plusInf := by
  have hnone : lastBound .upper e.bounds j = none := by
    refine lastBound_eq_none_iff.mpr fun b hb hupper => ?_
    rw [hside b hb] at hupper
    cases hupper
  rw [boundOf, hnone]
  rfl

theorem lower_boundOf_cases (hzero : ∀ b ∈ e.bounds, ∀ q ∈ b.items, q.2 = .value 0) (j : Nat) :
    boundOf .lower e.bounds .continuous j = .minusInf ∨
      boundOf .lower e.bounds .continuous j = .value 0 := by
  unfold boundOf
  cases hlast : lastBound .lower e.bounds j with
  | none => exact .inl rfl
  | some x =>
    obtain ⟨b, hb, -, hx⟩ := mem_of_lastBound_eq_some hlast
    exact .inr (hzero b hb _ hx)

section Auxiliary

variable (hbounds : ∀ b ∈ s.bounds, ∀ q ∈ b.items, q.1 < s.columnCount)
  (htypes : ∀ b ∈ e.blocks, b.type = .continuous)
  (hexpansion : ∀ b ∈ e.bounds, b.side = .lower ∧ ∀ q ∈ b.items, q.2 = .value 0)

include hbounds htypes hexpansion

/-- **An auxiliary column** is not bounded from above, and from below by zero if at all. -/
theorem bounds_assembled_add {i : Nat} (hi : i < e.width) :
    (s.assembled e).upper.getD (s.columnCount + i) .plusInf = .plusInf ∧
      ((s.assembled e).lower.getD (s.columnCount + i) .minusInf = .minusInf ∨
        (s.assembled e).lower.getD (s.columnCount + i) .minusInf = .value 0) := by
  have hlen : s.columnCount + i < (Block.types (s.blocks ++ e.blocks)).length :=
    (Nat.add_lt_add_left hi _).trans_eq length_types_assembled.symm
  have hne : ∀ b ∈ s.bounds, ∀ q ∈ b.items, q.1 ≠ s.columnCount + i := by
    intro b hb q hq
    have := hbounds b hb q hq
    omega
  constructor
  · refine (getD_upper_applyBounds _ hlen).trans ?_
    rw [getD_types_add htypes, boundOf_append_right hne,
      upper_boundOf_eq fun b hb => (hexpansion b hb).1]
  · have hlower : (s.assembled e).lower.getD (s.columnCount + i) .minusInf =
        boundOf .lower e.bounds .continuous (s.columnCount + i) := by
      refine (getD_lower_applyBounds _ hlen).trans ?_
      rw [getD_types_add htypes, boundOf_append_right hne]
    rw [hlower]
    exact lower_boundOf_cases (fun b hb => (hexpansion b hb).2) _

end Auxiliary

end Checks

variable {K : Type} [Field K] [LinearOrder K] {s : Store K} {e : Expansion K}

/-- The objective of the program is the objective column, if the store has an objective. -/
theorem getD_objective_assembled (j : Nat) :
    (s.assembled e).objective.getD j 0 = if j = 0 ∧ s.objective.isSome then 1 else 0 := by
  by_cases hj : j < s.columnCount + e.width
  · simp [assembled, hj]
  · have hne : j ≠ 0 := by
      have := s.columnCount_pos
      omega
    simp [assembled, hj, hne]

theorem objectiveValue_assembled (x : Nat → K) :
    (s.assembled e).objectiveValue x = if s.objective.isSome then x 0 else 0 := by
  have hpos : 0 < (s.assembled e).ncols := s.columnCount_pos.trans_le (Nat.le_add_right _ _)
  simp only [LinearProgram.objectiveValue, getD_objective_assembled, ite_and, ite_mul, one_mul,
    zero_mul]
  rw [Finset.sum_ite_eq' _ 0, if_pos (Finset.mem_range.mpr hpos)]

/-- A column that a row mentions has a coefficient in the program. -/
theorem exists_row_assembled
    (hrows : ∀ c ∈ s.rows ++ e.rows, c.linear.ncols ≤ s.columnCount + e.width)
    {c : LinearConstraint K} (hc : c ∈ s.rows ++ e.rows) {j : Nat} (h : c.Mentions j) :
    ∃ i < (s.assembled e).nrows, (s.assembled e).linear.rowValue (Pi.single j 1) i ≠ 0 := by
  obtain ⟨i, hi, hne⟩ := h
  have hwidths : ∀ m ∈ (s.rows ++ e.rows).map (·.linear), m.ncols ≤ s.columnCount + e.width :=
    List.forall_mem_map.mpr hrows
  obtain ⟨offset, hle, hrow⟩ := SparseMatrix.exists_rows_stack hwidths (List.mem_map_of_mem hc)
  refine ⟨offset + i, ?_, ?_⟩
  · show offset + i < SparseMatrix.totalRows _
    exact (Nat.add_lt_add_left hi offset).trans_le hle
  · rw [← hrow (Pi.single j 1) i hi] at hne
    exact hne

/-- The bounds of all declared columns hold. -/
def BoundsHold (s : Store K) (x : Nat → K) : Prop :=
  ∀ b ∈ s.blocks, ∀ j ∈ b.columns, (boundOf .upper s.bounds b.type j).IsUpper (x j) ∧
    (boundOf .lower s.bounds b.type j).IsLower (x j)

section Feasible

variable (hbounds : ∀ b ∈ s.bounds, ∀ q ∈ b.items, q.1 < s.columnCount)
  (he : e.Confined s.columnCount) (x : Nat → K)

include he

/-- The bounds of the auxiliary columns are those of the expansion. -/
theorem lower_boundOf_iff :
    (∀ i < e.width, (boundOf .lower e.bounds .continuous (s.columnCount + i)).IsLower
      (x (s.columnCount + i))) ↔ ∀ b ∈ e.bounds, b.Holds x := by
  constructor
  · rintro h b hb ⟨j, y⟩ hq
    obtain ⟨hside, hitems⟩ := he.bounds b hb
    obtain ⟨⟨hlo, hhi⟩, hy⟩ := hitems _ hq
    obtain ⟨i, rfl⟩ := Nat.exists_eq_add_of_le hlo
    cases hlast : lastBound .lower e.bounds (s.columnCount + i) with
    | none => exact absurd rfl (lastBound_eq_none_iff.mp hlast b hb hside _ hq)
    | some z =>
      obtain ⟨c, hc, -, hz⟩ := mem_of_lastBound_eq_some hlast
      obtain rfl : y = .value 0 := hy
      obtain rfl : z = .value 0 := ((he.bounds c hc).2 _ hz).2
      have := h i (Nat.lt_of_add_lt_add_left hhi)
      rw [boundOf, hlast, Option.getD_some] at this
      rw [hside]
      exact this
  · intro h i _
    unfold boundOf
    cases hlast : lastBound .lower e.bounds (s.columnCount + i) with
    | none => trivial
    | some y =>
      obtain ⟨b, hb, hside, hq⟩ := mem_of_lastBound_eq_some hlast
      have := h b hb _ hq
      rwa [hside] at this

include hbounds

/-- The bounds of the program are those of the declared columns and of the expansion. -/
theorem boundOf_assembled_iff (hlaid : Block.Laid 0 s.blocks) :
    (∀ j < s.columnCount + e.width,
      (boundOf .upper (s.bounds ++ e.bounds)
        ((Block.types (s.blocks ++ e.blocks)).getD j .continuous) j).IsUpper (x j) ∧
      (boundOf .lower (s.bounds ++ e.bounds)
        ((Block.types (s.blocks ++ e.blocks)).getD j .continuous) j).IsLower (x j)) ↔
    s.BoundsHold x ∧ ∀ b ∈ e.bounds, b.Holds x := by
  have hlen : (Block.types s.blocks).length = s.columnCount := Block.length_types _
  -- the declared columns come first; bounds of the one kind are not on columns of the other
  rw [forall_lt_add_iff, ← lower_boundOf_iff he x]
  refine and_congr ?_ (forall₂_congr fun i hi => ?_)
  · refine Iff.trans (forall₂_congr fun j hj => ?_)
      (Block.forall_types_iff hlaid (Q := fun j t => (boundOf .upper s.bounds t j).IsUpper (x j) ∧
        (boundOf .lower s.bounds t j).IsLower (x j)))
    have hne : ∀ b ∈ e.bounds, ∀ q ∈ b.items, q.1 ≠ j := by
      intro b hb q hq
      have := ((he.bounds b hb).2 q hq).1
      omega
    rw [boundOf_append_left hne, boundOf_append_left hne, Block.types_append,
      List.getD_append _ _ _ _ (by omega), Nat.zero_add]
  · have hne : ∀ b ∈ s.bounds, ∀ q ∈ b.items, q.1 ≠ s.columnCount + i := by
      intro b hb q hq
      have := hbounds b hb q hq
      omega
    rw [getD_types_add he.types, boundOf_append_right hne, boundOf_append_right hne,
      upper_boundOf_eq fun b hb => (he.bounds b hb).1]
    exact and_iff_right trivial

/-- **The feasible points of an assembled program** are those at which the stored rows, the
bounds of the declared columns, and the rows and bounds of the expansion hold. -/
theorem feasible_assembled_iff (hlaid : Block.Laid 0 s.blocks)
    (hrows : ∀ c ∈ s.rows, c.linear.ncols ≤ s.columnCount) :
    (s.assembled e).Feasible x ↔ ((∀ c ∈ s.rows, c.Holds x) ∧ s.BoundsHold x) ∧
      (∀ c ∈ e.rows, c.Holds x) ∧ ∀ b ∈ e.bounds, b.Holds x := by
  have hwidths : ∀ c ∈ s.rows ++ e.rows, c.linear.ncols ≤ s.columnCount + e.width := by
    intro c hc
    rcases List.mem_append.mp hc with hc | hc
    · exact (hrows c hc).trans (Nat.le_add_right _ _)
    · exact he.rows c hc
  have hbnds := boundOf_assembled_iff hbounds he x hlaid
  rw [LinearProgram.feasible_iff, and_and_and_comm, ← hbnds, ← List.forall_mem_append,
    ← LinearConstraint.holds_stack_iff hwidths x, forall₂_and]
  have hlen : ∀ j < (s.assembled e).ncols, j < (Block.types (s.blocks ++ e.blocks)).length :=
    fun j hj => hj.trans_eq length_types_assembled.symm
  refine and_congr Iff.rfl (and_congr ?_ ?_)
  · refine forall₂_congr fun j hj => ?_
    rw [← getD_upper_applyBounds _ (hlen j hj)]
    rfl
  · refine forall₂_congr fun j hj => ?_
    rw [← getD_lower_applyBounds _ (hlen j hj)]
    rfl

end Feasible

end Store

end ConicForm
