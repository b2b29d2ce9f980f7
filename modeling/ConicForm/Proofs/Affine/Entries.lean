import ConicForm.Constraint.Linear
import ConicForm.Proofs.Affine.Value
import ConicForm.Proofs.Matrix.Cells

/-!
# Entries of affine expressions

The entries of blocks of columns, of differences, and of rows that compare an expression with zero,
whatever the scalars are.

## Main results

* `Affine.mem_entries_ofBlock`: a block has ones on a diagonal
* `Affine.of_sub_eq_ok`: a difference of expressions of one size
* `Affine.of_le_zero_eq_ok`, `Affine.of_eq_zero_eq_ok`: a comparison with zero keeps the
  coefficients
-/

namespace ConicForm

variable {α : Type} [Scalar α]

namespace SparseMatrix

variable {m n : SparseMatrix α} {nrows ncols : Nat}

/-- A matrix without entries adds nothing. -/
theorem add_eq_self (hrows : n.nrows ≤ m.nrows) (hcols : n.ncols ≤ m.ncols) (h : n.entries = []) :
    m.add n = m := by
  have hcell : ∀ e ∈ m.entries, ∀ f ∈ n.entries, e.row = f.row → e.col ≠ f.col := by simp [h]
  refine eq_of_mem_entries_iff rfl (max_eq_left hcols) fun e => ?_
  rw [mem_entries_add hrows hcell, h]
  simp

end SparseMatrix

namespace Affine

variable {a b r : Affine α} {c : LinearConstraint α} {e : Entry α}

/-- A block has a one for each column, in the row of its position. -/
theorem mem_entries_ofBlock {b : Block} : e ∈ (ofBlock b : Affine α).linear.entries ↔
    Scalar.isZero (1 : α) = false ∧ ∃ i < b.size, e = ⟨i, b.first + i, 1⟩ := by
  have hlinear : (ofBlock b : Affine α).linear = .ofTriplets b.columns.length b.stop
      ((List.range b.size).map fun i => ⟨i, b.first + i, 1⟩) := by
    refine congrArg (SparseMatrix.ofTriplets b.columns.length b.stop) ?_
    refine List.ext_getElem (by simp) fun i _ _ => ?_
    simp [Block.columns]
  have hdistinct :
      DistinctCells ((List.range b.size).map fun i => (⟨i, b.first + i, 1⟩ : Entry α)) := by
    refine List.pairwise_map.mpr (List.pairwise_lt_range.imp ?_)
    intro i j hij hrow
    exact absurd hrow hij.ne
  rw [hlinear, SparseMatrix.mem_entries_ofTriplets hdistinct]
  constructor
  · rintro ⟨he, -, hne⟩
    obtain ⟨i, hi, rfl⟩ := List.mem_map.mp he
    exact ⟨hne, i, List.mem_range.mp hi, rfl⟩
  · rintro ⟨hne, i, hi, rfl⟩
    refine ⟨List.mem_map_of_mem (List.mem_range.mpr hi), ⟨?_, ?_⟩, hne⟩
    · exact hi.trans_eq b.length_columns.symm
    · exact Nat.add_lt_add_left hi _

theorem first_le_of_mem_ofBlock {b : Block} (h : e ∈ (ofBlock b : Affine α).linear.entries) :
    b.first ≤ e.col := by
  obtain ⟨-, i, -, rfl⟩ := mem_entries_ofBlock.mp h
  exact Nat.le_add_right _ _

/-- No two columns of a block are in one row, and no two rows in one column. -/
theorem row_eq_of_mem_ofBlock {b : Block} {f : Entry α}
    (he : e ∈ (ofBlock b : Affine α).linear.entries)
    (hf : f ∈ (ofBlock b : Affine α).linear.entries) (h : e.col = f.col) : e.row = f.row := by
  obtain ⟨-, i, -, rfl⟩ := mem_entries_ofBlock.mp he
  obtain ⟨-, j, -, rfl⟩ := mem_entries_ofBlock.mp hf
  exact Nat.add_left_cancel h

theorem Within.col_lt {id : ModelId} {n : Nat} (h : a.Within id n) (he : e ∈ a.linear.entries) :
    e.col < n :=
  (a.linear.in_range e he).2.trans_le h.ncols

theorem broadcast_of_size_eq {n : Nat} (h : a.size = n) : a.broadcast n = a := if_pos h

/-- What a difference of expressions of one size is made of. -/
theorem of_sub_eq_ok (h : a.sub b = .ok r) (hsize : a.size = b.size) :
    a.shape.elementwise b.shape = some r.shape ∧
      r.linear = a.linear.add (b.linear.scale (-1)) ∧
      r.constant = List.zipWith (· + ·) a.constant (b.constant.map (· * -1)) := by
  obtain ⟨-, hs, hlinear, hconstant⟩ := of_add_eq_ok h
  have ha : a.size = r.size := by
    rcases Shape.size_eq_of_elementwise hs with hr | hr
    · exact hr.symm
    · exact hsize.trans hr.symm
  rw [broadcast_of_size_eq ha, broadcast_of_size_eq (a := b.neg) (hsize.symm.trans ha)]
    at hlinear hconstant
  exact ⟨hs, hlinear, hconstant⟩

/-- Zero, negated and repeated. -/
theorem broadcast_neg_number_zero (n : Nat) :
    ((number (0 : α)).neg.broadcast n).linear.entries = [] ∧
      ((number (0 : α)).neg.broadcast n).constant = List.replicate n (0 * -1) := by
  have hentries : (number (0 : α)).neg.linear.entries = [] := SparseMatrix.entries_ofTriplets_nil
  unfold broadcast
  split
  · next h =>
    obtain rfl : 1 = n := h
    exact ⟨hentries, rfl⟩
  · constructor
    · show (SparseMatrix.ofTriplets _ _ _).entries = []
      rw [hentries]
      exact SparseMatrix.entries_ofTriplets_nil
    · show (List.replicate n [(0 : α) * -1]).flatten = _
      simp

/-- The difference of an expression and zero has its coefficients. -/
theorem of_sub_zero_eq_ok (h : a.sub (.number 0) = .ok r) :
    r.linear = a.linear ∧ r.constant = a.constant.map (· + 0 * -1) := by
  obtain ⟨-, hs, hlinear, hconstant⟩ := of_add_eq_ok h
  have hshape : a.shape = r.shape := by
    rw [show (number (0 : α)).neg.shape = .scalar from rfl, Shape.elementwise_scalar] at hs
    exact Option.some.inj hs
  have ha : a.size = r.size := congrArg Shape.size hshape
  obtain ⟨hentries, hzeros⟩ := broadcast_neg_number_zero (α := α) r.size
  rw [broadcast_of_size_eq ha] at hlinear hconstant
  constructor
  · rw [hlinear]
    refine SparseMatrix.add_eq_self ?_ (by simp [neg, scale, number]) hentries
    rw [nrows_linear, nrows_linear]
    exact (size_broadcast (Shape.size_of_elementwise hs).2).le.trans ha.ge
  · rw [hconstant, hzeros]
    refine List.ext_getElem ?_ fun i _ _ => by simp
    simp [a.length_constant, show a.shape.size = r.size from ha]

/-- A comparison with zero has the coefficients of the expression. -/
theorem ofResidual_of_sub_zero_eq_ok (h : a.sub (.number 0) = .ok r) (s : Sense) :
    (LinearConstraint.ofResidual r s).linear = a.linear ∧
      (LinearConstraint.ofResidual r s).sense = s ∧
      (LinearConstraint.ofResidual r s).constant = a.constant.map fun x => -(x + 0 * -1) := by
  obtain ⟨hlinear, hconstant⟩ := of_sub_zero_eq_ok h
  refine ⟨hlinear, rfl, ?_⟩
  show r.constant.map (- ·) = _
  rw [hconstant, List.map_map]
  rfl

/-- Rows that say that an expression is at most zero. -/
theorem of_le_zero_eq_ok (h : a.le (.number 0) = .ok c) :
    c.linear = a.linear ∧ c.sense = .le ∧ c.constant = a.constant.map fun x => -(x + 0 * -1) := by
  obtain ⟨r, hr, h⟩ := exists_of_bind_eq_ok h
  cases h
  exact ofResidual_of_sub_zero_eq_ok hr .le

/-- Rows that say that an expression is zero. -/
theorem of_eq_zero_eq_ok (h : a.eq (.number 0) = .ok c) :
    c.linear = a.linear ∧ c.sense = .eq ∧ c.constant = a.constant.map fun x => -(x + 0 * -1) := by
  obtain ⟨r, hr, h⟩ := exists_of_bind_eq_ok h
  cases h
  exact ofResidual_of_sub_zero_eq_ok hr .eq

end Affine

end ConicForm
