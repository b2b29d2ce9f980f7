import ConicForm.Proofs.Canonical.Widening
import ConicForm.Proofs.Exact

/-!
# Columns with a row of their own

Each auxiliary column of a cone stands for an expression over the columns of the model. One equality
row says so, in which the column has the coefficient one or minus one, and no other row refers to
it. The rows of an expansion are those of its columns in order, so that a column and its row are
found at the same position.

## Main definitions

* `Scalar.IsSign`: one and minus one
* `LinearConstraint.Pivots`: rows that stand for the columns of a block
* `Expansion.Pivotal`: expansions whose rows stand for their columns, each in one record
* `ConeProgram.Pivot`: columns of a program that stand for a row

## Main results

* `pivotal_expandAll`: conic constraints expand so
* `exists_sign_of_pivots`: the one coefficient of a column
* `ConeStore.Layout.pivot`: the columns that cones contribute to a canonical program
-/

namespace ConicForm

variable {α : Type} [Scalar α]

namespace Scalar

/-- One or minus one. -/
def IsSign (x : α) : Prop := x = 1 ∨ x = -1

namespace IsSign

variable [Units α] {x : α}

theorem isZero_eq_false (h : IsSign x) : isZero x = false := by
  rcases h with rfl | rfl
  · exact Units.isZero_one
  · exact Units.isZero_neg_one

theorem one_mul (h : IsSign x) : 1 * x = x := by
  rcases h with rfl | rfl
  · exact Units.one_mul_one
  · exact Units.one_mul_neg_one

end IsSign

end Scalar

/-! ## Rows of a block -/

/-- Equality rows that stand for the columns of a block: behind the first `n` columns, each has one
coefficient, a sign in the column at its position. -/
structure LinearConstraint.Pivots (n : Nat) (b : Block) (c : LinearConstraint α) : Prop where
  sense : c.sense = .eq
  nrows : c.linear.nrows = b.size
  exists_sign : ∃ x : α, Scalar.IsSign x ∧ ∀ e : Entry α, n ≤ e.col →
    (e ∈ c.linear.entries ↔ ∃ i < b.size, e = ⟨i, b.first + i, x⟩)

namespace Affine

variable [Scalar.Units α] {id : ModelId} {n : Nat} {a r : Affine α} {b : Block}
  {c : LinearConstraint α} {e : Entry α}

/-- The negated columns of a block. -/
theorem mem_entries_neg_ofBlock : e ∈ ((ofBlock b : Affine α).linear.scale (-1)).entries ↔
    ∃ i < b.size, e = ⟨i, b.first + i, -1⟩ := by
  rw [SparseMatrix.mem_entries_scale]
  constructor
  · rintro ⟨f, hf, rfl, -⟩
    obtain ⟨-, i, hi, rfl⟩ := mem_entries_ofBlock.mp hf
    exact ⟨i, hi, by rw [Scalar.Units.one_mul_neg_one]⟩
  · rintro ⟨i, hi, rfl⟩
    refine ⟨_, mem_entries_ofBlock.mpr ⟨Scalar.Units.isZero_one, i, hi, rfl⟩, ?_, ?_⟩
    · rw [Scalar.Units.one_mul_neg_one]
    · rw [Scalar.Units.one_mul_neg_one]
      exact Scalar.Units.isZero_neg_one

/-- An expression less a block that copies it. -/
theorem pivots_copy (ha : a.Within id n) (hn : n ≤ b.first) (hshape : b.shape = a.shape)
    (hr : a.sub (.ofBlock b) = .ok r) (hc : r.eq (.number 0) = .ok c) : c.Pivots n b := by
  have hsize : a.size = (ofBlock b : Affine α).size := congrArg Shape.size hshape.symm
  obtain ⟨hlinear, hsense, -⟩ := of_eq_zero_eq_ok hc
  rw [(of_sub_eq_ok hr hsize).2.1] at hlinear
  have hrows : ((ofBlock b : Affine α).linear.scale (-1)).nrows ≤ a.linear.nrows := by
    rw [SparseMatrix.nrows_scale, nrows_linear, nrows_linear]
    exact hsize.ge
  have hcell : ∀ e ∈ a.linear.entries, ∀ f ∈ ((ofBlock b : Affine α).linear.scale (-1)).entries,
      e.row = f.row → e.col ≠ f.col := by
    intro e he f hf _
    obtain ⟨i, -, rfl⟩ := mem_entries_neg_ofBlock.mp hf
    exact ((ha.col_lt he).trans_le (hn.trans (Nat.le_add_right _ _))).ne
  refine ⟨hsense, ?_, -1, .inr rfl, fun e he => ?_⟩
  · rw [hlinear]
    exact a.nrows_linear.trans hsize
  · rw [hlinear, SparseMatrix.mem_entries_add hrows hcell, mem_entries_neg_ofBlock]
    exact or_iff_right fun hea => absurd (ha.col_lt hea) (Nat.not_lt.mpr he)

/-- A block less the expression that it copies. -/
theorem pivots_copied (ha : a.Within id n) (hn : n ≤ b.first) (hshape : b.shape = a.shape)
    (hr : (Affine.ofBlock b).sub a = .ok r) (hc : r.eq (.number 0) = .ok c) : c.Pivots n b := by
  have hsize : (ofBlock b : Affine α).size = a.size := congrArg Shape.size hshape
  obtain ⟨hlinear, hsense, -⟩ := of_eq_zero_eq_ok hc
  rw [(of_sub_eq_ok hr hsize).2.1] at hlinear
  have hrows : (a.linear.scale (-1)).nrows ≤ (ofBlock b : Affine α).linear.nrows := by
    rw [SparseMatrix.nrows_scale, nrows_linear, nrows_linear]
    exact hsize.ge
  have hlt : ∀ e ∈ (a.linear.scale (-1)).entries, e.col < n := fun e he => ha.neg.col_lt he
  have hcell : ∀ e ∈ (ofBlock b : Affine α).linear.entries, ∀ f ∈ (a.linear.scale (-1)).entries,
      e.row = f.row → e.col ≠ f.col := by
    intro e he f hf _
    exact ((hlt f hf).trans_le (hn.trans (first_le_of_mem_ofBlock he))).ne'
  refine ⟨hsense, ?_, 1, .inl rfl, fun e he => ?_⟩
  · rw [hlinear]
    exact (ofBlock b : Affine α).nrows_linear
  · rw [hlinear, SparseMatrix.mem_entries_add hrows hcell, mem_entries_ofBlock,
      or_iff_left fun hea => absurd (hlt e hea) (Nat.not_lt.mpr he)]
    exact and_iff_right Scalar.Units.isZero_one

end Affine

/-! ## Expansions -/

/-- An expansion with a row for each of its columns, which start at `next`, and each of these in one
record. -/
structure Expansion.Pivotal (n next : Nat) (e : Expansion α) : Prop where
  laid : Block.Laid next e.blocks
  pivots : List.Forall₂ (LinearConstraint.Pivots n) e.blocks e.rows
  records : e.records.flatten.Perm (e.blocks.flatMap Block.columns)

namespace Expansion

variable {n next : Nat} {e f : Expansion α}

theorem Pivotal.append (he : e.Pivotal n next) (hf : f.Pivotal n (next + e.width)) :
    (e.append f).Pivotal n next where
  laid := Block.laid_append.mpr ⟨he.laid, hf.laid⟩
  pivots := List.rel_append he.pivots hf.pivots
  records := by
    show (e.records ++ f.records).flatten.Perm ((e.blocks ++ f.blocks).flatMap Block.columns)
    rw [List.flatten_append, List.flatMap_append]
    exact he.records.append hf.records

theorem Pivotal.nodup_records (he : e.Pivotal n next) : e.records.flatten.Nodup := by
  rw [he.records.nodup_iff, he.laid.flatMap_columns]
  exact List.nodup_range'

end Expansion

/-- The records of single elements, member by member. -/
theorem ConvexConstraint.elementRecords_perm {a₁ a₂ a₃ : Block} (h₁ : a₁.size = a₂.size)
    (h₃ : a₃.size = a₂.size) : (elementRecords a₁ a₂ a₃).flatten.Perm
      (a₁.columns ++ (a₂.columns ++ a₃.columns)) := by
  have hcolumns : ∀ {b : Block}, b.size = a₂.size →
      b.columns = (List.range a₂.size).map (b.first + ·) := by
    intro b hb
    rw [Block.columns, hb, List.range'_eq_map_range]
  rw [hcolumns h₁, hcolumns h₃, hcolumns rfl, elementRecords]
  refine List.perm_iff_count.mpr fun j => ?_
  induction List.range a₂.size with
  | nil => rfl
  | cons i is ih =>
    simp only [List.map_cons, List.flatten_cons, List.count_append, List.count_cons,
      List.count_nil] at ih ⊢
    omega

namespace ConvexConstraint

variable [Scalar.Units α] {id : ModelId} {n next : Nat} {e : Expansion α}

/-- The copies of the input and the bound of a norm. -/
theorem pivotal_expandNorm {input output : Affine α} (hn : n ≤ next) (hin : input.Within id n)
    (hout : output.Within id n) (hsize : output.size = 1)
    (h : expandNorm id next input output = .ok e) : e.Pivotal n next := by
  obtain ⟨left, right, r₁, r₂, c₁, c₂, hl, hr, ⟨hr₁, hc₁⟩, ⟨hr₂, hc₂⟩, rfl⟩ :=
    of_expandNorm_eq_ok h
  have hfirst₁ : left.first = next := by rw [hl]; rfl
  have hfirst₂ : right.first = left.stop := by rw [hr]; rfl
  have hone : right.columns = [right.first] := by
    have hsize : right.size = 1 := by rw [hr]; exact hsize
    rw [Block.columns, hsize, List.range'_one]
  have hle : n ≤ right.first := by
    rw [hfirst₂, Block.stop]
    omega
  refine ⟨⟨hfirst₁, hfirst₂, trivial⟩, .cons ?_ (.cons ?_ .nil), ?_⟩
  · exact Affine.pivots_copy hin (hfirst₁ ▸ hn) (by rw [hl]; rfl) hr₁ hc₁
  · exact Affine.pivots_copy hout hle (by rw [hr]; rfl) hr₂ hc₂
  · simp only [List.flatMap_cons, List.flatMap_nil, List.append_nil, List.flatten_cons,
      List.flatten_nil, hone]
    exact (List.perm_append_singleton _ _).symm

/-- The columns of a squaring function, if its records have each of them once. -/
theorem pivotal_expandSquares {input output : Affine α}
    {records : Block → Block → Block → List (List Nat)} (hn : n ≤ next) (hin : input.Within id n)
    (hout : output.Within id n)
    (hrecords : ∀ a₁ a₂ a₃ : Block, a₁.size = output.size → a₂.size = input.size →
      a₃.size = output.size →
      (records a₁ a₂ a₃).flatten.Perm (a₁.columns ++ (a₂.columns ++ a₃.columns)))
    (h : expandSquares id next input output records = .ok e) : e.Pivotal n next := by
  obtain ⟨a₁, a₂, a₃, r₁, r₂, r₃, c₁, c₂, c₃, h₁, h₂, h₃, ⟨hr₁, hc₁⟩, ⟨hr₂, hc₂⟩, ⟨hr₃, hc₃⟩,
    rfl⟩ := of_expandSquares_eq_ok h
  have hfirst₁ : a₁.first = next := by rw [h₁]; rfl
  have hfirst₂ : a₂.first = a₁.stop := by rw [h₂]; rfl
  have hfirst₃ : a₃.first = a₂.stop := by rw [h₃]; rfl
  have hle₂ : n ≤ a₂.first := by
    rw [hfirst₂, Block.stop]
    omega
  have hle₃ : n ≤ a₃.first := by
    rw [hfirst₃, Block.stop]
    omega
  have hsum : ((output.offset 1).scale Scalar.half).Within id n := (hout.offset 1).scale _
  have hdifference : ((output.neg.offset 1).scale Scalar.half).Within id n :=
    (hout.neg.offset 1).scale _
  refine ⟨⟨hfirst₁, hfirst₂, hfirst₃, trivial⟩, .cons ?_ (.cons ?_ (.cons ?_ .nil)), ?_⟩
  · exact Affine.pivots_copied hsum (hfirst₁ ▸ hn) (by rw [h₁]; rfl) hr₁ hc₁
  · exact Affine.pivots_copied hin hle₂ (by rw [h₂]; rfl) hr₂ hc₂
  · exact Affine.pivots_copied hdifference hle₃ (by rw [h₃]; rfl) hr₃ hc₃
  · simp only [List.flatMap_cons, List.flatMap_nil, List.append_nil]
    exact hrecords a₁ a₂ a₃ (by rw [h₁]; rfl) (by rw [h₂]; rfl) (by rw [h₃]; rfl)

/-- **A function described by cones has a row for each of its columns**, and each of these in one
record. -/
theorem Scoped.pivotal_expandConic {c : ConvexConstraint ConicKind α} (hn : n ≤ next)
    (hc : c.Scoped ConicKind.elementwise id n) (h : c.expandConic id next = .ok e) :
    e.Pivotal n next := by
  obtain ⟨hin, hout, hsize⟩ := hc
  unfold expandConic at h
  cases hk : c.kind with
  | norm2 =>
    rw [hk] at hsize h
    exact pivotal_expandNorm hn hin hout hsize h
  | square =>
    rw [hk] at hsize h
    refine pivotal_expandSquares hn hin hout (fun a₁ a₂ a₃ hs₁ hs₂ hs₃ => ?_) h
    have houtput : c.output.size = c.input.size := hsize
    exact elementRecords_perm (by omega) (by omega)
  | sumSquares =>
    rw [hk] at hsize h
    refine pivotal_expandSquares hn hin hout (fun a₁ a₂ a₃ hs₁ hs₂ hs₃ => ?_) h
    have houtput : c.output.size = 1 := hsize
    have hcolumns : ∀ b : Block, b.size = c.output.size → b.columns = [b.first] := by
      intro b hb
      rw [Block.columns, hb, houtput, List.range'_one]
    simp only [jointRecord, List.flatten_cons, List.flatten_nil, List.append_nil, hcolumns a₁ hs₁,
      hcolumns a₃ hs₃, List.singleton_append]
    refine (List.Perm.swap _ _ _).trans (.cons _ ?_)
    exact (List.perm_append_singleton _ _).symm

end ConvexConstraint

/-- **Conic constraints have a row for each of their columns.** -/
theorem pivotal_expandAll [Scalar.Units α] {id : ModelId} {n next : Nat} (hn : n ≤ next)
    {cs : List (ConvexConstraint ConicKind α)} (hcs : ∀ c ∈ cs, c.Scoped ConicKind.elementwise id n)
    {e : Expansion α} (h : expandAll id next (cs.map .conic) = .ok e) : e.Pivotal n next := by
  -- on the constraints; the columns of each start where those of the one before end
  induction cs generalizing next e with
  | nil =>
    cases h
    exact ⟨trivial, .nil, .refl _⟩
  | cons c cs ih =>
    obtain ⟨hc, hcs⟩ := List.forall_mem_cons.mp hcs
    obtain ⟨f, g, hf, hg, rfl⟩ := of_expandAll_cons_eq_ok h
    exact (hc.pivotal_expandConic hn hf).append (ih (hn.trans (Nat.le_add_right _ _)) hcs hg)

/-! ## Stacked rows -/

section Stack

variable {n next : Nat} {bs : List Block} {cs : List (LinearConstraint α)}

/-- Behind the first `n` columns, the rows of blocks are over the columns of these only. -/
theorem le_col_of_pivots (hn : n ≤ next) (hlaid : Block.Laid next bs)
    (h : List.Forall₂ (LinearConstraint.Pivots n) bs cs) {e : Entry α}
    (he : e ∈ SparseMatrix.stackEntries 0 (cs.map (·.linear))) (hcol : n ≤ e.col) :
    next ≤ e.col := by
  induction h generalizing next e with
  | nil => cases he
  | @cons b c bs cs hpivots _ ih =>
    obtain ⟨rfl, hlaid⟩ := hlaid
    have hstop : b.first ≤ b.stop := Nat.le_add_right _ _
    rcases SparseMatrix.mem_stackEntries_cons.mp he with he | ⟨f, hf, rfl⟩
    · obtain ⟨x, -, hx⟩ := hpivots.exists_sign
      obtain ⟨i, -, rfl⟩ := (hx e hcol).mp he
      exact Nat.le_add_right _ _
    · exact hstop.trans (ih (hn.trans hstop) hlaid (e := f) hf hcol)

/-- **A column of blocks one after another has one coefficient in the stack of their rows**, at its
position. -/
theorem exists_sign_of_pivots (hn : n ≤ next) (hlaid : Block.Laid next bs)
    (h : List.Forall₂ (LinearConstraint.Pivots n) bs cs) {t : Nat} (ht : t < Block.totalSize bs) :
    ∃ x : α, Scalar.IsSign x ∧ ∀ i y, (⟨i, next + t, y⟩ : Entry α) ∈
      SparseMatrix.stackEntries 0 (cs.map (·.linear)) ↔ i = t ∧ y = x := by
  induction h generalizing next t with
  | nil => exact absurd ht (Nat.not_lt_zero t)
  | @cons b c bs cs hpivots hrest ih =>
    obtain ⟨rfl, hlaid⟩ := hlaid
    have hstop : b.stop = b.first + b.size := rfl
    have hn' : n ≤ b.stop := by omega
    obtain ⟨x, hsign, hx⟩ := hpivots.exists_sign
    have hentry : ∀ i y, (⟨i, b.first + t, y⟩ : Entry α) ∈ c.linear.entries ↔
        t < b.size ∧ i = t ∧ y = x := by
      intro i y
      rw [hx _ (hn.trans (Nat.le_add_right _ _))]
      constructor
      · rintro ⟨k, hk, he⟩
        obtain ⟨rfl, hcol, rfl⟩ := Entry.mk.inj he
        obtain rfl := Nat.add_left_cancel hcol
        exact ⟨hk, rfl, rfl⟩
      · rintro ⟨hlt, rfl, rfl⟩
        exact ⟨i, hlt, rfl⟩
    rcases Nat.lt_or_ge t b.size with hlt | hge
    · refine ⟨x, hsign, fun i y => ?_⟩
      rw [List.map_cons, SparseMatrix.mem_stackEntries_cons, hentry, and_iff_right hlt]
      refine or_iff_left ?_
      rintro ⟨f, hf, he⟩
      obtain ⟨-, hcol, -⟩ := Entry.mk.inj he
      have hle := le_col_of_pivots hn' hlaid hrest hf (by omega)
      omega
    · obtain ⟨k, rfl⟩ := Nat.exists_eq_add_of_le hge
      rw [Block.totalSize_cons] at ht
      obtain ⟨z, hsign', hz⟩ := ih hn' hlaid (t := k) (by omega)
      refine ⟨z, hsign', fun i y => ?_⟩
      rw [List.map_cons, SparseMatrix.mem_stackEntries_cons, hentry,
        or_iff_right fun h => absurd h.1 (Nat.not_lt.mpr hge)]
      constructor
      · rintro ⟨f, hf, he⟩
        obtain ⟨rfl, hcol, rfl⟩ := Entry.mk.inj he
        obtain ⟨row, col, value⟩ := f
        obtain rfl : b.stop + k = col := by
          dsimp only at hcol
          omega
        obtain ⟨rfl, rfl⟩ := (hz row value).mp hf
        exact ⟨by rw [hpivots.nrows], rfl⟩
      · rintro ⟨rfl, rfl⟩
        refine ⟨_, (hz k y).mpr ⟨rfl, rfl⟩, ?_⟩
        rw [hpivots.nrows, hstop, Nat.add_assoc]

theorem senses_of_pivots (h : List.Forall₂ (LinearConstraint.Pivots n) bs cs) :
    cs.flatMap (fun c => List.replicate c.length c.sense) =
      List.replicate (Block.totalSize bs) .eq := by
  induction h with
  | nil => rfl
  | cons hpivots _ ih =>
    rw [List.flatMap_cons, ih, hpivots.sense, LinearConstraint.length, hpivots.nrows,
      Block.totalSize_cons, List.replicate_append_replicate]

end Stack

/-! ## Canonical programs -/

/-- The column `j` stands for an expression that row `i` compares with it: no other row refers to
it, nor does the objective, and it is in one place of one record. -/
structure ConeProgram.Pivot (p : ConeProgram α) (i j : Nat) : Prop where
  sense : p.linear.senses[i]? = some .eq
  exists_sign : ∃ x : α, Scalar.IsSign x ∧ ∀ k y,
    (⟨k, j, y⟩ : Entry α) ∈ p.linear.linear.entries ↔ k = i ∧ y = x
  objective : p.linear.objective[j]? = some 0
  record : p.records.flatten.count j = 1

namespace ConeStore.Layout

variable {s : ConeStore α} (L : s.Layout)

/-- The row of a column that cones contribute. -/
def row (j : Nat) : Nat := L.rows.start + (j - L.next)

theorem row_next_add (t : Nat) : L.row (L.next + t) = L.rows.start + t := by
  rw [row, Nat.add_sub_cancel_left]

variable [Scalar.Units α] (hs : s.Valid)

include hs

/-- The expansion of cones has a row for each of its columns. -/
theorem pivotal_cones : L.cones.Pivotal s.linear.columnCount L.next :=
  pivotal_expandAll (Nat.le_add_right _ _) (L.scoped_pieces hs).2.1 L.cones_eq

theorem mem_columns_iff {j : Nat} :
    j ∈ L.cones.blocks.flatMap Block.columns ↔ ∃ t < L.cones.width, j = L.next + t := by
  rw [(L.pivotal_cones hs).laid.flatMap_columns, List.mem_range']
  simp only [Nat.one_mul]
  rfl

/-- The coefficients of a column that cones contribute. -/
theorem exists_sign_assembled {t : Nat} (ht : t < L.cones.width) :
    ∃ x : α, Scalar.IsSign x ∧ ∀ k y, (⟨k, L.next + t, y⟩ : Entry α) ∈
      (s.assembled L.expansion).linear.linear.entries ↔ k = L.rows.start + t ∧ y = x := by
  have hpivotal := L.pivotal_cones hs
  obtain ⟨x, hsign, hx⟩ :=
    exists_sign_of_pivots (Nat.le_add_right _ _) hpivotal.laid hpivotal.pivots ht
  obtain ⟨behind, -, hwidens, -, -⟩ := L.exists_behind hs
  have hbehind := LinearConstraint.forall₂_widens_linear hwidens.rows
  refine ⟨x, hsign, fun k y => ?_⟩
  show _ ∈ (SparseMatrix.stack _ _).entries ↔ _
  rw [SparseMatrix.mem_entries_stack (List.forall_mem_map.mpr (L.ncols_le_width hs)),
    map_linear_rows, SparseMatrix.mem_stackEntries_append]
  constructor
  · rintro (he | ⟨f, hf, he⟩)
    · have hcol := (SparseMatrix.stackEntries_inRange
        (List.forall_mem_map.mpr (L.ncols_le_next hs)) 0 _ he).2.2
      exact absurd hcol (Nat.not_lt.mpr (Nat.le_add_right _ _))
    · obtain ⟨rfl, hcol, rfl⟩ := Entry.mk.inj he
      rcases SparseMatrix.mem_stackEntries_append.mp hf with hf | ⟨g, hg, rfl⟩
      · obtain ⟨row, col, value⟩ := f
        obtain rfl : L.next + t = col := hcol
        obtain ⟨rfl, rfl⟩ := (hx row value).mp hf
        exact ⟨rfl, rfl⟩
      · have hout := SparseMatrix.Widens.outside_of_mem_stackEntries hbehind hg
        dsimp only at hcol
        rw [← hcol] at hout
        unfold Gap.Outside Gap.stop columns at hout
        dsimp only at hout
        omega
  · rintro ⟨rfl, rfl⟩
    exact .inr ⟨_, SparseMatrix.mem_stackEntries_append.mpr (.inl ((hx t y).mpr ⟨rfl, rfl⟩)), rfl⟩

/-- The row of a column that cones contribute is an equality. -/
theorem getElem?_senses_assembled {t : Nat} (ht : t < L.cones.width) :
    (s.assembled L.expansion).linear.senses[L.rows.start + t]? = some .eq := by
  have hfront : ((s.linear.rows ++ L.before.rows).flatMap fun c =>
      List.replicate c.length c.sense).length = L.rows.start :=
    LinearConstraint.length_flatMap_sense _
  show ((s.linear.rows ++ L.expansion.rows).flatMap _)[_]? = _
  rw [rows_expansion, List.flatMap_append,
    List.getElem?_append_right (hfront.trans_le (Nat.le_add_right _ _)), hfront,
    Nat.add_sub_cancel_left, List.flatMap_append, senses_of_pivots (L.pivotal_cones hs).pivots,
    List.getElem?_append_left (by rwa [List.length_replicate]), List.getElem?_replicate]
  exact if_pos ht

/-- **Each column that cones contribute stands for its row.** -/
theorem pivot {j : Nat} (hj : j ∈ L.cones.blocks.flatMap Block.columns) :
    (s.assembled L.expansion).Pivot (L.row j) j := by
  have hpivotal := L.pivotal_cones hs
  have hcount : L.cones.records.flatten.count j = 1 := by
    rw [List.count_eq_one_of_mem hpivotal.nodup_records (hpivotal.records.mem_iff.mpr hj)]
  obtain ⟨t, ht, rfl⟩ := (L.mem_columns_iff hs).mp hj
  have hle : s.linear.columnCount ≤ L.next := Nat.le_add_right _ _
  rw [row_next_add]
  refine ⟨L.getElem?_senses_assembled hs ht, L.exists_sign_assembled hs ht, ?_, ?_⟩
  · have hpos := s.linear.columnCount_pos
    have hlt : L.next + t < s.linear.columnCount + L.expansion.width := by
      rw [L.width_expansion]
      omega
    have hne : ¬(L.next + t = 0 ∧ s.linear.objective.isSome) := by omega
    show ((List.range (s.linear.columnCount + L.expansion.width)).map _)[L.next + t]? = _
    rw [List.getElem?_map, List.getElem?_range hlt, Option.map_some, if_neg hne]
  · have hnone : (s.cones.map (·.record)).flatten.count (L.next + t) = 0 := by
      refine List.count_eq_zero.mpr fun hmem => ?_
      obtain ⟨r, hr, hmem⟩ := List.mem_flatten.mp hmem
      obtain ⟨c, hc, rfl⟩ := List.mem_map.mp hr
      have := hs.cones c hc _ hmem
      omega
    show (L.expansion.records ++ s.cones.map (·.record)).flatten.count _ = 1
    rw [L.records_expansion, List.flatten_append, List.count_append, hcount, hnone]

end ConeStore.Layout

end ConicForm
