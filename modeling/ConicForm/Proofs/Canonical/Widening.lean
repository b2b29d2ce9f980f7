import ConicForm.Proofs.Affine.Entries
import ConicForm.Proofs.Canonical.Layout
import ConicForm.Proofs.Matrix.Gap

/-!
# Programs without their cones

What is expanded behind the cones of a program has the same rows without them, over auxiliary
columns that stand further in front. So the program of the other expansions alone is the whole
program without the rows and the columns that the cones contribute.

## Main definitions

* `LinearProgram.cut`: a program without the rows and columns of two gaps
* `LinearConstraint.Widens`, `Expansion.Widens`: rows and expansions that differ in a gap
* `ConeStore.Layout.rows`, `ConeStore.Layout.columns`: what cones contribute

## Main results

* `widens_expandAll`: piecewise-linear constraints with a gap in front of their auxiliary columns
* `ConeStore.Layout.cut_assembled`: the program without what cones contribute
-/

namespace ConicForm

variable {α : Type} [Scalar α]

/-- A program without the rows and columns of two gaps. -/
def LinearProgram.cut (p : LinearProgram α) (rows cols : Gap) : LinearProgram α where
  linear := p.linear.cut rows cols
  constants := rows.cut p.constants
  senses := rows.cut p.senses
  types := cols.cut p.types
  upper := cols.cut p.upper
  lower := cols.cut p.lower
  objective := cols.cut p.objective

/-! ## Expressions over a moved block -/

/-- Expressions with the same elements, where the columns of the second one are moved behind a
gap. -/
structure Affine.Widens (g : Gap) (a a' : Affine α) : Prop where
  linear : a.linear.Widens g a'.linear
  shape : a'.shape = a.shape
  constant : a'.constant = a.constant

/-- Rows with the same right-hand sides and senses, where the columns of the second ones are moved
behind a gap. -/
structure LinearConstraint.Widens (g : Gap) (c c' : LinearConstraint α) : Prop where
  linear : c.linear.Widens g c'.linear
  constant : c'.constant = c.constant
  sense : c'.sense = c.sense

theorem LinearConstraint.widens_of_ncols_le {g : Gap} {c : LinearConstraint α}
    (h : c.linear.ncols ≤ g.start) : c.Widens g c :=
  ⟨SparseMatrix.widens_of_ncols_le h, rfl, rfl⟩

/-- The coefficients of rows, block by block. -/
theorem LinearConstraint.forall₂_widens_linear {g : Gap} {cs cs' : List (LinearConstraint α)}
    (h : List.Forall₂ (Widens g) cs cs') :
    List.Forall₂ (SparseMatrix.Widens g) (cs.map (·.linear)) (cs'.map (·.linear)) := by
  rw [List.forall₂_map_left_iff, List.forall₂_map_right_iff]
  exact h.imp fun _ _ h => h.linear

namespace Affine

variable {g : Gap} {a b r a' b' r' : Affine α}

theorem widens_of_within {id : ModelId} (h : a.Within id g.start) : a.Widens g a :=
  ⟨SparseMatrix.widens_of_ncols_le h.ncols, rfl, rfl⟩

/-- Sums of expressions whose elements are over different columns. -/
theorem Widens.sum (h : a.Widens g a')
    (hrows : ∀ e ∈ a.linear.entries, ∀ f ∈ a.linear.entries, e.col = f.col → e.row = f.row)
    (hrows' : ∀ e ∈ a'.linear.entries, ∀ f ∈ a'.linear.entries, e.col = f.col → e.row = f.row) :
    a.sum.Widens g a'.sum where
  linear := h.linear.sumRows hrows hrows'
  shape := rfl
  constant := by
    show [Scalar.sum a'.constant] = [Scalar.sum a.constant]
    rw [h.constant]

/-- Differences of expressions of one size over different columns. -/
theorem Widens.sub (ha : a.Widens g a') (hb : b.Widens g b') (h : a.sub b = .ok r)
    (h' : a'.sub b' = .ok r') (hsize : a.size = b.size)
    (hcols : ∀ e ∈ a.linear.entries, ∀ f ∈ b.linear.entries, e.col ≠ f.col)
    (hcols' : ∀ e ∈ a'.linear.entries, ∀ f ∈ b'.linear.entries, e.col ≠ f.col) :
    r.Widens g r' := by
  have hsize' : a'.size = b'.size := by
    unfold Affine.size at hsize ⊢
    rw [ha.shape, hb.shape, hsize]
  obtain ⟨hshape, hlinear, hconstant⟩ := of_sub_eq_ok h hsize
  obtain ⟨hshape', hlinear', hconstant'⟩ := of_sub_eq_ok h' hsize'
  constructor
  · rw [hlinear, hlinear']
    refine ha.linear.add (hb.linear.scale (-1)) ?_ ?_ ?_
    · rw [SparseMatrix.nrows_scale, nrows_linear, nrows_linear]
      exact hsize.ge
    · intro e he f hf
      obtain ⟨k, hk, rfl, -⟩ := SparseMatrix.mem_entries_scale.mp hf
      exact hcols e he k hk
    · intro e he f hf
      obtain ⟨k, hk, rfl, -⟩ := SparseMatrix.mem_entries_scale.mp hf
      exact hcols' e he k hk
  · rw [ha.shape, hb.shape, hshape] at hshape'
    exact (Option.some.inj hshape').symm
  · rw [hconstant, hconstant', ha.constant, hb.constant]

theorem Widens.le_zero {c c' : LinearConstraint α} (ha : a.Widens g a')
    (h : a.le (.number 0) = .ok c) (h' : a'.le (.number 0) = .ok c') : c.Widens g c' := by
  obtain ⟨hlinear, hsense, hconstant⟩ := of_le_zero_eq_ok h
  obtain ⟨hlinear', hsense', hconstant'⟩ := of_le_zero_eq_ok h'
  constructor
  · rw [hlinear, hlinear']
    exact ha.linear
  · rw [hconstant, hconstant', ha.constant]
  · rw [hsense, hsense']

theorem Widens.eq_zero {c c' : LinearConstraint α} (ha : a.Widens g a')
    (h : a.eq (.number 0) = .ok c) (h' : a'.eq (.number 0) = .ok c') : c.Widens g c' := by
  obtain ⟨hlinear, hsense, hconstant⟩ := of_eq_zero_eq_ok h
  obtain ⟨hlinear', hsense', hconstant'⟩ := of_eq_zero_eq_ok h'
  constructor
  · rw [hlinear, hlinear']
    exact ha.linear
  · rw [hconstant, hconstant', ha.constant]
  · rw [hsense, hsense']

end Affine

/-! ## Blocks behind a gap -/

/-- A block behind a gap, and the same block moved by the length of the gap. -/
structure Block.Widens (g : Gap) (b b' : Block) : Prop where
  owner : b'.owner = b.owner
  shape : b'.shape = b.shape
  first : b'.first = b.first + g.length
  start_le : g.start ≤ b.first

namespace Block

variable {g : Gap} {b b' : Block}

theorem widens_auxiliary {next : Nat} (hle : g.start ≤ next) (id : ModelId) (s : Shape) :
    (auxiliary id next s).Widens g (auxiliary id (next + g.length) s) := ⟨rfl, rfl, rfl, hle⟩

namespace Widens

variable (h : b.Widens g b')

include h

theorem size : b'.size = b.size := congrArg Shape.size h.shape

theorem start_le_first : g.start ≤ b'.first :=
  h.start_le.trans ((Nat.le_add_right _ _).trans_eq h.first.symm)

/-- A block behind both. -/
theorem auxiliary_stop (id : ModelId) (s : Shape) :
    (auxiliary id b.stop s).Widens g (auxiliary id b'.stop s) where
  owner := rfl
  shape := rfl
  first := by
    show b'.first + b'.size = b.first + b.size + g.length
    rw [h.first, h.size, Nat.add_right_comm]
  start_le := h.start_le.trans (Nat.le_add_right _ _)

/-- Its columns have moved as one. -/
theorem widen_first_add (i : Nat) : g.widen (b.first + i) = b'.first + i := by
  rw [Gap.widen_of_le (h.start_le.trans (Nat.le_add_right _ _)), h.first, Nat.add_right_comm]

theorem widen_first : g.widen b.first = b'.first := h.widen_first_add 0

theorem columns_eq : b'.columns = b.columns.map g.widen := by
  refine List.ext_getElem (by simp [h.size]) fun i _ _ => ?_
  simp [columns, h.widen_first_add]

end Widens

end Block

namespace Affine

variable {g : Gap} {b b' : Block}

/-- A block and the same block moved behind a gap. -/
theorem widens_ofBlock (h : b.Widens g b') : (ofBlock b : Affine α).Widens g (ofBlock b') where
  linear := {
    nrows := by
      show b'.columns.length = b.columns.length
      rw [Block.length_columns, Block.length_columns, h.size]
    mem_iff := by
      intro e
      rw [mem_entries_ofBlock, mem_entries_ofBlock]
      refine and_congr_right fun _ => ?_
      constructor
      · rintro ⟨i, hi, rfl⟩
        refine ⟨i, hi.trans_eq h.size.symm, ?_⟩
        rw [h.widen_first_add]
      · rintro ⟨i, hi, he⟩
        obtain ⟨row, col, value⟩ := e
        obtain ⟨rfl, hcol, rfl⟩ := Entry.mk.inj he
        refine ⟨_, hi.trans_eq h.size, ?_⟩
        have hcol' := congrArg g.close hcol
        rw [← h.widen_first_add, Gap.close_widen, Gap.close_widen] at hcol'
        exact congrArg (Entry.mk row · 1) hcol'
    outside := by
      intro e he
      have hlo : b'.first ≤ e.col := first_le_of_mem_ofBlock he
      rw [h.first] at hlo
      exact .inr ((Nat.add_le_add_right h.start_le _).trans hlo) }
  shape := h.shape
  constant := by
    show List.replicate b'.columns.length 0 = List.replicate b.columns.length 0
    rw [Block.length_columns, Block.length_columns, h.size]

section Front

variable {a r r' : Affine α} {id : ModelId} (ha : a.Within id g.start) (hb : b.Widens g b')

include ha hb

/-- An expression in front of a gap has no column of a block behind it, moved or not. -/
theorem Within.col_ne_of_widens :
    (∀ e ∈ a.linear.entries, ∀ f ∈ (ofBlock b : Affine α).linear.entries, e.col ≠ f.col) ∧
      ∀ e ∈ a.linear.entries, ∀ f ∈ (ofBlock b' : Affine α).linear.entries, e.col ≠ f.col := by
  have hfront : ∀ k : Block, g.start ≤ k.first → ∀ e ∈ a.linear.entries,
      ∀ f ∈ (ofBlock k : Affine α).linear.entries, e.col ≠ f.col := by
    intro k hk e he f hf
    exact ((ha.col_lt he).trans_le (hk.trans (first_le_of_mem_ofBlock hf))).ne
  exact ⟨hfront b hb.start_le, hfront b' hb.start_le_first⟩

theorem Within.widens_sub_ofBlock (hsize : a.size = b.size) (h : a.sub (ofBlock b) = .ok r)
    (h' : a.sub (ofBlock b') = .ok r') : r.Widens g r' := by
  obtain ⟨hcols, hcols'⟩ := ha.col_ne_of_widens hb
  exact (widens_of_within ha).sub (widens_ofBlock hb) h h' hsize hcols hcols'

theorem Within.widens_ofBlock_sub (hsize : b.size = a.size) (h : (ofBlock b).sub a = .ok r)
    (h' : (ofBlock b').sub a = .ok r') : r.Widens g r' := by
  obtain ⟨hcols, hcols'⟩ := ha.col_ne_of_widens hb
  exact (widens_ofBlock hb).sub (widens_of_within ha) h h' hsize
    (fun e he f hf => (hcols f hf e he).symm) fun e he f hf => (hcols' f hf e he).symm

theorem Within.widens_sum_ofBlock_sub (hsize : a.size = 1) (h : (ofBlock b).sum.sub a = .ok r)
    (h' : (ofBlock b').sum.sub a = .ok r') : r.Widens g r' := by
  have hrow : ∀ k : Block, ∀ e ∈ (ofBlock k : Affine α).linear.entries,
      ∀ f ∈ (ofBlock k : Affine α).linear.entries, e.col = f.col → e.row = f.row :=
    fun k _ he _ hf => row_eq_of_mem_ofBlock he hf
  have hsum : ∀ k : Block,
      (∀ e ∈ a.linear.entries, ∀ f ∈ (ofBlock k : Affine α).linear.entries, e.col ≠ f.col) →
      ∀ e ∈ (ofBlock k : Affine α).sum.linear.entries, ∀ f ∈ a.linear.entries, e.col ≠ f.col := by
    intro k hne e he f hf
    obtain ⟨d, hd, rfl⟩ := (SparseMatrix.mem_entries_sumRows (hrow k)).mp he
    exact (hne f hf d hd).symm
  obtain ⟨hcols, hcols'⟩ := ha.col_ne_of_widens hb
  exact ((widens_ofBlock hb).sum (hrow b) (hrow b')).sub (widens_of_within ha) h h' hsize.symm
    (hsum b hcols) (hsum b' hcols')

end Front

end Affine

/-! ## Expansions behind a gap -/

/-- Expansions with the same rows over auxiliary columns of the same types, those of the second one
moved behind a gap. -/
structure Expansion.Widens (g : Gap) (e e' : Expansion α) : Prop where
  types : Block.types e'.blocks = Block.types e.blocks
  rows : List.Forall₂ (LinearConstraint.Widens g) e.rows e'.rows

namespace Expansion.Widens

variable {g : Gap} {e e' f f' : Expansion α}

theorem width (h : e.Widens g e') : e'.width = e.width := by
  unfold Expansion.width
  rw [← Block.length_types, ← Block.length_types, h.types]

theorem append (he : e.Widens g e') (hf : f.Widens g f') :
    (e.append f).Widens g (e'.append f') where
  types := by
    show Block.types (e'.blocks ++ f'.blocks) = Block.types (e.blocks ++ f.blocks)
    rw [Block.types_append, Block.types_append, he.types, hf.types]
  rows := List.rel_append he.rows hf.rows

end Expansion.Widens

namespace ConvexConstraint

variable {id : ModelId} {g : Gap} {next : Nat} {c : ConvexConstraint PiecewiseKind α}
  {e e' : Expansion α}

/-- Functions of elements are expanded without auxiliary columns. -/
theorem expandPiecewise_congr (hk : c.kind ≠ .norm1) (next' : Nat) :
    c.expandPiecewise id next' = c.expandPiecewise id next := by
  unfold expandPiecewise
  cases hkind : c.kind with
  | abs => rfl
  | normInf => rfl
  | norm1 => exact absurd hkind hk

theorem blocks_expandPiecewise (hk : c.kind ≠ .norm1) (h : c.expandPiecewise id next = .ok e) :
    e.blocks = [] := by
  unfold expandPiecewise at h
  split at h
  · obtain ⟨_, -, h⟩ := exists_of_bind_eq_ok h
    obtain ⟨_, -, h⟩ := exists_of_bind_eq_ok h
    obtain ⟨_, -, h⟩ := exists_of_bind_eq_ok h
    obtain ⟨_, -, h⟩ := exists_of_bind_eq_ok h
    cases h
    rfl
  · obtain ⟨_, -, h⟩ := exists_of_bind_eq_ok h
    obtain ⟨_, -, h⟩ := exists_of_bind_eq_ok h
    obtain ⟨_, -, h⟩ := exists_of_bind_eq_ok h
    obtain ⟨_, -, h⟩ := exists_of_bind_eq_ok h
    cases h
    rfl
  · next hnorm => exact absurd hnorm hk

/-- The rows of a sum of absolute values, with its auxiliary columns moved behind a gap. -/
theorem widens_expandNorm1 (hc : c.Scoped PiecewiseKind.elementwise id g.start)
    (hk : c.kind = .norm1) (hle : g.start ≤ next) (h : c.expandPiecewise id next = .ok e)
    (h' : c.expandPiecewise id (next + g.length) = .ok e') : e.Widens g e' := by
  obtain ⟨hin, hout, hsize⟩ := hc
  simp only [expandPiecewise, hk] at h h' hsize
  obtain ⟨r₁, hr₁, h⟩ := exists_of_bind_eq_ok h
  obtain ⟨above, ha, h⟩ := exists_of_bind_eq_ok h
  obtain ⟨r₂, hr₂, h⟩ := exists_of_bind_eq_ok h
  obtain ⟨below, hb, h⟩ := exists_of_bind_eq_ok h
  obtain ⟨r₃, hr₃, h⟩ := exists_of_bind_eq_ok h
  obtain ⟨total, ht, h⟩ := exists_of_bind_eq_ok h
  cases h
  obtain ⟨r₁', hr₁', h'⟩ := exists_of_bind_eq_ok h'
  obtain ⟨above', ha', h'⟩ := exists_of_bind_eq_ok h'
  obtain ⟨r₂', hr₂', h'⟩ := exists_of_bind_eq_ok h'
  obtain ⟨below', hb', h'⟩ := exists_of_bind_eq_ok h'
  obtain ⟨r₃', hr₃', h'⟩ := exists_of_bind_eq_ok h'
  obtain ⟨total', ht', h'⟩ := exists_of_bind_eq_ok h'
  cases h'
  have hu := Block.widens_auxiliary hle id c.input.shape
  have h₁ := hin.widens_sub_ofBlock hu rfl hr₁ hr₁'
  have h₂ := hin.neg.widens_sub_ofBlock hu rfl hr₂ hr₂'
  have h₃ := hout.widens_sum_ofBlock_sub hu hsize hr₃ hr₃'
  refine ⟨rfl, .cons ?_ (.cons ?_ (.cons ?_ .nil))⟩
  · exact h₁.le_zero ha ha'
  · exact h₂.le_zero hb hb'
  · exact h₃.le_zero ht ht'

/-- **A function described by linear rows has the same rows behind a gap.** -/
theorem widens_expandPiecewise (hc : c.Scoped PiecewiseKind.elementwise id g.start)
    (hle : g.start ≤ next) (h : c.expandPiecewise id next = .ok e)
    (h' : c.expandPiecewise id (next + g.length) = .ok e') : e.Widens g e' := by
  by_cases hk : c.kind = .norm1
  · exact widens_expandNorm1 hc hk hle h h'
  · rw [expandPiecewise_congr hk, h] at h'
    obtain rfl := Except.ok.inj h'
    obtain ⟨f, hf, hscoped⟩ := ConvexConstraint.Scoped.exists_expandPiecewise hc
    rw [expandPiecewise_congr hk, h] at hf
    obtain rfl := Except.ok.inj hf
    refine ⟨rfl, List.forall₂_same.mpr fun d hd => LinearConstraint.widens_of_ncols_le ?_⟩
    have hwidth : e.width = 0 := congrArg Block.totalSize (blocks_expandPiecewise hk h)
    simpa [hwidth] using hscoped.rows d hd

end ConvexConstraint

/-- **Piecewise-linear constraints have the same rows behind a gap.** -/
theorem widens_expandAll {id : ModelId} {g : Gap} {next : Nat}
    {cs : List (ConvexConstraint PiecewiseKind α)} {e e' : Expansion α}
    (hcs : ∀ c ∈ cs, c.Scoped PiecewiseKind.elementwise id g.start) (hle : g.start ≤ next)
    (h : expandAll id next (cs.map .piecewise) = .ok e)
    (h' : expandAll id (next + g.length) (cs.map .piecewise) = .ok e') : e.Widens g e' := by
  induction cs generalizing next e e' with
  | nil =>
    cases h
    cases h'
    exact ⟨rfl, .nil⟩
  | cons c cs ih =>
    obtain ⟨hc, hcs⟩ := List.forall_mem_cons.mp hcs
    obtain ⟨f, k, hf, hk, rfl⟩ := of_expandAll_cons_eq_ok h
    obtain ⟨f', k', hf', hk', rfl⟩ := of_expandAll_cons_eq_ok h'
    have hfirst : f.Widens g f' := ConvexConstraint.widens_expandPiecewise hc hle hf hf'
    rw [hfirst.width, Nat.add_right_comm] at hk'
    exact hfirst.append (ih hcs (hle.trans (Nat.le_add_right _ _)) hk hk')

/-! ## Bounds of cones -/

namespace ConvexConstraint

variable {id : ModelId} {next : Nat} {e : Expansion α}

/-- The bounds of squares are zeros from below on auxiliary columns. -/
theorem bounds_expandSquares {input output : Affine α}
    {records : Block → Block → Block → List (List Nat)}
    (h : expandSquares id next input output records = .ok e) :
    ∀ b ∈ e.bounds, b.side = .lower ∧
      ∀ q ∈ b.items, (next ≤ q.1 ∧ q.1 < next + e.width) ∧ q.2 = .value 0 := by
  obtain ⟨a₁, a₂, a₃, _, _, _, _, _, _, rfl, rfl, rfl, -, -, -, rfl⟩ := of_expandSquares_eq_ok h
  refine List.forall_mem_singleton.mpr ⟨rfl, fun q hq => ?_⟩
  obtain ⟨j, hj, rfl⟩ := List.mem_map.mp hq
  obtain ⟨hlo, hhi⟩ := Block.mem_columns.mp hj
  refine ⟨?_, rfl⟩
  simp only [Expansion.width, Block.totalSize_cons, Block.totalSize_nil]
  simp only [Block.auxiliary, Block.stop, Block.size] at hlo hhi ⊢
  omega

theorem bounds_expandConic {c : ConvexConstraint ConicKind α}
    (h : c.expandConic id next = .ok e) : ∀ b ∈ e.bounds, b.side = .lower ∧
      ∀ q ∈ b.items, (next ≤ q.1 ∧ q.1 < next + e.width) ∧ q.2 = .value 0 := by
  unfold expandConic at h
  split at h
  · obtain ⟨left, right, _, _, _, _, -, -, -, -, rfl⟩ := of_expandNorm_eq_ok h
    simp
  · exact bounds_expandSquares h
  · exact bounds_expandSquares h

end ConvexConstraint

/-- **Conic constraints bound auxiliary columns of their own**, by zero from below. -/
theorem bounds_expandAll_conic {id : ModelId} {next : Nat}
    {cs : List (ConvexConstraint ConicKind α)} {e : Expansion α}
    (h : expandAll id next (cs.map .conic) = .ok e) : ∀ b ∈ e.bounds, b.side = .lower ∧
      ∀ q ∈ b.items, (next ≤ q.1 ∧ q.1 < next + e.width) ∧ q.2 = .value 0 := by
  induction cs generalizing next e with
  | nil =>
    cases h
    simp
  | cons c cs ih =>
    obtain ⟨f, k, hf, hk, rfl⟩ := of_expandAll_cons_eq_ok h
    rw [Expansion.width_append]
    refine List.forall_mem_append.mpr ⟨fun b hb => ?_, fun b hb => ?_⟩
    · obtain ⟨hside, hitems⟩ := ConvexConstraint.bounds_expandConic hf b hb
      refine ⟨hside, fun q hq => ?_⟩
      obtain ⟨⟨hlo, hhi⟩, hzero⟩ := hitems q hq
      exact ⟨⟨hlo, by omega⟩, hzero⟩
    · obtain ⟨hside, hitems⟩ := ih hk b hb
      refine ⟨hside, fun q hq => ?_⟩
      obtain ⟨⟨hlo, hhi⟩, hzero⟩ := hitems q hq
      exact ⟨⟨by omega, by omega⟩, hzero⟩

/-! ## The program without its cones -/

namespace Store

section ApplyBounds

omit [Scalar α]

variable {g : Gap} {side : Side} {bs cs : List (Bounds α)} {xs : List (Bound α)}

/-- Bounds are set item by item. -/
theorem applyBounds_eq_foldl (side : Side) (bs : List (Bounds α)) (xs : List (Bound α)) :
    applyBounds side bs xs =
    ((bs.filter (·.side = side)).flatMap (·.items)).foldl (fun xs (k, x) => xs.set k x) xs := by
  rw [List.foldl_flatMap]
  rfl

theorem applyBounds_append : applyBounds side (bs ++ cs) xs =
    applyBounds side cs (applyBounds side bs xs) := by
  unfold applyBounds
  rw [List.filter_append, List.foldl_append]

theorem forall_items_of_side {P : Nat → Prop} (h : ∀ b ∈ bs, ∀ q ∈ b.items, P q.1) :
    ∀ q ∈ (bs.filter (·.side = side)).flatMap (·.items), P q.1 := by
  intro q hq
  obtain ⟨b, hb, hqb⟩ := List.mem_flatMap.mp hq
  exact h b (List.mem_filter.mp hb).1 q hqb

/-- Bounds on columns in a gap do not remain, and those on columns in front of it do. -/
theorem cut_applyBounds (hg : g.start ≤ xs.length)
    (hbs : ∀ b ∈ bs, ∀ q ∈ b.items, q.1 < g.start)
    (hcs : ∀ b ∈ cs, ∀ q ∈ b.items, ¬g.Outside q.1) :
    g.cut (applyBounds side (bs ++ cs) xs) = applyBounds side bs (g.cut xs) := by
  have hlen : g.start ≤ (applyBounds side bs xs).length := by rwa [length_applyBounds]
  rw [applyBounds_append, applyBounds_eq_foldl side cs,
    Gap.cut_foldl_set_of_not_outside hlen (forall_items_of_side (P := (¬g.Outside ·)) hcs),
    applyBounds_eq_foldl,
    Gap.cut_foldl_set_of_lt hg (forall_items_of_side (P := (· < g.start)) hbs),
    applyBounds_eq_foldl]

end ApplyBounds

end Store

theorem flatMap_eq_of_forall₂ {ι τ : Type} {f : ι → List τ} {cs ds : List ι}
    (h : List.Forall₂ (fun c d => f c = f d) cs ds) : cs.flatMap f = ds.flatMap f := by
  induction h with
  | nil => rfl
  | cons hc _ ih => rw [List.flatMap_cons, List.flatMap_cons, hc, ih]

namespace ConeStore.Layout

variable {s : ConeStore α}

/-- The rows that cones contribute to the canonical program. -/
def rows (L : s.Layout) : Gap where
  start := SparseMatrix.totalRows ((s.linear.rows ++ L.before.rows).map (·.linear))
  length := SparseMatrix.totalRows (L.cones.rows.map (·.linear))

/-- The columns that cones contribute to the canonical program. -/
def columns (L : s.Layout) : Gap := ⟨L.next, L.cones.width⟩

variable (L : s.Layout) (hs : s.Valid) {behind : Expansion α}

/-- The parts of the rows of the program. -/
theorem rows_expansion : s.linear.rows ++ L.expansion.rows =
    (s.linear.rows ++ L.before.rows) ++ (L.cones.rows ++ L.behind.rows) := by
  simp [expansion, Expansion.append]

theorem map_linear_rows : (s.linear.rows ++ L.expansion.rows).map (·.linear) =
    (s.linear.rows ++ L.before.rows).map (·.linear) ++
      (L.cones.rows.map (·.linear) ++ L.behind.rows.map (·.linear)) := by
  rw [rows_expansion, List.map_append, List.map_append, List.map_append]

theorem width_expansion : s.linear.columnCount + L.expansion.width =
    L.next + L.cones.width + L.behind.width := by
  simp only [expansion, Expansion.width_append, next]
  omega

/-- A list that the rows of the program have one after another, without those of cones. -/
theorem cut_flatMap_rows {τ : Type} (f : LinearConstraint α → List τ)
    (hf : ∀ cs : List (LinearConstraint α),
      (cs.flatMap f).length = SparseMatrix.totalRows (cs.map (·.linear)))
    (hwidens : List.Forall₂ (fun c c' => f c = f c') behind.rows L.behind.rows) :
    L.rows.cut ((s.linear.rows ++ L.expansion.rows).flatMap f) =
      (s.linear.rows ++ (L.before.append behind).rows).flatMap f := by
  have hparts : (s.linear.rows ++ L.expansion.rows).flatMap f =
      (s.linear.rows ++ L.before.rows).flatMap f ++
        (L.cones.rows.flatMap f ++ L.behind.rows.flatMap f) := by
    rw [rows_expansion, List.flatMap_append, List.flatMap_append, List.flatMap_append]
  rw [hparts, Gap.cut_append (hf _) (hf _), ← flatMap_eq_of_forall₂ hwidens,
    ← List.flatMap_append]
  simp [Expansion.append]

/-- The types of the columns, without those of cones. -/
theorem cut_types (hwidens : behind.Widens L.columns L.behind) :
    L.columns.cut (Block.types (s.linear.blocks ++ L.expansion.blocks)) =
      Block.types (s.linear.blocks ++ (L.before.append behind).blocks) := by
  have hparts : Block.types (s.linear.blocks ++ L.expansion.blocks) =
      Block.types (s.linear.blocks ++ L.before.blocks) ++
        (Block.types L.cones.blocks ++ Block.types L.behind.blocks) := by
    simp [expansion, Expansion.append]
  have hbefore : (Block.types (s.linear.blocks ++ L.before.blocks)).length = L.columns.start := by
    rw [Block.length_types, Block.totalSize_append]
    rfl
  rw [hparts, Gap.cut_append hbefore (Block.length_types _), hwidens.types, ← Block.types_append]
  simp [Expansion.append]

include hs

/-- What the piecewise-linear constraints contribute without cones in front of them. -/
theorem exists_behind : ∃ behind, expandAll s.linear.id L.next (s.linear.piecewise.map .piecewise) =
    .ok behind ∧ behind.Widens L.columns L.behind ∧ behind.Scoped L.next ∧ behind.Plain := by
  have hnext : s.linear.columnCount ≤ L.next := Nat.le_add_right _ _
  have hpiecewise := (L.scoped_pieces hs).2.2
  have hpieces : ∀ p ∈ s.linear.piecewise.map Piece.piecewise,
      p.Scoped s.linear.id s.linear.columnCount := List.forall_mem_map.mpr hpiecewise
  obtain ⟨behind, hbehind, hscoped⟩ := exists_expandAll_scoped hnext hpieces
  refine ⟨behind, hbehind, ?_, hscoped, plain_expandAll (fun p hp c hc => ?_) hbehind⟩
  · exact widens_expandAll (g := L.columns) (fun c hc => (hpiecewise c hc).mono hnext) le_rfl
      hbehind L.behind_eq
  · obtain ⟨d, -, hd⟩ := List.mem_map.mp hp
    cases hd.trans hc

/-- The rows in front of those of cones are over the columns in front of theirs. -/
theorem ncols_le_next : ∀ c ∈ s.linear.rows ++ L.before.rows, c.linear.ncols ≤ L.next := by
  refine List.forall_mem_append.mpr ⟨fun c hc => ?_, (L.scoped_before hs).rows⟩
  exact (hs.linear.rows c hc).trans (Nat.le_add_right _ _)

theorem ncols_le_width : ∀ c ∈ s.linear.rows ++ L.expansion.rows,
    c.linear.ncols ≤ s.linear.columnCount + L.expansion.width := by
  refine List.forall_mem_append.mpr ⟨fun c hc => ?_, (L.scoped_expansion hs).rows⟩
  exact (hs.linear.rows c hc).trans (Nat.le_add_right _ _)

/-- The bounds of the columns on one side, without those of cones. -/
theorem cut_bounds (side : Side) (f : VariableType → Bound α)
    (hwidens : behind.Widens L.columns L.behind) (hbehind : behind.Plain) :
    L.columns.cut (Store.applyBounds side (s.linear.bounds ++ L.expansion.bounds)
        ((Block.types (s.linear.blocks ++ L.expansion.blocks)).map f)) =
      Store.applyBounds side (s.linear.bounds ++ (L.before.append behind).bounds)
        ((Block.types (s.linear.blocks ++ (L.before.append behind).blocks)).map f) := by
  have hnone : (L.before.append behind).bounds = [] := by
    simp [Expansion.append, L.plain_before.bounds, hbehind.bounds]
  have hdeclared : ∀ b ∈ s.linear.bounds, ∀ q ∈ b.items, q.1 < L.columns.start := by
    intro b hb q hq
    exact (hs.linear.bounds b hb q hq).trans_le (Nat.le_add_right _ _)
  have hcones : ∀ b ∈ L.cones.bounds, ∀ q ∈ b.items, ¬L.columns.Outside q.1 := by
    intro b hb q hq hout
    obtain ⟨⟨hlo, hhi⟩, -⟩ := (bounds_expandAll_conic L.cones_eq b hb).2 q hq
    rcases hout with hout | hout
    · exact Nat.not_lt.mpr hlo hout
    · exact Nat.not_le.mpr hhi hout
  have hlen : L.columns.start ≤
      ((Block.types (s.linear.blocks ++ L.expansion.blocks)).map f).length := by
    rw [List.length_map, Block.length_types, Block.totalSize_append]
    show L.next ≤ s.linear.columnCount + L.expansion.width
    rw [L.width_expansion]
    omega
  rw [L.bounds_expansion, hnone, Store.cut_applyBounds hlen hdeclared hcones, Gap.cut_map,
    L.cut_types hwidens, List.append_nil]

/-- The coefficients, without those in the rows and columns of cones. -/
theorem cut_linear (hwidens : behind.Widens L.columns L.behind) (hbehind : behind.Scoped L.next) :
    (s.linear.assembled L.expansion).linear.cut L.rows L.columns =
      (s.linear.assembled (L.before.append behind)).linear := by
  have hrows := L.ncols_le_next hs
  have hall := L.ncols_le_width hs
  have hwidth : s.linear.columnCount + (L.before.append behind).width = L.next + behind.width := by
    rw [Expansion.width_append, next, Nat.add_assoc]
  rw [rows_expansion] at hall
  have hparts := L.map_linear_rows
  have hothers : ((s.linear.rows ++ (L.before.append behind).rows).map (·.linear)) =
      (s.linear.rows ++ L.before.rows).map (·.linear) ++ behind.rows.map (·.linear) := by
    simp [Expansion.append]
  show (SparseMatrix.stack _ _).cut L.rows L.columns = SparseMatrix.stack _ _
  rw [hparts, hothers, hwidth]
  refine SparseMatrix.cut_stack rfl rfl ?_ ?_ ?_ ?_ ?_ ?_
  · exact List.forall_mem_map.mpr hrows
  · exact LinearConstraint.forall₂_widens_linear hwidens.rows
  · refine List.forall_mem_append.mpr ⟨List.forall_mem_map.mpr fun c hc => ?_, ?_⟩
    · exact (hrows c hc).trans (Nat.le_add_right _ _)
    · exact List.forall_mem_map.mpr hbehind.rows
  · rw [← List.map_append, ← List.map_append]
    exact List.forall_mem_map.mpr hall
  · rw [L.width_expansion, hwidens.width, columns]
    exact Nat.add_right_comm ..
  · exact Nat.le_add_right _ _

omit hs in
/-- The objective, which is on the objective column alone, without the columns of cones. -/
theorem cut_objective (hwidens : behind.Widens L.columns L.behind) :
    L.columns.cut (s.linear.assembled L.expansion).objective =
      (s.linear.assembled (L.before.append behind)).objective := by
  have hpos : 0 < L.columns.start := s.linear.columnCount_pos.trans_le (Nat.le_add_right _ _)
  have hwidth : s.linear.columnCount + L.expansion.width =
      s.linear.columnCount + (L.before.append behind).width + L.columns.length := by
    rw [L.width_expansion, Expansion.width_append, hwidens.width, next]
    show _ = _ + L.cones.width
    omega
  have hle : L.columns.start ≤ s.linear.columnCount + (L.before.append behind).width := by
    rw [Expansion.width_append, ← Nat.add_assoc]
    exact Nat.le_add_right _ _
  show L.columns.cut ((List.range (s.linear.columnCount + L.expansion.width)).map _) =
    (List.range (s.linear.columnCount + (L.before.append behind).width)).map _
  rw [hwidth]
  refine List.ext_getElem? fun j => ?_
  have hlen : L.columns.start ≤ ((List.range (s.linear.columnCount +
      (L.before.append behind).width + L.columns.length)).map fun j =>
        if j = 0 ∧ s.linear.objective.isSome then (1 : α) else 0).length := by
    rw [List.length_map, List.length_range]
    omega
  rw [Gap.getElem?_cut hlen, List.getElem?_map, List.getElem?_map]
  have hzero : L.columns.widen j = 0 ↔ j = 0 := by
    unfold Gap.widen
    split <;> omega
  by_cases hj : j < s.linear.columnCount + (L.before.append behind).width
  · rw [List.getElem?_range ((Gap.widen_lt_iff hle).mpr hj), List.getElem?_range hj]
    simp [hzero]
  · have hj' := (Gap.widen_lt_iff hle).not.mpr hj
    rw [List.getElem?_eq_none (by simpa using hj'), List.getElem?_eq_none (by simpa using hj)]

/-- **The program without what cones contribute** is that of the other pieces alone. -/
theorem cut_assembled (hwidens : behind.Widens L.columns L.behind) (hbehind : behind.Scoped L.next)
    (hplain : behind.Plain) : (s.linear.assembled L.expansion).cut L.rows L.columns =
      s.linear.assembled (L.before.append behind) := by
  have hconstants := L.cut_flatMap_rows (·.constant) LinearConstraint.length_flatMap_constant
    (hwidens.rows.imp fun _ _ h => h.constant.symm)
  have hsenses := L.cut_flatMap_rows (fun c => List.replicate c.length c.sense)
    LinearConstraint.length_flatMap_sense (hwidens.rows.imp fun c c' h => by
      rw [h.sense, LinearConstraint.length, LinearConstraint.length, h.linear.nrows])
  have hlinear := L.cut_linear hs hwidens hbehind
  unfold LinearProgram.cut Store.assembled at *
  simp only [LinearProgram.mk.injEq]
  exact ⟨hlinear, hconstants, hsenses, L.cut_types hwidens,
    L.cut_bounds hs .upper _ hwidens hplain, L.cut_bounds hs .lower _ hwidens hplain,
    L.cut_objective hwidens⟩

end ConeStore.Layout

end ConicForm
