import ConicForm.Model.Piece
import ConicForm.Proofs.Convex.Expression

/-!
# Expansions stay within their columns

Pieces over the columns of a model have expansions, whatever the scalars are. Rows, bounds and
records refer to columns below the end of the auxiliary ones only, these are continuous, and no
record is empty.

## Main definitions

* `Piece.Scoped`: pieces over the first columns of a model
* `Expansion.Scoped`: expansions that refer to no column behind their own

## Main results

* `ConvexConstraint.of_expandNorm_eq_ok`, `ConvexConstraint.of_expandSquares_eq_ok`,
  `of_expandAll_cons_eq_ok`: what expansions consist of
* `Piece.Scoped.exists_expand`, `exists_expandAll_scoped`: pieces have expansions in scope
-/

namespace ConicForm

variable {α : Type} [Scalar α] {id : ModelId} {n next : Nat}

/-! ## Rows -/

namespace Affine

variable {a b : Affine α} {s : Shape}

/-- A comparison with zero has the rows of the expression. -/
theorem Within.exists_le_zero (ha : a.Within id n) :
    ∃ c, a.le (.number 0) = .ok c ∧ c.linear.ncols ≤ n := by
  obtain ⟨r, hr, -, hw⟩ := ha.exists_sub (within_number 0) (Shape.elementwise_scalar _)
  exact ⟨.ofResidual r .le, by rw [le, hr]; rfl, hw.ncols⟩

theorem Within.exists_eq_zero (ha : a.Within id n) :
    ∃ c, a.eq (.number 0) = .ok c ∧ c.linear.ncols ≤ n := by
  obtain ⟨r, hr, -, hw⟩ := ha.exists_sub (within_number 0) (Shape.elementwise_scalar _)
  exact ⟨.ofResidual r .eq, by rw [eq, hr]; rfl, hw.ncols⟩

end Affine

theorem Block.within_auxiliary {b : Block} {s : Shape} {k : Nat}
    (hb : b = Block.auxiliary id k s) (hn : b.stop ≤ n) :
    (Affine.ofBlock b : Affine α).Within id n := by
  subst hb
  exact Affine.within_ofBlock rfl hn

/-! ## Expansions -/

/-- Added columns start at `next`. Rows, bounds and records refer to columns below the end of these
only, and records are not empty. -/
structure Expansion.Scoped (e : Expansion α) (next : Nat) : Prop where
  types : ∀ b ∈ e.blocks, b.type = .continuous
  rows : ∀ c ∈ e.rows, c.linear.ncols ≤ next + e.width
  bounds : ∀ b ∈ e.bounds, ∀ q ∈ b.items, q.1 < next + e.width
  records : ∀ r ∈ e.records, r ≠ [] ∧ ∀ j ∈ r, j < next + e.width

namespace Expansion

variable {e f : Expansion α}

theorem scoped_nil : ({} : Expansion α).Scoped next := ⟨by simp, by simp, by simp, by simp⟩

theorem Scoped.append (he : e.Scoped next) (hf : f.Scoped (next + e.width)) :
    (e.append f).Scoped next where
  types := List.forall_mem_append.mpr ⟨he.types, hf.types⟩
  rows := by
    rw [width_append]
    refine List.forall_mem_append.mpr ⟨fun c hc => ?_, fun c hc => ?_⟩
    · exact (he.rows c hc).trans (by omega)
    · exact (hf.rows c hc).trans (by omega)
  bounds := by
    rw [width_append]
    refine List.forall_mem_append.mpr ⟨fun b hb q hq => ?_, fun b hb q hq => ?_⟩
    · exact (he.bounds b hb q hq).trans_le (by omega)
    · exact (hf.bounds b hb q hq).trans_le (by omega)
  records := by
    rw [width_append]
    refine List.forall_mem_append.mpr ⟨fun r hr => ?_, fun r hr => ?_⟩
    · exact ⟨(he.records r hr).1, fun j hj => ((he.records r hr).2 j hj).trans_le (by omega)⟩
    · exact ⟨(hf.records r hr).1, fun j hj => ((hf.records r hr).2 j hj).trans_le (by omega)⟩

/-- Rows over the columns below are an expansion without columns of its own. -/
theorem scoped_rows {rows : List (LinearConstraint α)} (h : ∀ c ∈ rows, c.linear.ncols ≤ next) :
    ({ rows := rows } : Expansion α).Scoped next :=
  ⟨by simp, h, by simp, by simp⟩

end Expansion

namespace ConvexConstraint

/-! ## Functions described by linear rows -/

/-- The two rows that bound an absolute value. -/
theorem exists_absRows_scoped {input output : Affine α} {s : Shape} (hi : input.Within id n)
    (ho : output.Within id n) (hs : input.shape.elementwise output.shape = some s) :
    ∃ above below r₁ r₂, input.sub output = .ok r₁ ∧ r₁.le (.number 0) = .ok above ∧
      input.neg.sub output = .ok r₂ ∧ r₂.le (.number 0) = .ok below ∧
      ∀ c ∈ [above, below], c.linear.ncols ≤ n := by
  obtain ⟨r₁, hr₁, -, hw₁⟩ := hi.exists_sub ho hs
  obtain ⟨r₂, hr₂, -, hw₂⟩ := hi.neg.exists_sub ho hs
  obtain ⟨above, hc₁, hn₁⟩ := hw₁.exists_le_zero
  obtain ⟨below, hc₂, hn₂⟩ := hw₂.exists_le_zero
  exact ⟨above, below, r₁, r₂, hr₁, hc₁, hr₂, hc₂, by simp [hn₁, hn₂]⟩

theorem Scoped.exists_expandPiecewise {c : ConvexConstraint PiecewiseKind α}
    (hc : c.Scoped PiecewiseKind.elementwise id next) :
    ∃ e, c.expandPiecewise id next = .ok e ∧ e.Scoped next := by
  obtain ⟨hin, hout, hsize⟩ := hc
  have habs : ∀ {s : Shape}, c.input.shape.elementwise c.output.shape = some s →
      c.kind = .abs ∨ c.kind = .normInf →
      ∃ e, c.expandPiecewise id next = .ok e ∧ e.Scoped next := by
    intro s hs hk
    obtain ⟨above, below, r₁, r₂, hr₁, hc₁, hr₂, hc₂, hrows⟩ := exists_absRows_scoped hin hout hs
    refine ⟨{ rows := [above, below] }, ?_, Expansion.scoped_rows hrows⟩
    unfold expandPiecewise
    rcases hk with hk | hk <;>
      simp only [hk, hr₁, hc₁, hr₂, hc₂, bind, Except.bind, pure, Except.pure]
  cases hk : c.kind with
  | abs =>
    rw [hk] at hsize
    obtain ⟨s, hs, -⟩ := Shape.exists_elementwise hsize.symm
    exact habs hs (.inl hk)
  | normInf =>
    rw [hk] at hsize
    obtain ⟨s, hs, -⟩ := Shape.exists_elementwise_one (s := c.input.shape) hsize
    exact habs hs (.inr hk)
  | norm1 =>
    rw [hk] at hsize
    obtain ⟨u, hu⟩ : ∃ b, b = Block.auxiliary id next c.input.shape := ⟨_, rfl⟩
    have hwidth : u.stop = next + Block.totalSize [u] := by simp [hu, Block.stop, Block.auxiliary]
    have hlo : next ≤ u.stop := by omega
    have hwithin : (Affine.ofBlock u : Affine α).Within id u.stop :=
      Block.within_auxiliary hu le_rfl
    have hself : c.input.shape.elementwise (Affine.ofBlock u : Affine α).shape =
        some c.input.shape := by
      rw [hu]
      exact Shape.elementwise_self _
    obtain ⟨above, below, r₁, r₂, hr₁, hc₁, hr₂, hc₂, hrows⟩ :=
      exists_absRows_scoped (hin.mono hlo) hwithin hself
    obtain ⟨s, hs, -⟩ := Shape.exists_elementwise_one
      (s := (Affine.ofBlock u : Affine α).sum.shape) hsize
    obtain ⟨r₃, hr₃, -, hw₃⟩ := hwithin.sum.exists_sub (hout.mono hlo) hs
    obtain ⟨total, hc₃, hn₃⟩ := hw₃.exists_le_zero
    refine ⟨{ blocks := [u], rows := [above, below, total] }, ?_, ?_⟩
    · unfold expandPiecewise
      simp only [hk, ← hu, hr₁, hc₁, hr₂, hc₂, hr₃, hc₃, bind, Except.bind, pure, Except.pure]
    · refine ⟨by simp [hu, Block.auxiliary], ?_, by simp, by simp⟩
      rw [Expansion.width, ← hwidth]
      simpa [hn₃] using hrows

/-! ## Functions described by cones -/

section Inversion

variable {input output : Affine α} {e : Expansion α}

/-- A norm has a copy of its input and one of its bound. -/
theorem of_expandNorm_eq_ok (h : expandNorm id next input output = .ok e) :
    ∃ (left right : Block) (r₁ r₂ : Affine α) (c₁ c₂ : LinearConstraint α),
      left = Block.auxiliary id next input.shape ∧
      right = Block.auxiliary id left.stop output.shape ∧
      (input.sub (.ofBlock left) = .ok r₁ ∧ r₁.eq (.number 0) = .ok c₁) ∧
      (output.sub (.ofBlock right) = .ok r₂ ∧ r₂.eq (.number 0) = .ok c₂) ∧
      e = { blocks := [left, right], rows := [c₁, c₂],
            records := [right.first :: left.columns] } := by
  obtain ⟨r₁, hr₁, h⟩ := exists_of_bind_eq_ok h
  obtain ⟨c₁, hc₁, h⟩ := exists_of_bind_eq_ok h
  obtain ⟨r₂, hr₂, h⟩ := exists_of_bind_eq_ok h
  obtain ⟨c₂, hc₂, h⟩ := exists_of_bind_eq_ok h
  cases h
  exact ⟨_, _, r₁, r₂, c₁, c₂, rfl, rfl, ⟨hr₁, hc₁⟩, ⟨hr₂, hc₂⟩, rfl⟩

/-- A squaring function has copies of half a sum, of its input and of half a difference. -/
theorem of_expandSquares_eq_ok {records : Block → Block → Block → List (List Nat)}
    (h : expandSquares id next input output records = .ok e) :
    ∃ (a₁ a₂ a₃ : Block) (r₁ r₂ r₃ : Affine α) (c₁ c₂ c₃ : LinearConstraint α),
      a₁ = Block.auxiliary id next output.shape ∧
      a₂ = Block.auxiliary id a₁.stop input.shape ∧
      a₃ = Block.auxiliary id a₂.stop output.shape ∧
      ((Affine.ofBlock a₁).sub ((output.offset 1).scale Scalar.half) = .ok r₁ ∧
        r₁.eq (.number 0) = .ok c₁) ∧
      ((Affine.ofBlock a₂).sub input = .ok r₂ ∧ r₂.eq (.number 0) = .ok c₂) ∧
      ((Affine.ofBlock a₃).sub ((output.neg.offset 1).scale Scalar.half) = .ok r₃ ∧
        r₃.eq (.number 0) = .ok c₃) ∧
      e = { blocks := [a₁, a₂, a₃], rows := [c₁, c₂, c₃], bounds := [a₃.nonneg],
            records := records a₁ a₂ a₃ } := by
  obtain ⟨r₁, hr₁, h⟩ := exists_of_bind_eq_ok h
  obtain ⟨c₁, hc₁, h⟩ := exists_of_bind_eq_ok h
  obtain ⟨r₂, hr₂, h⟩ := exists_of_bind_eq_ok h
  obtain ⟨c₂, hc₂, h⟩ := exists_of_bind_eq_ok h
  obtain ⟨r₃, hr₃, h⟩ := exists_of_bind_eq_ok h
  obtain ⟨c₃, hc₃, h⟩ := exists_of_bind_eq_ok h
  cases h
  exact ⟨_, _, _, r₁, r₂, r₃, c₁, c₂, c₃, rfl, rfl, rfl, ⟨hr₁, hc₁⟩, ⟨hr₂, hc₂⟩, ⟨hr₃, hc₃⟩, rfl⟩

end Inversion

/-- A block of the shape of an expression that copies it. -/
theorem exists_copyRows_scoped {a : Affine α} {b : Block} {k : Nat} (ha : a.Within id n)
    (hb : b = Block.auxiliary id k a.shape) (hn : b.stop ≤ n) :
    ∃ r c, a.sub (.ofBlock b) = .ok r ∧ r.eq (.number 0) = .ok c ∧ c.linear.ncols ≤ n := by
  have hs : a.shape.elementwise (Affine.ofBlock b : Affine α).shape = some a.shape := by
    rw [hb]
    exact Shape.elementwise_self _
  obtain ⟨r, hr, -, hw⟩ := ha.exists_sub (Block.within_auxiliary hb hn) hs
  obtain ⟨c, hc, hcn⟩ := hw.exists_eq_zero
  exact ⟨r, c, hr, hc, hcn⟩

theorem exists_copiedRows_scoped {a : Affine α} {b : Block} {k : Nat} (ha : a.Within id n)
    (hb : b = Block.auxiliary id k a.shape) (hn : b.stop ≤ n) :
    ∃ r c, (Affine.ofBlock b).sub a = .ok r ∧ r.eq (.number 0) = .ok c ∧ c.linear.ncols ≤ n := by
  have hs : (Affine.ofBlock b : Affine α).shape.elementwise a.shape = some a.shape := by
    rw [hb]
    exact Shape.elementwise_self _
  obtain ⟨r, hr, -, hw⟩ := (Block.within_auxiliary hb hn).exists_sub ha hs
  obtain ⟨c, hc, hcn⟩ := hw.exists_eq_zero
  exact ⟨r, c, hr, hc, hcn⟩

theorem exists_expandNorm_scoped {input output : Affine α} (hin : input.Within id next)
    (hout : output.Within id next) (hsize : output.size = 1) :
    ∃ e, expandNorm id next input output = .ok e ∧ e.Scoped next := by
  obtain ⟨left, hl⟩ : ∃ b, b = Block.auxiliary id next input.shape := ⟨_, rfl⟩
  obtain ⟨right, hr⟩ : ∃ b, b = Block.auxiliary id left.stop output.shape := ⟨_, rfl⟩
  have hleft : left.stop = next + left.size := by rw [hl]; rfl
  have hright : right.first = left.stop := by rw [hr]; rfl
  have hone : right.size = 1 := by rw [hr]; exact hsize
  have hstop : right.stop = next + Block.totalSize [left, right] := by
    simp only [Block.totalSize_cons, Block.totalSize_nil]
    rw [Block.stop, hright]
    omega
  have hlo : next ≤ right.stop := by omega
  have hle : left.stop ≤ right.stop := by rw [Block.stop.eq_1 right]; omega
  obtain ⟨r₁, c₁, hr₁, hc₁, hn₁⟩ := exists_copyRows_scoped (hin.mono hlo) hl hle
  obtain ⟨r₂, c₂, hr₂, hc₂, hn₂⟩ := exists_copyRows_scoped (hout.mono hlo) hr le_rfl
  refine ⟨{ blocks := [left, right], rows := [c₁, c₂],
            records := [right.first :: left.columns] }, ?_, ?_⟩
  · unfold expandNorm
    simp only [← hl, ← hr, hr₁, hc₁, hr₂, hc₂, bind, Except.bind, pure, Except.pure]
  · refine ⟨by simp [hl, hr, Block.auxiliary], ?_, by simp, ?_⟩
    · rw [Expansion.width, ← hstop]
      simp [hn₁, hn₂]
    · refine List.forall_mem_singleton.mpr ⟨by simp, List.forall_mem_cons.mpr ⟨?_, ?_⟩⟩
      · rw [Expansion.width, ← hstop, Block.stop]
        omega
      · intro j hj
        rw [Expansion.width, ← hstop]
        exact (Block.mem_columns.mp hj).2.trans_le hle

/-- A squaring function has an expansion whose records are over its three blocks. -/
theorem exists_expandSquares_scoped {input output : Affine α}
    (records : Block → Block → Block → List (List Nat)) (hin : input.Within id next)
    (hout : output.Within id next)
    (hrecords : ∀ a₁ a₂ a₃ : Block, a₁.stop = a₂.first → a₂.stop = a₃.first →
      a₁.size = output.size → a₂.size = input.size → a₃.size = output.size →
      ∀ r ∈ records a₁ a₂ a₃, r ≠ [] ∧ ∀ j ∈ r, j < a₃.stop) :
    ∃ e, expandSquares id next input output records = .ok e ∧ e.Scoped next := by
  obtain ⟨a₁, h₁⟩ : ∃ b, b = Block.auxiliary id next output.shape := ⟨_, rfl⟩
  obtain ⟨a₂, h₂⟩ : ∃ b, b = Block.auxiliary id a₁.stop input.shape := ⟨_, rfl⟩
  obtain ⟨a₃, h₃⟩ : ∃ b, b = Block.auxiliary id a₂.stop output.shape := ⟨_, rfl⟩
  have hfirst₁ : a₁.first = next := by rw [h₁]; rfl
  have hfirst₂ : a₂.first = a₁.stop := by rw [h₂]; rfl
  have hfirst₃ : a₃.first = a₂.stop := by rw [h₃]; rfl
  have hstop : a₃.stop = next + Block.totalSize [a₁, a₂, a₃] := by
    simp only [Block.totalSize_cons, Block.totalSize_nil]
    unfold Block.stop at *
    omega
  have hlo : next ≤ a₃.stop := by omega
  have hle₁ : a₁.stop ≤ a₃.stop := by unfold Block.stop at *; omega
  have hle₂ : a₂.stop ≤ a₃.stop := by unfold Block.stop at *; omega
  obtain ⟨r₁, c₁, hr₁, hc₁, hn₁⟩ := exists_copiedRows_scoped
    (a := (output.offset 1).scale Scalar.half) (((hout.mono hlo).offset 1).scale _) h₁ hle₁
  obtain ⟨r₂, c₂, hr₂, hc₂, hn₂⟩ := exists_copiedRows_scoped (hin.mono hlo) h₂ hle₂
  obtain ⟨r₃, c₃, hr₃, hc₃, hn₃⟩ := exists_copiedRows_scoped
    (a := (output.neg.offset 1).scale Scalar.half) (((hout.mono hlo).neg.offset 1).scale _) h₃
    le_rfl
  refine ⟨{ blocks := [a₁, a₂, a₃], rows := [c₁, c₂, c₃], bounds := [a₃.nonneg],
            records := records a₁ a₂ a₃ }, ?_, ?_⟩
  · unfold expandSquares
    simp only [← h₁, ← h₂, ← h₃, hr₁, hc₁, hr₂, hc₂, hr₃, hc₃, bind, Except.bind, pure, Except.pure]
  · constructor
    · simp [h₁, h₂, h₃, Block.auxiliary]
    · rw [Expansion.width, ← hstop]
      simp [hn₁, hn₂, hn₃]
    · refine List.forall_mem_singleton.mpr fun q hq => ?_
      obtain ⟨j, hj, rfl⟩ := List.mem_map.mp hq
      rw [Expansion.width, ← hstop]
      exact (Block.mem_columns.mp hj).2
    · rw [Expansion.width, ← hstop]
      exact hrecords a₁ a₂ a₃ hfirst₂.symm hfirst₃.symm (by rw [h₁]; rfl) (by rw [h₂]; rfl)
        (by rw [h₃]; rfl)

theorem Scoped.exists_expandConic {c : ConvexConstraint ConicKind α}
    (hc : c.Scoped ConicKind.elementwise id next) :
    ∃ e, c.expandConic id next = .ok e ∧ e.Scoped next := by
  obtain ⟨hin, hout, hsize⟩ := hc
  unfold expandConic
  cases hk : c.kind with
  | norm2 => exact exists_expandNorm_scoped hin hout (by rwa [hk] at hsize)
  | square =>
    rw [hk] at hsize
    refine exists_expandSquares_scoped _ hin hout fun a₁ a₂ a₃ h₁₂ h₂₃ hs₁ hs₂ hs₃ r hr => ?_
    obtain ⟨i, hi, rfl⟩ := List.mem_map.mp hr
    have hi := List.mem_range.mp hi
    have houtput : c.output.size = c.input.size := hsize
    unfold Block.stop at *
    refine ⟨by simp, ?_⟩
    simp only [List.mem_cons, List.not_mem_nil, or_false]
    rintro j (rfl | rfl | rfl) <;> omega
  | sumSquares =>
    rw [hk] at hsize
    refine exists_expandSquares_scoped _ hin hout fun a₁ a₂ a₃ h₁₂ h₂₃ hs₁ hs₂ hs₃ => ?_
    have houtput : c.output.size = 1 := hsize
    refine List.forall_mem_singleton.mpr ⟨by simp, ?_⟩
    simp only [List.mem_cons, Block.mem_columns]
    unfold Block.stop at *
    rintro j (rfl | rfl | hj) <;> omega

end ConvexConstraint

/-! ## Pieces -/

namespace Piece

/-- Pieces over the first `n` columns of a model. -/
def Scoped (id : ModelId) (n : Nat) : Piece α → Prop
  | rows c => c.linear.ncols ≤ n
  | piecewise c => c.Scoped PiecewiseKind.elementwise id n
  | conic c => c.Scoped ConicKind.elementwise id n

theorem Scoped.mono {n' : Nat} (h : n ≤ n') {p : Piece α} (hp : p.Scoped id n) :
    p.Scoped id n' := by
  cases p with
  | rows c => exact le_trans hp h
  | piecewise c => exact ConvexConstraint.Scoped.mono h hp
  | conic c => exact ConvexConstraint.Scoped.mono h hp

theorem Scoped.exists_expand {p : Piece α} (hp : p.Scoped id next) :
    ∃ e, p.expand id next = .ok e ∧ e.Scoped next := by
  cases p with
  | rows c => exact ⟨_, rfl, Expansion.scoped_rows (List.forall_mem_singleton.mpr hp)⟩
  | piecewise c => exact ConvexConstraint.Scoped.exists_expandPiecewise hp
  | conic c => exact ConvexConstraint.Scoped.exists_expandConic hp

end Piece

/-- Pieces are expanded one after another. -/
theorem of_expandAll_cons_eq_ok {p : Piece α} {ps : List (Piece α)} {e : Expansion α}
    (h : expandAll id next (p :: ps) = .ok e) : ∃ f g, p.expand id next = .ok f ∧
      expandAll id (next + f.width) ps = .ok g ∧ e = f.append g := by
  obtain ⟨f, hf, h⟩ := exists_of_bind_eq_ok h
  obtain ⟨g, hg, h⟩ := exists_of_bind_eq_ok h
  exact ⟨f, g, hf, hg, (Except.ok.inj h).symm⟩

/-- **Pieces over the first columns of a model have an expansion** behind these columns. -/
theorem exists_expandAll_scoped (hn : n ≤ next) {ps : List (Piece α)}
    (hps : ∀ p ∈ ps, p.Scoped id n) :
    ∃ e, expandAll id next ps = .ok e ∧ e.Scoped next := by
  induction ps generalizing next with
  | nil => exact ⟨_, rfl, Expansion.scoped_nil⟩
  | cons p ps ih =>
    obtain ⟨hp, hps⟩ := List.forall_mem_cons.mp hps
    obtain ⟨e, he, hes⟩ := (hp.mono hn).exists_expand
    obtain ⟨f, hf, hfs⟩ := ih (hn.trans (Nat.le_add_right next e.width)) hps
    refine ⟨e.append f, ?_, hes.append hfs⟩
    simp only [expandAll, he, hf, bind, Except.bind, pure, Except.pure]

end ConicForm
