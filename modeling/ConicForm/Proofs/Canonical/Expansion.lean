import ConicForm.Proofs.Canonical.Realization

/-!
# The expansion of pieces

Each piece of a canonical program has an expansion, which realizes the piece over the
columns below its own. Pieces expanded one after another realize all of them at once.

## Main definitions

* `Piece.Holds`: when a piece holds at an assignment

## Main results

* `Piece.exists_expand`: a piece has an expansion that realizes it
* `exists_expandAll`: pieces in order have expansions that realize all of them
-/

namespace ConicForm

variable {K : Type} [Field K] [LinearOrder K]

omit [LinearOrder K] in
/-- The columns of a block, summed up. -/
theorem sum_map_columns (b : Block) (f : Nat → K) :
    (b.columns.map f).sum = ∑ i ∈ Finset.range b.size, f (b.first + i) := by
  rw [Block.columns, List.range'_eq_map_range, List.map_map,
    ← List.sum_toFinset _ List.nodup_range, List.toFinset_range]
  rfl

theorem recordHolds_cons_columns {x : Nat → K} {j : Nat} {b : Block} :
    RecordHolds x (j :: b.columns) ↔
      0 ≤ x j ∧ ∑ i ∈ Finset.range b.size, x (b.first + i) ^ 2 ≤ x j ^ 2 := by
  rw [RecordHolds, sum_map_columns b fun j => x j ^ 2]

theorem holds_nonneg_iff {x : Nat → K} {b : Block} :
    (b.nonneg : Bounds K).Holds x ↔ ∀ i < b.size, 0 ≤ x (b.first + i) := by
  constructor
  · intro h i hi
    exact h (b.first + i, .value 0) (List.mem_map_of_mem (by simp [Block.stop, hi]))
  · intro h q hq
    obtain ⟨j, hj, rfl⟩ := List.mem_map.mp hq
    obtain ⟨hlo, hhi⟩ := Block.mem_columns.mp hj
    have := h (j - b.first) (by unfold Block.stop at hhi; omega)
    rwa [Nat.add_sub_cancel' hlo] at this

section Auxiliary

variable {id : ModelId} {n : Nat} {s : Shape}

@[simp] theorem Block.size_auxiliary : (Block.auxiliary id n s).size = s.size := rfl

@[simp] theorem Block.first_auxiliary : (Block.auxiliary id n s).first = n := rfl

@[simp] theorem Block.stop_auxiliary : (Block.auxiliary id n s).stop = n + s.size := rfl

end Auxiliary

namespace ConvexConstraint

variable {id : ModelId} {next : Nat}

/-! ## Rows over auxiliary columns -/

/-- Copies an expression into a block of its shape. -/
theorem exists_copyRows {a : Affine K} {b : Block} {width : Nat} (ha : a.Within id width)
    (ho : b.owner = id) (hw : b.stop ≤ width) (hs : b.shape = a.shape) :
    ∃ r c, a.sub (.ofBlock b) = .ok r ∧ r.eq (.number 0) = .ok c ∧
      c.Describes .eq a.size width fun x i => a.value x i - x (b.first + i) := by
  have hab : a.shape.elementwise b.shape = some a.shape := hs ▸ Shape.elementwise_self _
  obtain ⟨r, c, hr, hc, hd⟩ := Affine.exists_sub_eq_zero ha (Affine.within_ofBlock ho hw) hab
  refine ⟨r, c, hr, hc, hd.congr fun x i hi => ?_⟩
  rw [Affine.spread_of_lt hi, Affine.spread_ofBlock (by rwa [Block.size, hs])]

/-- A block that copies an expression of its shape. -/
theorem exists_copiedRows {a : Affine K} {b : Block} {width : Nat} (ha : a.Within id width)
    (ho : b.owner = id) (hw : b.stop ≤ width) (hs : b.shape = a.shape) :
    ∃ r c, (Affine.ofBlock b).sub a = .ok r ∧ r.eq (.number 0) = .ok c ∧
      c.Describes .eq a.size width fun x i => x (b.first + i) - a.value x i := by
  have hab : b.shape.elementwise a.shape = some a.shape := hs ▸ Shape.elementwise_self _
  obtain ⟨r, c, hr, hc, hd⟩ := Affine.exists_sub_eq_zero (Affine.within_ofBlock ho hw) ha hab
  refine ⟨r, c, hr, hc, hd.congr fun x i hi => ?_⟩
  rw [Affine.spread_of_lt hi, Affine.spread_ofBlock (by rwa [Block.size, hs])]

/-- A block of the halves of an expression plus one. -/
theorem exists_halfRows {a : Affine K} {b : Block} {width : Nat} (ha : a.Within id width)
    (ho : b.owner = id) (hw : b.stop ≤ width) (hs : b.shape = a.shape) :
    ∃ r c, (Affine.ofBlock b).sub ((a.offset 1).scale Scalar.half) = .ok r ∧
      r.eq (.number 0) = .ok c ∧
      c.Describes .eq a.size width fun x i => x (b.first + i) - (a.value x i + 1) * 2⁻¹ := by
  obtain ⟨r, c, hr, hc, hd⟩ := exists_copiedRows ((ha.offset 1).scale Scalar.half) ho hw hs
  refine ⟨r, c, hr, hc, hd.congr fun x i hi => ?_⟩
  rw [Affine.value_scale, Affine.value_offset 1 (by exact hi), Scalar.half_eq]

variable [IsStrictOrderedRing K]

/-! ## Functions described by linear rows -/

/-- Absolute values bounded element by element are rows without further columns. -/
theorem exists_absRows {input output : Affine K} {s : Shape} (hi : input.Within id next)
    (ho : output.Within id next) (hs : input.shape.elementwise output.shape = some s) :
    ∃ above below r₁ r₂, input.sub output = .ok r₁ ∧ r₁.le (.number 0) = .ok above ∧
      input.neg.sub output = .ok r₂ ∧ r₂.le (.number 0) = .ok below ∧
      above.linear.ncols ≤ next ∧ below.linear.ncols ≤ next ∧
      (∀ j, (∀ i < s.size, input.spread (Pi.single j 1) i = input.spread 0 i) →
        (∀ i < s.size, output.spread (Pi.single j 1) i = output.spread 0 i) →
        ¬above.Mentions j ∧ ¬below.Mentions j) ∧
      ∀ x, above.Holds x ∧ below.Holds x ↔
        ∀ i < s.size, |input.spread x i| ≤ output.spread x i := by
  obtain ⟨r₁, above, hr₁, hc₁, h₁⟩ := Affine.exists_sub_le_zero hi ho hs
  obtain ⟨r₂, below, hr₂, hc₂, h₂⟩ := Affine.exists_sub_le_zero hi.neg ho hs
  refine ⟨above, below, r₁, r₂, hr₁, hc₁, hr₂, hc₂, h₁.ncols_le, h₂.ncols_le, ?_, fun x => ?_⟩
  · intro j hin hout
    refine ⟨h₁.not_mentions fun i hi => ?_, h₂.not_mentions fun i hi => ?_⟩
    · rw [hin i hi, hout i hi]
    · rw [Affine.spread_neg, Affine.spread_neg, hin i hi, hout i hi]
  · rw [h₁.holds_le_iff, h₂.holds_le_iff, ← forall₂_and]
    refine forall₂_congr fun i _ => ?_
    rw [Affine.spread_neg, abs_le, neg_le, and_comm]

/-- Absolute values bounded element by element, and the largest one, have rows over the columns of
the model. -/
theorem exists_elementRows {c : ConvexConstraint PiecewiseKind K} {n : Nat}
    (hc : c.Scoped PiecewiseKind.elementwise id n) (hk : c.kind ≠ .norm1) :
    ∃ rows, (∀ next, c.expandPiecewise id next = .ok { rows := rows }) ∧
      (∀ d ∈ rows, d.linear.ncols ≤ n) ∧ ∀ x, (∀ d ∈ rows, d.Holds x) ↔ c.PiecewiseHolds x := by
  obtain ⟨s, hs, hsize, hholds⟩ : ∃ s, c.input.shape.elementwise c.output.shape = some s ∧
      s.size = c.input.size ∧ ∀ x, (∀ i < c.input.size,
        |c.input.value x i| ≤ c.output.spread x i) ↔ c.PiecewiseHolds x := by
    have hsize := hc.size
    unfold PiecewiseHolds
    cases hkind : c.kind with
    | abs =>
      replace hsize : c.output.size = c.input.size := by rwa [hkind] at hsize
      obtain ⟨s, hs, hssize⟩ := Shape.exists_elementwise hsize.symm
      refine ⟨s, hs, hssize.trans hsize, fun x => forall₂_congr fun i hi => ?_⟩
      rw [Affine.spread_of_lt (hsize.symm ▸ hi)]
    | normInf =>
      replace hsize : c.output.size = 1 := by rwa [hkind] at hsize
      obtain ⟨s, hs, hssize⟩ := Shape.exists_elementwise_one hsize
      refine ⟨s, hs, hssize, fun x => forall₂_congr fun i _ => ?_⟩
      rw [Affine.spread_of_size_eq_one hsize]
    | norm1 => exact absurd hkind hk
  obtain ⟨above, below, r₁, r₂, hr₁, hc₁, hr₂, hc₂, hw₁, hw₂, -, hrows⟩ :=
    exists_absRows hc.input hc.output hs
  refine ⟨[above, below], fun next => ?_, by simp [hw₁, hw₂], fun x => ?_⟩
  · unfold expandPiecewise
    cases hkind : c.kind with
    | abs | normInf =>
      simp only [hr₁, hc₁, hr₂, hc₂, bind, Except.bind, pure, Except.pure]
    | norm1 => exact absurd hkind hk
  · rw [List.forall_mem_cons, List.forall_mem_singleton, hrows, hsize, ← hholds]
    exact forall₂_congr fun i hi => by rw [Affine.spread_of_lt hi]

/-- The rows of a sum of absolute values: the auxiliary columns bound these one by one, and
their sum is bounded by the output. -/
theorem exists_norm1Rows {c : ConvexConstraint PiecewiseKind K} {u : Block} {n width : Nat}
    (hn : n ≤ width) (hnext : next + c.input.size ≤ width)
    (hc : c.Scoped PiecewiseKind.elementwise id n) (hk : c.kind = .norm1)
    (hu : u = Block.auxiliary id next c.input.shape) :
    ∃ rows, c.expandPiecewise id next = .ok { blocks := [u], rows := rows } ∧
      (∀ d ∈ rows, d.linear.ncols ≤ width) ∧
      (∀ d ∈ rows, ∀ j, n ≤ j → d.Mentions j → next ≤ j) ∧
      ∀ x, (∀ d ∈ rows, d.Holds x) ↔
        (∀ i < c.input.size, |c.input.value x i| ≤ x (next + i)) ∧
          ∑ i ∈ Finset.range c.input.size, x (next + i) ≤ c.output.value x 0 := by
  obtain ⟨hin, hout, hsize⟩ := hc
  rw [hk] at hsize
  replace hsize : c.output.size = 1 := hsize
  have hwithin : (Affine.ofBlock u : Affine K).Within id width := by
    rw [hu]
    exact Affine.within_ofBlock rfl hnext
  have hshape : c.input.shape.elementwise (Affine.ofBlock u : Affine K).shape =
      some c.input.shape := by
    rw [hu]
    exact Shape.elementwise_self _
  obtain ⟨above, below, r₁, r₂, hr₁, hc₁, hr₂, hc₂, hw₁, hw₂, hmentions, habs⟩ :=
    exists_absRows (hin.mono hn) hwithin hshape
  obtain ⟨t, ht, htsize⟩ :=
    Shape.exists_elementwise_one (s := (Affine.ofBlock u : Affine K).sum.shape) hsize
  replace htsize : t.size = 1 := htsize
  obtain ⟨r₃, total, hr₃, hc₃, h₃⟩ := Affine.exists_sub_le_zero hwithin.sum (hout.mono hn) ht
  have hvalue : ∀ (x : Nat → K) {i}, i < c.input.size →
      (Affine.ofBlock u).spread x i = x (next + i) := by
    intro x i hi
    rw [hu, Affine.spread_ofBlock hi, Block.first_auxiliary]
  have hsum : ∀ x : Nat → K, (Affine.ofBlock u).sum.spread x 0 =
      ∑ i ∈ Finset.range c.input.size, x (next + i) := by
    intro x
    rw [Affine.spread_of_size_eq_one rfl, Affine.value_sum, hu]
    exact Finset.sum_congr rfl fun i hi => Affine.value_ofBlock (Finset.mem_range.mp hi)
  refine ⟨[above, below, total], ?_, by simpa using ⟨hw₁, hw₂, h₃.ncols_le⟩, ?_, fun x => ?_⟩
  · unfold expandPiecewise
    simp only [hk, ← hu, hr₁, hc₁, hr₂, hc₂, hr₃, hc₃, bind, Except.bind, pure, Except.pure]
  · intro d hd j hj hm
    by_contra hlt
    have hzero : ∀ i, (Pi.single j 1 : Nat → K) (next + i) = 0 := fun i =>
      Pi.single_eq_of_ne (by omega) _
    have habove := hmentions j
      (fun i hi => by rw [Affine.spread_of_lt hi, Affine.spread_of_lt hi, hin.value_single hj])
      (fun i hi => by rw [hvalue _ hi, hvalue _ hi, hzero, Pi.zero_apply])
    have htotal : ¬total.Mentions j := by
      refine h₃.not_mentions fun i hi => ?_
      obtain rfl : i = 0 := by omega
      rw [hsum, hsum, Affine.spread_of_size_eq_one hsize, Affine.spread_of_size_eq_one hsize,
        hout.value_single hj]
      simp [hzero]
    simp only [List.mem_cons, List.not_mem_nil, or_false] at hd
    rcases hd with rfl | rfl | rfl
    · exact habove.1 hm
    · exact habove.2 hm
    · exact htotal hm
  · rw [List.forall_mem_cons, List.forall_mem_cons, List.forall_mem_singleton, ← and_assoc, habs,
      h₃.holds_le_iff, htsize]
    refine and_congr (forall₂_congr fun i hi => ?_) ?_
    · rw [Affine.spread_of_lt hi, hvalue x hi]
    · simp [hsum, Affine.spread_of_size_eq_one hsize]

/-- The auxiliary columns of a sum of absolute values bound them one by one. -/
theorem exists_expandNorm1 {c : ConvexConstraint PiecewiseKind K}
    (hc : c.Scoped PiecewiseKind.elementwise id next) (hk : c.kind = .norm1) :
    ∃ e, c.expandPiecewise id next = .ok e ∧
      e.Realizes next fun x => ∑ i ∈ Finset.range c.input.size, |c.input.value x i| ≤
        c.output.value x 0 := by
  obtain ⟨u, hu⟩ : ∃ u, u = Block.auxiliary id next c.input.shape := ⟨_, rfl⟩
  obtain ⟨rows, he, hw, -, hrows⟩ := exists_norm1Rows (Nat.le_add_right _ _) le_rfl hc hk hu
  refine ⟨_, he, ⟨?_, ?_, by simp, by simp, by simp⟩, fun x hx => ?_, fun x hx => ?_⟩
  · simp [hu, Block.auxiliary]
  · simpa [Expansion.width, hu, Affine.size] using hw
  · obtain ⟨hle, htotal⟩ := (hrows x).mp hx.rows
    exact le_trans (Finset.sum_le_sum fun i hi => hle i (Finset.mem_range.mp hi)) htotal
  · refine ⟨extend x next fun i => |c.input.value x i|, fun j hj => extend_of_lt hj,
      ⟨(hrows _).mpr ⟨fun i _ => ?_, ?_⟩, by simp, by simp⟩⟩
    · rw [extend_add, hc.input.value_congr fun j hj => extend_of_lt hj]
    · simp only [extend_add]
      rwa [hc.output.value_congr fun j hj => extend_of_lt hj]

/-- A constraint on a function described by linear rows has an expansion. -/
theorem exists_expandPiecewise {c : ConvexConstraint PiecewiseKind K}
    (hc : c.Scoped PiecewiseKind.elementwise id next) :
    ∃ e, c.expandPiecewise id next = .ok e ∧ e.Realizes next c.PiecewiseHolds := by
  by_cases hk : c.kind = .norm1
  · obtain ⟨e, he, hr⟩ := exists_expandNorm1 hc hk
    refine ⟨e, he, hr.congr fun x => ?_⟩
    rw [PiecewiseHolds, hk]
    rfl
  · obtain ⟨rows, he, hw, hrows⟩ := exists_elementRows hc hk
    exact ⟨_, he next, Expansion.realizes_rows hw hrows⟩

/-! ## Functions described by cones -/

/-- The rows of a Euclidean norm copy its input and its bound. -/
theorem exists_normRows {input output : Affine K} {left right : Block} {n : Nat} (hn : n ≤ next)
    (hin : input.Within id n) (hout : output.Within id n) (hone : output.size = 1)
    (hleft : left = Block.auxiliary id next input.shape)
    (hright : right = Block.auxiliary id left.stop output.shape) :
    ∃ rows, expandNorm id next input output =
        .ok { blocks := [left, right], rows := rows, records := [right.first :: left.columns] } ∧
      (∀ d ∈ rows, d.linear.ncols ≤ right.stop) ∧
      (∀ x, (∀ d ∈ rows, d.Holds x) ↔
        (∀ i < input.size, input.value x i = x (left.first + i)) ∧
          output.value x 0 = x right.first) ∧
      (∃ d ∈ rows, d.Mentions right.first) ∧
      List.Forall₂ (LinearConstraint.Ties n) [left, right] rows := by
  have hsize : left.size = input.size := by rw [hleft]; rfl
  have hnext : left.first = next := by rw [hleft]; rfl
  have hfirst : right.first = left.stop := by rw [hright]; rfl
  have hstop : left.stop ≤ right.stop := by unfold Block.stop at hfirst ⊢; omega
  have hlo : n ≤ right.stop := by unfold Block.stop at hstop ⊢; omega
  obtain ⟨r₁, c₁, hr₁, hc₁, h₁⟩ :=
    exists_copyRows (b := left) (hin.mono hlo) (by rw [hleft]; rfl) hstop (by rw [hleft]; rfl)
  obtain ⟨r₂, c₂, hr₂, hc₂, h₂⟩ :=
    exists_copyRows (b := right) (hout.mono hlo) (by rw [hright]; rfl) le_rfl (by rw [hright]; rfl)
  refine ⟨[c₁, c₂], ?_, by simpa using ⟨h₁.ncols_le, h₂.ncols_le⟩, fun x => ?_,
    ⟨c₂, by simp, ?_⟩, .cons ?_ (.cons ?_ .nil)⟩
  · unfold expandNorm
    simp only [← hleft, ← hright, hr₁, hc₁, hr₂, hc₂, bind, Except.bind, pure, Except.pure]
  · rw [List.forall_mem_cons, List.forall_mem_singleton, h₁.holds_eq_iff, h₂.holds_eq_iff, hone]
    simp
  · refine h₂.mentions (i := 0) (by omega) ?_
    rw [hout.value_single (by unfold Block.stop at hfirst; omega)]
    simp
  · exact h₁.ties hin hsize fun x x' i ha hx => by rw [ha, hx]
  · exact h₂.ties hout (by rw [hright]; rfl) fun x x' i ha hx => by rw [ha, hx]

/-- The copies of the input and of the bound of a Euclidean norm form its record. -/
theorem exists_expandNorm {input output : Affine K} (hin : input.Within id next)
    (hout : output.Within id next) (hone : output.size = 1) :
    ∃ e, expandNorm id next input output = .ok e ∧
      e.Realizes next fun x => ConicKind.norm2.Holds input.size (input.value x)
        (output.value x) := by
  obtain ⟨left, hleft⟩ : ∃ b, b = Block.auxiliary id next input.shape := ⟨_, rfl⟩
  obtain ⟨right, hright⟩ : ∃ b, b = Block.auxiliary id left.stop output.shape := ⟨_, rfl⟩
  obtain ⟨rows, he, hw, hrows, hhead, -⟩ := exists_normRows le_rfl hin hout hone hleft hright
  have hsize : left.size = input.size := by rw [hleft]; rfl
  have hnext : left.first = next := by rw [hleft]; rfl
  have hfirst : right.first = next + input.size := by rw [hright, hleft]; rfl
  have hstop : right.stop = next + input.size + 1 := by
    rw [Block.stop, hfirst, hright]
    exact congrArg _ hone
  have hend : next + Block.totalSize [left, right] = right.stop := by
    simp only [Block.totalSize_cons, Block.totalSize_nil, Block.stop]
    omega
  have hrecord : ∀ x : Nat → K, RecordHolds x (right.first :: left.columns) ↔
      0 ≤ x right.first ∧
        ∑ i ∈ Finset.range input.size, x (left.first + i) ^ 2 ≤ x right.first ^ 2 := by
    intro x
    rw [recordHolds_cons_columns, hsize]
  refine ⟨_, he, ⟨?_, ?_, by simp, ?_, ?_⟩, fun x hx => ?_, ?_⟩
  · simp [hleft, hright, Block.auxiliary]
  · simpa only [Expansion.width, hend] using hw
  · refine List.forall_mem_singleton.mpr ⟨List.cons_ne_nil _ _, ?_⟩
    simp only [Expansion.width, hend, List.mem_cons, Block.mem_columns]
    unfold Block.stop at hstop ⊢
    rintro j (rfl | hj) <;> omega
  · simpa using hhead
  · obtain ⟨hcopy, hbound⟩ := (hrows x).mp hx.rows
    obtain ⟨hpos, hsum⟩ := (hrecord x).mp (hx.records _ (List.mem_singleton_self _))
    rw [← hbound] at hpos hsum
    refine ⟨hpos, le_of_eq_of_le (Finset.sum_congr rfl fun i hi => ?_) hsum⟩
    rw [hcopy i (Finset.mem_range.mp hi)]
  · rintro x ⟨hpos, hsum⟩
    obtain ⟨x', hlt, hcopy, hbound⟩ :=
      exists_extend_extend x (input.value x) (output.value x) next input.size
    rw [← hnext] at hcopy
    replace hbound : x' right.first = output.value x 0 := by
      rw [hfirst]
      exact hbound 0
    refine ⟨x', hlt, (hrows x').mpr ⟨fun i hi => ?_, ?_⟩, by simp, ?_⟩
    · rw [hcopy i hi, hin.value_congr hlt]
    · rw [hbound, hout.value_congr hlt]
    · refine List.forall_mem_singleton.mpr ((hrecord x').mpr ?_)
      rw [hbound]
      refine ⟨hpos, le_of_eq_of_le (Finset.sum_congr rfl fun i hi => ?_) hsum⟩
      rw [hcopy i (Finset.mem_range.mp hi)]

omit [LinearOrder K] [IsStrictOrderedRing K] in
theorem half_sq_sub_half_sq [CharZero K] (w : K) :
    ((-w + 1) * 2⁻¹) ^ 2 - ((w + 1) * 2⁻¹) ^ 2 = -w := by
  ring

/-- The rotated cone: squares summing to `t`, under the halves of the bound `w`. -/
theorem half_sq_add_le_iff {t w : K} (ht : 0 ≤ t) :
    0 ≤ (-w + 1) * 2⁻¹ ∧ ((w + 1) * 2⁻¹) ^ 2 + t ≤ ((-w + 1) * 2⁻¹) ^ 2 ↔ t + w ≤ 0 := by
  have hhalf := half_sq_sub_half_sq w
  constructor
  · rintro ⟨-, h⟩
    linarith
  · intro h
    refine ⟨mul_nonneg (by linarith) (by positivity), by linarith⟩

/-- Three blocks one after another from `next` on, the outer two of `m` columns and the middle
one of `n`. -/
structure SquareBlocks (next m n : Nat) (a₁ a₂ a₃ : Block) : Prop where
  first₁ : a₁.first = next
  size₁ : a₁.size = m
  first₂ : a₂.first = next + m
  size₂ : a₂.size = n
  first₃ : a₃.first = next + m + n
  size₃ : a₃.size = m

/-- The columns of the blocks at the input `u` and the bound `w`. -/
structure SquareColumns (a₁ a₂ a₃ : Block) (u w x : Nat → K) : Prop where
  sum : ∀ i < a₁.size, x (a₁.first + i) = (w i + 1) * 2⁻¹
  input : ∀ i < a₂.size, x (a₂.first + i) = u i
  difference : ∀ i < a₃.size, x (a₃.first + i) = (-w i + 1) * 2⁻¹

section Squares

variable {a₁ a₂ a₃ : Block}

theorem SquareBlocks.next_add_totalSize {m n : Nat} (h : SquareBlocks next m n a₁ a₂ a₃) :
    next + Block.totalSize [a₁, a₂, a₃] = a₃.stop := by
  obtain ⟨hfirst₁, hsize₁, hfirst₂, hsize₂, hfirst₃, hsize₃⟩ := h
  simp only [Block.totalSize_cons, Block.totalSize_nil, Block.stop]
  omega

omit [LinearOrder K] [IsStrictOrderedRing K] in
/-- Columns from `next` on may be set to any input and bound. -/
theorem SquareBlocks.exists_squareColumns {m n : Nat} (h : SquareBlocks next m n a₁ a₂ a₃)
    (u w x : Nat → K) : ∃ x', (∀ j < next, x' j = x j) ∧ SquareColumns a₁ a₂ a₃ u w x' := by
  let x₁ := extend x next fun i => (w i + 1) * 2⁻¹
  obtain ⟨x', hlt, hinput, hdifference⟩ :=
    exists_extend_extend x₁ u (fun i => (-w i + 1) * 2⁻¹) (next + m) n
  obtain ⟨hfirst₁, hsize₁, hfirst₂, hsize₂, hfirst₃, hsize₃⟩ := h
  refine ⟨x', fun j hj => ?_, ⟨fun i hi => ?_, fun i hi => ?_, fun i _ => ?_⟩⟩
  · rw [hlt j (by omega)]
    exact extend_of_lt hj
  · rw [hfirst₁, hlt _ (by omega)]
    exact extend_add i
  · rw [hfirst₂]
    exact hinput i (by omega)
  · rw [hfirst₃]
    exact hdifference i

variable {input output : Affine K}

/-- The rows of a squaring function set its columns from the input and the output. -/
theorem exists_squareRows (records : Block → Block → Block → List (List Nat)) {n : Nat}
    (hn : n ≤ next) (hin : input.Within id n) (hout : output.Within id n) :
    ∃ a₁ a₂ a₃ rows, expandSquares id next input output records =
        .ok { blocks := [a₁, a₂, a₃], rows := rows, bounds := [a₃.nonneg],
              records := records a₁ a₂ a₃ } ∧
      (∀ b ∈ [a₁, a₂, a₃], b.type = .continuous) ∧
      SquareBlocks next output.size input.size a₁ a₂ a₃ ∧
      (∀ c ∈ rows, c.linear.ncols ≤ a₃.stop) ∧
      (∀ i < output.size, ∃ c ∈ rows, c.Mentions (a₃.first + i)) ∧
      List.Forall₂ (LinearConstraint.Ties n) [a₁, a₂, a₃] rows ∧
      ∀ x, (∀ c ∈ rows, c.Holds x) ↔
        SquareColumns a₁ a₂ a₃ (input.value x) (output.value x) x := by
  obtain ⟨a₁, h₁⟩ : ∃ a, a = Block.auxiliary id next output.shape := ⟨_, rfl⟩
  obtain ⟨a₂, h₂⟩ : ∃ a, a = Block.auxiliary id a₁.stop input.shape := ⟨_, rfl⟩
  obtain ⟨a₃, h₃⟩ : ∃ a, a = Block.auxiliary id a₂.stop output.shape := ⟨_, rfl⟩
  have hblocks : SquareBlocks next output.size input.size a₁ a₂ a₃ := by
    subst h₁ h₂ h₃
    exact ⟨rfl, rfl, rfl, rfl, rfl, rfl⟩
  have ⟨hfirst₁, hsize₁, hfirst₂, hsize₂, hfirst₃, hsize₃⟩ := hblocks
  have hstop₁ : a₁.stop ≤ a₃.stop := by unfold Block.stop; omega
  have hstop₂ : a₂.stop ≤ a₃.stop := by unfold Block.stop; omega
  have hlo : n ≤ a₃.stop := by unfold Block.stop; omega
  obtain ⟨r₁, c₁, hr₁, hc₁, hd₁⟩ :=
    exists_halfRows (b := a₁) (hout.mono hlo) (by rw [h₁]; rfl) hstop₁ (by rw [h₁]; rfl)
  obtain ⟨r₂, c₂, hr₂, hc₂, hd₂⟩ :=
    exists_copiedRows (b := a₂) (hin.mono hlo) (by rw [h₂]; rfl) hstop₂ (by rw [h₂]; rfl)
  obtain ⟨r₃, c₃, hr₃, hc₃, hd₃⟩ :=
    exists_halfRows (b := a₃) (hout.mono hlo).neg (by rw [h₃]; rfl) le_rfl (by rw [h₃]; rfl)
  refine ⟨a₁, a₂, a₃, [c₁, c₂, c₃], ?_, ?_, hblocks, ?_, fun i hi => ⟨c₃, by simp, ?_⟩,
    .cons ?_ (.cons ?_ (.cons ?_ .nil)), fun x => ?_⟩
  · unfold expandSquares
    simp only [← h₁, ← h₂, ← h₃, hr₁, hc₁, hr₂, hc₂, hr₃, hc₃, bind, Except.bind, pure, Except.pure]
  · simp [h₁, h₂, h₃, Block.auxiliary]
  · simpa using ⟨hd₁.ncols_le, hd₂.ncols_le, hd₃.ncols_le⟩
  · refine hd₃.mentions hi ?_
    rw [Affine.value_neg, Affine.value_neg, hout.value_single (by omega)]
    simp
  · exact hd₁.ties hout hsize₁ fun x x' i ha hx => by rw [ha, hx]
  · exact hd₂.ties hin hsize₂ fun x x' i ha hx => by rw [ha, hx]
  · exact hd₃.ties hout.neg hsize₃ fun x x' i ha hx => by rw [ha, hx]
  · rw [List.forall_mem_cons, List.forall_mem_cons, List.forall_mem_singleton, hd₁.holds_eq_iff,
      hd₂.holds_eq_iff, hd₃.holds_eq_iff]
    simp only [Affine.value_neg, Affine.size_neg]
    constructor
    · rintro ⟨hsum, hinput, hdifference⟩
      exact ⟨by rwa [hsize₁], by rwa [hsize₂], by rwa [hsize₃]⟩
    · rintro ⟨hsum, hinput, hdifference⟩
      rw [hsize₁] at hsum
      rw [hsize₂] at hinput
      rw [hsize₃] at hdifference
      exact ⟨hsum, hinput, hdifference⟩

/-- A squaring function realizes `P` if this is what the bounds and records say where the
columns of the blocks are set from the input and the output. -/
theorem exists_expandSquares (records : Block → Block → Block → List (List Nat))
    (P : (Nat → K) → (Nat → K) → Prop) (hin : input.Within id next) (hout : output.Within id next)
    (hrecords : ∀ a₁ a₂ a₃, SquareBlocks next output.size input.size a₁ a₂ a₃ →
      ∀ r ∈ records a₁ a₂ a₃, (∃ i < output.size, r.head? = some (a₃.first + i)) ∧
        ∀ j ∈ r, next ≤ j ∧ j < a₃.stop)
    (hP : ∀ a₁ a₂ a₃, SquareBlocks next output.size input.size a₁ a₂ a₃ →
      ∀ u w x : Nat → K, SquareColumns a₁ a₂ a₃ u w x →
        ((∀ i < a₃.size, 0 ≤ x (a₃.first + i)) ∧ (∀ r ∈ records a₁ a₂ a₃, RecordHolds x r) ↔
          P u w)) :
    ∃ e, expandSquares id next input output records = .ok e ∧
      e.Realizes next fun x => P (input.value x) (output.value x) := by
  obtain ⟨a₁, a₂, a₃, rows, he, htypes, hblocks, hw, hhead, -, hrows⟩ :=
    exists_squareRows records le_rfl hin hout
  have hend := hblocks.next_add_totalSize
  have hlo : next ≤ a₃.first := by have := hblocks.first₃; omega
  refine ⟨_, he, ⟨htypes, ?_, ?_, ?_, ?_⟩, fun x hx => ?_, fun x hx => ?_⟩
  · simpa only [Expansion.width, hend] using hw
  · refine List.forall_mem_singleton.mpr ⟨rfl, fun q hq => ?_⟩
    obtain ⟨j, hj, rfl⟩ := List.mem_map.mp hq
    have hj := Block.mem_columns.mp hj
    exact ⟨⟨hlo.trans hj.1, hj.2.trans_eq hend.symm⟩, rfl⟩
  · intro r hr
    obtain ⟨⟨i, -, hri⟩, hmem⟩ := hrecords _ _ _ hblocks r hr
    refine ⟨fun hnil => by simp [hnil] at hri, fun j hj => ?_⟩
    exact ⟨(hmem j hj).1, (hmem j hj).2.trans_eq hend.symm⟩
  · intro r hr j hj
    obtain ⟨⟨i, hi, hri⟩, -⟩ := hrecords _ _ _ hblocks r hr
    obtain rfl : a₃.first + i = j := Option.some.inj (hri.symm.trans hj)
    exact hhead i hi
  · refine (hP _ _ _ hblocks _ _ x ((hrows x).mp hx.rows)).mp ⟨?_, hx.records⟩
    exact holds_nonneg_iff.mp (hx.bounds _ (List.mem_singleton_self _))
  · obtain ⟨x', hlt, hcolumns⟩ := hblocks.exists_squareColumns (input.value x) (output.value x) x
    obtain ⟨hbounds, hrec⟩ := (hP _ _ _ hblocks _ _ x' hcolumns).mpr hx
    refine ⟨x', hlt, (hrows x').mpr ?_, ?_, hrec⟩
    · rwa [funext (hin.value_congr hlt), funext (hout.value_congr hlt)]
    · exact List.forall_mem_singleton.mpr (holds_nonneg_iff.mpr hbounds)

/-- The squares of all elements, with a record for each. -/
theorem exists_expandSquare (hin : input.Within id next) (hout : output.Within id next)
    (hsize : output.size = input.size) :
    ∃ e, expandSquares id next input output elementRecords = .ok e ∧
      e.Realizes next fun x => ConicKind.square.Holds input.size (input.value x)
        (output.value x) := by
  have hforall : ∀ {a₁ a₂ a₃ : Block} {p : List Nat → Prop},
      (∀ r ∈ elementRecords a₁ a₂ a₃, p r) ↔
        ∀ i < a₂.size, p [a₃.first + i, a₁.first + i, a₂.first + i] := by
    simp [elementRecords]
  refine exists_expandSquares elementRecords (fun u w => ConicKind.square.Holds input.size u w)
    hin hout (fun a₁ a₂ a₃ hb => hforall.mpr fun i hi => ?_) fun a₁ a₂ a₃ hb u w x hx => ?_
  · obtain ⟨hfirst₁, hsize₁, hfirst₂, hsize₂, hfirst₃, hsize₃⟩ := hb
    refine ⟨⟨i, by omega, rfl⟩, ?_⟩
    simp only [Block.stop, List.mem_cons, List.not_mem_nil, or_false]
    rintro j (rfl | rfl | rfl) <;> omega
  · obtain ⟨hsum, hinput, hdifference⟩ := hx
    rw [hb.size₁, hsize] at hsum
    rw [hb.size₂] at hinput
    rw [hb.size₃, hsize] at hdifference
    rw [hforall, hb.size₃, hsize, hb.size₂, ← forall₂_and]
    refine forall₂_congr fun i hi => ?_
    rw [← half_sq_add_le_iff (sq_nonneg (u i)), RecordHolds, hdifference i hi]
    simp [hsum i hi, hinput i hi]

/-- The sum of the squares, with one record. -/
theorem exists_expandSumSquares (hin : input.Within id next) (hout : output.Within id next)
    (hone : output.size = 1) :
    ∃ e, expandSquares id next input output jointRecord = .ok e ∧
      e.Realizes next fun x => ConicKind.sumSquares.Holds input.size (input.value x)
        (output.value x) := by
  refine exists_expandSquares jointRecord (fun u w => ConicKind.sumSquares.Holds input.size u w)
    hin hout (fun a₁ a₂ a₃ hb => List.forall_mem_singleton.mpr ⟨⟨0, by omega, rfl⟩, ?_⟩)
    fun a₁ a₂ a₃ hb u w x hx => ?_
  · obtain ⟨hfirst₁, hsize₁, hfirst₂, hsize₂, hfirst₃, hsize₃⟩ := hb
    simp only [Block.stop, List.mem_cons, Block.mem_columns]
    rintro j (rfl | rfl | hj) <;> omega
  · have hone₁ : a₁.size = 1 := hb.size₁.trans hone
    have hone₃ : a₃.size = 1 := hb.size₃.trans hone
    have hhalf : x a₁.first = (w 0 + 1) * 2⁻¹ := hx.sum 0 (by omega)
    have hhead : x a₃.first = (-w 0 + 1) * 2⁻¹ := hx.difference 0 (by omega)
    have hsum : ((a₁.first :: a₂.columns).map fun j => x j ^ 2).sum =
        ((w 0 + 1) * 2⁻¹) ^ 2 + ∑ i ∈ Finset.range input.size, u i ^ 2 := by
      rw [List.map_cons, List.sum_cons, sum_map_columns a₂ fun j => x j ^ 2, hb.size₂, hhalf]
      refine congrArg _ (Finset.sum_congr rfl fun i hi => ?_)
      rw [hx.input i ((Finset.mem_range.mp hi).trans_eq hb.size₂.symm)]
    have hnonneg : 0 ≤ ∑ i ∈ Finset.range input.size, u i ^ 2 :=
      Finset.sum_nonneg fun i _ => sq_nonneg _
    rw [jointRecord, List.forall_mem_singleton, RecordHolds, hsum, hone₃]
    simp only [Nat.lt_one_iff, forall_eq, Nat.add_zero]
    rw [hhead, half_sq_add_le_iff hnonneg, ConicKind.Holds]
    refine ⟨fun h => h.2, fun h => ⟨?_, h⟩⟩
    exact ((half_sq_add_le_iff hnonneg).mpr h).1

end Squares

/-- A constraint on a function described by cones has an expansion. -/
theorem exists_expandConic {c : ConvexConstraint ConicKind K}
    (hc : c.Scoped ConicKind.elementwise id next) :
    ∃ e, c.expandConic id next = .ok e ∧ e.Realizes next c.ConicHolds := by
  obtain ⟨hin, hout, hsize⟩ := hc
  unfold expandConic ConicHolds
  cases hk : c.kind with
  | norm2 => exact exists_expandNorm hin hout (by rwa [hk] at hsize)
  | square => exact exists_expandSquare hin hout (by rwa [hk] at hsize)
  | sumSquares => exact exists_expandSumSquares hin hout (by rwa [hk] at hsize)

end ConvexConstraint

/-! ## Pieces -/

namespace Piece

/-- Whether the constraint of a piece holds. -/
def Holds (x : Nat → K) : Piece K → Prop
  | rows c => c.Holds x
  | piecewise c => c.PiecewiseHolds x
  | conic c => c.ConicHolds x

theorem Holds.congr {id : ModelId} {n : Nat} {p : Piece K} (hp : p.Scoped id n) {x x' : Nat → K}
    (h : ∀ j < n, x j = x' j) (hx : p.Holds x) : p.Holds x' := by
  cases p with
  | rows c => exact LinearConstraint.Holds.congr (fun j hj => h j (hj.trans_le hp)) hx
  | piecewise c => exact ConvexConstraint.PiecewiseHolds.congr hp h hx
  | conic c => exact ConvexConstraint.ConicHolds.congr hp h hx

variable [IsStrictOrderedRing K] {id : ModelId} {next : Nat}

/-- **A piece over the columns of a model has an expansion that realizes it.** -/
theorem exists_expand {p : Piece K} (hp : p.Scoped id next) :
    ∃ e, p.expand id next = .ok e ∧ e.Realizes next fun x => p.Holds x := by
  cases p with
  | rows c =>
    refine ⟨_, rfl, Expansion.realizes_rows (List.forall_mem_singleton.mpr hp) fun x => ?_⟩
    exact List.forall_mem_singleton
  | piecewise c => exact ConvexConstraint.exists_expandPiecewise hp
  | conic c => exact ConvexConstraint.exists_expandConic hp

end Piece

/-- **Pieces in order have expansions that realize all of them.** The pieces are over the first
`n` columns of a model, and auxiliary columns start at `next`, behind these. -/
theorem exists_expandAll [IsStrictOrderedRing K] {id : ModelId} {n next : Nat} (hn : n ≤ next)
    {ps : List (Piece K)} (hps : ∀ p ∈ ps, p.Scoped id n) :
    ∃ e, expandAll id next ps = .ok e ∧ e.Realizes next fun x => ∀ p ∈ ps, p.Holds x := by
  induction ps generalizing next with
  | nil => exact ⟨_, rfl, Expansion.realizes_rows (by simp) fun x => by simp⟩
  | cons p ps ih =>
    obtain ⟨hp, hps⟩ := List.forall_mem_cons.mp hps
    obtain ⟨e, he, hre⟩ := p.exists_expand (hp.mono hn)
    obtain ⟨f, hf, hrf⟩ := ih (hn.trans (Nat.le_add_right next e.width)) hps
    have hcongr : ∀ x x' : Nat → K, (∀ j < next, x j = x' j) →
        (∀ q ∈ ps, q.Holds x) → ∀ q ∈ ps, q.Holds x' := fun x x' h hx q hq =>
      (hx q hq).congr (hps q hq) fun j hj => h j (hj.trans_le hn)
    refine ⟨e.append f, ?_, (hre.append hrf hcongr).congr fun x => List.forall_mem_cons.symm⟩
    simp only [expandAll, he, hf, bind, Except.bind, pure, Except.pure]

end ConicForm
