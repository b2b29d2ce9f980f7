import ConicForm.Proofs.Canonical.Widening
import ConicForm.Proofs.Matrix.Insertion

/-!
# Programs with columns inserted

Columns that are declared stand behind those that were declared before, and in front of auxiliary
ones. Pieces refer to the former only, so they have the same expansion, moved behind the new
columns: the same rows, and bounds and records on auxiliary columns that have moved up. The program
with the columns is the one without them, with columns inserted that nothing refers to.

## Main definitions

* `LinearProgram.insertColumns`, `ConeProgram.insertColumns`: programs with columns in a gap
* `Expansion.Shifts`: expansions that differ in a gap, with their bounds and records

## Main results

* `shifts_expandAll`: pieces behind a gap
* `Store.assembled_declare`, `ConeStore.assembled_declare`: programs with a block declared
-/

namespace ConicForm

variable {α : Type} [Scalar α]

/-! ## Columns in a gap -/

/-- A program with columns of one type in a gap, which have no coefficients, and are bounded by
their type only. -/
def LinearProgram.insertColumns (p : LinearProgram α) (g : Gap) (type : VariableType) :
    LinearProgram α where
  linear := p.linear.insertColumns g
  constants := p.constants
  senses := p.senses
  types := g.fill type p.types
  upper := g.fill (Store.typeBound .upper type) p.upper
  lower := g.fill (Store.typeBound .lower type) p.lower
  objective := g.fill 0 p.objective

/-- A program with columns in a gap, which are in no record. -/
def ConeProgram.insertColumns (p : ConeProgram α) (g : Gap) (type : VariableType) :
    ConeProgram α where
  linear := p.linear.insertColumns g type
  records := p.records.map (·.map g.widen)

omit [Scalar α] in
/-- Bounds of columns that are moved behind a gap. -/
def Bounds.widen (g : Gap) (b : Bounds α) : Bounds α :=
  { b with items := b.items.map fun (j, x) => (g.widen j, x) }

section Fixed

variable {g : Gap}

/-- Columns in front of a gap stay where they are. -/
theorem Gap.map_widen_eq_self {js : List Nat} (h : ∀ j ∈ js, j < g.start) :
    js.map g.widen = js :=
  (List.map_congr_left fun j hj => g.widen_of_lt (h j hj)).trans (List.map_id js)

omit [Scalar α] in
theorem Bounds.widen_eq_self {b : Bounds α} (h : ∀ q ∈ b.items, q.1 < g.start) :
    b.widen g = b := by
  have hitems : b.items.map (fun (j, x) => (g.widen j, x)) = b.items := by
    refine (List.map_congr_left fun q hq => ?_).trans (List.map_id _)
    exact Prod.ext (Gap.widen_of_lt (h q hq)) rfl
  rw [widen, hitems]

theorem Block.Widens.nonneg_eq {b b' : Block} (h : b.Widens g b') :
    (b'.nonneg : Bounds α) = b.nonneg.widen g := by
  simp [nonneg, Bounds.uniform, Bounds.widen, h.owner, h.columns_eq]

end Fixed

/-! ## Expansions behind a gap -/

/-- Expansions that differ in a gap, with bounds and records on the columns that are moved. -/
structure Expansion.Shifts (g : Gap) (e e' : Expansion α) : Prop extends e.Widens g e' where
  bounds : e'.bounds = e.bounds.map (·.widen g)
  records : e'.records = e.records.map (·.map g.widen)

theorem Expansion.Shifts.append {g : Gap} {e e' f f' : Expansion α} (he : e.Shifts g e')
    (hf : f.Shifts g f') : (e.append f).Shifts g (e'.append f') where
  toWidens := he.toWidens.append hf.toWidens
  bounds := by simp [Expansion.append, he.bounds, hf.bounds]
  records := by simp [Expansion.append, he.records, hf.records]

namespace ConvexConstraint

variable {id : ModelId} {g : Gap} {next : Nat} {e e' : Expansion α}

theorem shifts_expandNorm {input output : Affine α} (hin : input.Within id g.start)
    (hout : output.Within id g.start) (hle : g.start ≤ next)
    (h : expandNorm id next input output = .ok e)
    (h' : expandNorm id (next + g.length) input output = .ok e') : e.Shifts g e' := by
  obtain ⟨left, right, r₁, r₂, c₁, c₂, rfl, rfl, ⟨hr₁, hc₁⟩, ⟨hr₂, hc₂⟩, rfl⟩ :=
    of_expandNorm_eq_ok h
  obtain ⟨left', right', r₁', r₂', c₁', c₂', rfl, rfl, ⟨hr₁', hc₁'⟩, ⟨hr₂', hc₂'⟩, rfl⟩ :=
    of_expandNorm_eq_ok h'
  have hleft := Block.widens_auxiliary hle id input.shape
  have hright := hleft.auxiliary_stop id output.shape
  have h₁ := hin.widens_sub_ofBlock hleft rfl hr₁ hr₁'
  have h₂ := hout.widens_sub_ofBlock hright rfl hr₂ hr₂'
  refine ⟨⟨rfl, .cons (h₁.eq_zero hc₁ hc₁') (.cons (h₂.eq_zero hc₂ hc₂') .nil)⟩, rfl, ?_⟩
  rw [List.map_singleton, List.map_cons, hright.widen_first, hleft.columns_eq]

theorem shifts_expandSquares {input output : Affine α}
    {records : Block → Block → Block → List (List Nat)} (hin : input.Within id g.start)
    (hout : output.Within id g.start) (hle : g.start ≤ next)
    (hrecords : ∀ {a₁ a₂ a₃ a₁' a₂' a₃' : Block}, a₁.Widens g a₁' → a₂.Widens g a₂' →
      a₃.Widens g a₃' → records a₁' a₂' a₃' = (records a₁ a₂ a₃).map (·.map g.widen))
    (h : expandSquares id next input output records = .ok e)
    (h' : expandSquares id (next + g.length) input output records = .ok e') : e.Shifts g e' := by
  obtain ⟨a₁, a₂, a₃, r₁, r₂, r₃, c₁, c₂, c₃, rfl, rfl, rfl, ⟨hr₁, hc₁⟩, ⟨hr₂, hc₂⟩,
    ⟨hr₃, hc₃⟩, rfl⟩ := of_expandSquares_eq_ok h
  obtain ⟨a₁', a₂', a₃', r₁', r₂', r₃', c₁', c₂', c₃', rfl, rfl, rfl, ⟨hr₁', hc₁'⟩,
    ⟨hr₂', hc₂'⟩, ⟨hr₃', hc₃'⟩, rfl⟩ := of_expandSquares_eq_ok h'
  have ha₁ := Block.widens_auxiliary hle id output.shape
  have ha₂ := ha₁.auxiliary_stop id input.shape
  have ha₃ := ha₂.auxiliary_stop id output.shape
  have h₁ := ((hout.offset 1).scale Scalar.half).widens_ofBlock_sub ha₁ rfl hr₁ hr₁'
  have h₂ := hin.widens_ofBlock_sub ha₂ rfl hr₂ hr₂'
  have h₃ := ((hout.neg.offset 1).scale Scalar.half).widens_ofBlock_sub ha₃ rfl hr₃ hr₃'
  refine ⟨⟨rfl, .cons (h₁.eq_zero hc₁ hc₁') (.cons (h₂.eq_zero hc₂ hc₂')
    (.cons (h₃.eq_zero hc₃ hc₃') .nil))⟩, ?_, hrecords ha₁ ha₂ ha₃⟩
  rw [List.map_singleton, ha₃.nonneg_eq]

theorem elementRecords_widens {a₁ a₂ a₃ a₁' a₂' a₃' : Block} (h₁ : a₁.Widens g a₁')
    (h₂ : a₂.Widens g a₂') (h₃ : a₃.Widens g a₃') :
    elementRecords a₁' a₂' a₃' = (elementRecords a₁ a₂ a₃).map (·.map g.widen) := by
  simp [elementRecords, h₂.size, h₁.widen_first_add, h₂.widen_first_add, h₃.widen_first_add]

theorem jointRecord_widens {a₁ a₂ a₃ a₁' a₂' a₃' : Block} (h₁ : a₁.Widens g a₁')
    (h₂ : a₂.Widens g a₂') (h₃ : a₃.Widens g a₃') :
    jointRecord a₁' a₂' a₃' = (jointRecord a₁ a₂ a₃).map (·.map g.widen) := by
  simp [jointRecord, h₁.widen_first, h₂.columns_eq, h₃.widen_first]

theorem Scoped.shifts_expandConic {c : ConvexConstraint ConicKind α}
    (hc : c.Scoped ConicKind.elementwise id g.start) (hle : g.start ≤ next)
    (h : c.expandConic id next = .ok e) (h' : c.expandConic id (next + g.length) = .ok e') :
    e.Shifts g e' := by
  unfold expandConic at h h'
  cases hk : c.kind with
  | norm2 =>
    rw [hk] at h h'
    exact shifts_expandNorm hc.input hc.output hle h h'
  | square =>
    rw [hk] at h h'
    exact shifts_expandSquares hc.input hc.output hle elementRecords_widens h h'
  | sumSquares =>
    rw [hk] at h h'
    exact shifts_expandSquares hc.input hc.output hle jointRecord_widens h h'

end ConvexConstraint

/-- **A piece in front of a gap has the same expansion behind it.** -/
theorem Piece.Scoped.shifts_expand {id : ModelId} {g : Gap} {next : Nat} {p : Piece α}
    (hp : p.Scoped id g.start) (hle : g.start ≤ next) {e e' : Expansion α}
    (h : p.expand id next = .ok e) (h' : p.expand id (next + g.length) = .ok e') :
    e.Shifts g e' := by
  cases p with
  | rows c =>
    cases h
    cases h'
    exact ⟨⟨rfl, .cons (LinearConstraint.widens_of_ncols_le hp) .nil⟩, rfl, rfl⟩
  | piecewise c =>
    have hplain := ConvexConstraint.plain_expandPiecewise h
    have hplain' := ConvexConstraint.plain_expandPiecewise h'
    refine ⟨ConvexConstraint.widens_expandPiecewise hp hle h h', ?_, ?_⟩
    · rw [hplain'.bounds, hplain.bounds, List.map_nil]
    · rw [hplain'.records, hplain.records, List.map_nil]
  | conic c => exact ConvexConstraint.Scoped.shifts_expandConic hp hle h h'

/-- **So have pieces one after another.** -/
theorem shifts_expandAll {id : ModelId} {g : Gap} {next : Nat} {ps : List (Piece α)}
    {e e' : Expansion α} (hps : ∀ p ∈ ps, p.Scoped id g.start) (hle : g.start ≤ next)
    (h : expandAll id next ps = .ok e) (h' : expandAll id (next + g.length) ps = .ok e') :
    e.Shifts g e' := by
  induction ps generalizing next e e' with
  | nil =>
    cases h
    cases h'
    exact ⟨⟨rfl, .nil⟩, rfl, rfl⟩
  | cons p ps ih =>
    obtain ⟨hp, hps⟩ := List.forall_mem_cons.mp hps
    obtain ⟨f, k, hf, hk, rfl⟩ := of_expandAll_cons_eq_ok h
    obtain ⟨f', k', hf', hk', rfl⟩ := of_expandAll_cons_eq_ok h'
    have hfirst := hp.shifts_expand hle hf hf'
    rw [hfirst.width, Nat.add_right_comm] at hk'
    exact hfirst.append (ih hps (hle.trans (Nat.le_add_right _ _)) hk hk')

/-! ## Programs with a block declared -/

namespace Store

section ApplyBounds

omit [Scalar α]

/-- Bounds that are set behind a gap that is filled. -/
theorem applyBounds_fill {g : Gap} {side : Side} {bs : List (Bounds α)} {x : Bound α}
    {xs : List (Bound α)} (h : g.start ≤ xs.length) :
    applyBounds side (bs.map (·.widen g)) (g.fill x xs) = g.fill x (applyBounds side bs xs) := by
  have hitems : ((bs.map (·.widen g)).filter (·.side = side)).flatMap (·.items) =
      ((bs.filter (·.side = side)).flatMap (·.items)).map fun (j, y) => (g.widen j, y) := by
    rw [List.filter_map, List.flatMap_map, List.map_flatMap]
    rfl
  rw [applyBounds_eq_foldl, applyBounds_eq_foldl, hitems, Gap.foldl_set_fill h]

end ApplyBounds

variable {s : Store α} {e e' : Expansion α} (shape : Shape) (type : VariableType)
  (name : Option String)

/-- The gap that a block of a shape fills, behind the columns of the store. -/
def gap (s : Store α) (shape : Shape) : Gap := ⟨s.columnCount, shape.size⟩

theorem blocks_declare : (s.declare shape type name).2.blocks =
    s.blocks ++ [⟨s.id, s.columnCount, shape, type, name⟩] := rfl

variable (hshifts : e.Shifts (s.gap shape) e')

include hshifts

theorem width_declare : (s.declare shape type name).2.columnCount + e'.width =
    s.columnCount + e.width + (s.gap shape).length := by
  rw [columnCount_declare, hshifts.width]
  exact Nat.add_right_comm ..

theorem types_declare : Block.types ((s.declare shape type name).2.blocks ++ e'.blocks) =
    (s.gap shape).fill type (Block.types (s.blocks ++ e.blocks)) := by
  have hstart : (Block.types s.blocks).length = (s.gap shape).start := Block.length_types _
  rw [blocks_declare, Block.types_append, Block.types_append, Block.types_append, hshifts.types,
    Gap.fill_append hstart]
  simp [gap, Block.size, Block.types]

theorem bounds_declare (hbounds : ∀ b ∈ s.bounds, ∀ q ∈ b.items, q.1 < s.columnCount) (side : Side)
    (f : VariableType → Bound α) :
    applyBounds side (s.bounds ++ e'.bounds)
        ((Block.types ((s.declare shape type name).2.blocks ++ e'.blocks)).map f) =
      (s.gap shape).fill (f type) (applyBounds side (s.bounds ++ e.bounds)
        ((Block.types (s.blocks ++ e.blocks)).map f)) := by
  have hstay : s.bounds.map (·.widen (s.gap shape)) = s.bounds :=
    (List.map_congr_left fun b hb => Bounds.widen_eq_self (hbounds b hb)).trans (List.map_id _)
  have hstart : (s.gap shape).start ≤ ((Block.types (s.blocks ++ e.blocks)).map f).length := by
    rw [List.length_map, Block.length_types, Block.totalSize_append]
    exact Nat.le_add_right _ _
  rw [types_declare shape type name hshifts, Gap.map_fill, ← applyBounds_fill hstart,
    List.map_append, hstay, hshifts.bounds]

theorem objective_declare : ((s.declare shape type name).2.assembled e').objective =
    (s.gap shape).fill 0 (s.assembled e).objective := by
  have hpos : 0 < (s.gap shape).start := s.columnCount_pos
  have hle : (s.gap shape).start ≤ s.columnCount + e.width := Nat.le_add_right _ _
  refine Gap.eq_fill ?_ (fun j hj => ?_) fun j => ?_
  · rw [assembled, List.length_map, List.length_range]
    exact hle
  · unfold Gap.Outside Gap.stop at hj
    have hlt : j < (s.declare shape type name).2.columnCount + e'.width := by
      rw [width_declare shape type name hshifts]
      omega
    rw [assembled, List.getElem?_map, List.getElem?_range hlt]
    have hne : j ≠ 0 := by omega
    simp [hne]
  · have hzero : (s.gap shape).widen j = 0 ↔ j = 0 := by
      unfold Gap.widen
      split <;> omega
    rw [assembled, assembled, List.getElem?_map, List.getElem?_map,
      width_declare shape type name hshifts]
    by_cases hj : j < s.columnCount + e.width
    · rw [List.getElem?_range ((Gap.widen_lt_iff hle).mpr hj), List.getElem?_range hj]
      simp [hzero, declare]
    · have hj' := (Gap.widen_lt_iff hle).not.mpr hj
      rw [List.getElem?_eq_none (by simpa using hj'), List.getElem?_eq_none (by simpa using hj)]
      rfl

/-- **The assembled program of a store with a block declared** is the one before, with the columns
of the block inserted behind those of the store. -/
theorem assembled_declare (hrows : ∀ c ∈ s.rows, c.linear.ncols ≤ s.columnCount)
    (hbounds : ∀ b ∈ s.bounds, ∀ q ∈ b.items, q.1 < s.columnCount) (he : e.Scoped s.columnCount)
    (he' : e'.Scoped (s.declare shape type name).2.columnCount) :
    (s.declare shape type name).2.assembled e' =
      (s.assembled e).insertColumns (s.gap shape) type := by
  have hwidth := width_declare shape type name hshifts
  have hwidens : List.Forall₂ (LinearConstraint.Widens (s.gap shape)) (s.rows ++ e.rows)
      (s.rows ++ e'.rows) :=
    List.rel_append (List.forall₂_same.mpr fun c hc =>
      LinearConstraint.widens_of_ncols_le (hrows c hc)) hshifts.rows
  have hncols : ∀ c ∈ s.rows ++ e.rows, c.linear.ncols ≤ s.columnCount + e.width :=
    List.forall_mem_append.mpr
      ⟨fun c hc => (hrows c hc).trans (Nat.le_add_right _ _), he.rows⟩
  have hncols' : ∀ c ∈ s.rows ++ e'.rows,
      c.linear.ncols ≤ s.columnCount + e.width + (s.gap shape).length := by
    rw [← hwidth]
    refine List.forall_mem_append.mpr ⟨fun c hc => (hrows c hc).trans ?_, he'.rows⟩
    rw [columnCount_declare, Nat.add_assoc]
    exact Nat.le_add_right _ _
  unfold LinearProgram.insertColumns
  rw [assembled, LinearProgram.mk.injEq]
  refine ⟨?_, ?_, ?_, ?_, ?_, ?_, ?_⟩
  · show SparseMatrix.stack ((s.rows ++ e'.rows).map (·.linear)) _ = _
    rw [hwidth]
    refine SparseMatrix.stack_eq_insertColumns ?_ (List.forall_mem_map.mpr hncols)
      (List.forall_mem_map.mpr hncols')
    exact LinearConstraint.forall₂_widens_linear hwidens
  · exact (flatMap_eq_of_forall₂ (hwidens.imp fun _ _ h => h.constant.symm)).symm
  · refine (flatMap_eq_of_forall₂ (hwidens.imp fun c c' h => ?_)).symm
    rw [h.sense, LinearConstraint.length, LinearConstraint.length, h.linear.nrows]
  · exact types_declare shape type name hshifts
  · refine (bounds_declare shape type name hshifts hbounds .upper _).trans ?_
    rw [typeBounds_eq]
    rfl
  · refine (bounds_declare shape type name hshifts hbounds .lower _).trans ?_
    rw [typeBounds_eq]
    rfl
  · exact objective_declare shape type name hshifts

end Store

/-- **The assembled cone program of a store with a block declared.** Records on auxiliary columns
move with these. -/
theorem ConeStore.assembled_declare {s : ConeStore α} {e e' : Expansion α} (shape : Shape)
    (type : VariableType) (name : Option String)
    (hlinear : (s.linear.declare shape type name).2.assembled e' =
      (s.linear.assembled e).insertColumns (s.linear.gap shape) type)
    (hshifts : e.Shifts (s.linear.gap shape) e')
    (hcones : ∀ c ∈ s.cones, ∀ j ∈ c.record, j < s.linear.columnCount) :
    ConeStore.assembled { s with linear := (s.linear.declare shape type name).2 } e' =
      (s.assembled e).insertColumns (s.linear.gap shape) type := by
  have hstay : (s.cones.map (·.record)).map (·.map (s.linear.gap shape).widen) =
      s.cones.map (·.record) := by
    rw [List.map_map]
    exact List.map_congr_left fun c hc => Gap.map_widen_eq_self (hcones c hc)
  unfold ConeProgram.insertColumns
  rw [ConeStore.assembled, hlinear, hshifts.records]
  simp only [ConeStore.assembled, List.map_append, hstay]

end ConicForm
