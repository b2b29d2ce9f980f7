import ConicForm.Proofs.Canonical.Assembly
import ConicForm.Proofs.Canonical.Objective

/-!
# Canonical programs exist

A valid store has a canonical program, over any scalars: the objective has a piece, the pieces have
an expansion behind the declared columns, and no check of the assembly fails. The program has the
declared columns with their types in front, and continuous ones behind.

## Main definitions

* `ConeStore.assembled`: the canonical program, given an expansion of the pieces
* `LinearProgram.Over`: programs whose first columns are those of blocks

## Main results

* `ConeStore.Valid.exists_coneProgram_scoped`, `Store.Valid.exists_linearProgram`: the canonical
  programs of valid stores
* `Store.assembled_over`: the columns of an assembled program
-/

namespace ConicForm

variable {α : Type} [Scalar α]

/-! ## The piece of the objective -/

/-- A convex expression has a constraint under a scalar. -/
theorem ConvexExpression.Scoped.exists_le {id : ModelId} {n : Nat} {c : ConvexExpression α}
    {a : Affine α} (hc : c.Scoped id n) (hcurv : c.curvature = .convex) (ha : a.Within id n)
    (hs : a.shape = .scalar) : ∃ v, c.le a = .ok v ∧ v.kind = c.kind := by
  have helem : c.offset.shape.elementwise a.shape = some c.offset.shape :=
    hs ▸ Shape.elementwise_scalar _
  obtain ⟨r, hr, hrs, hrw⟩ := hc.offset.exists_sub ha helem
  have hrsize : r.size = if c.kind.elementwise then c.input.size else 1 := by
    rw [Affine.size, hrs]
    exact hc.size
  obtain ⟨f, hf, -, -⟩ := ConvexConstraint.exists_fitResidual hrsize
  exact ⟨_, le_eq_ok hcurv hr (hc.input.mergeOwners hrw) hf, rfl⟩

/-- Convex constraints other than on the exponential are pieces. -/
theorem Piece.exists_ofConvex_scoped {id : ModelId} {n : Nat}
    {v : ConvexConstraint ConvexKind α} (hv : v.Scoped ConvexKind.elementwise id n)
    (hexp : v.kind ≠ .exp) :
    ∃ p, ofConvex v = .ok p ∧ p.Scoped id n ∧ ∀ c, p = .conic c → v.kind = .conic c.kind := by
  obtain ⟨owner, input, output, kind⟩ := v
  obtain ⟨hin, hout, hsize⟩ := hv
  cases kind with
  | piecewise k =>
    exact ⟨.piecewise ⟨owner, input, output, k⟩, rfl, ⟨hin, hout, hsize⟩, by rintro c ⟨⟩⟩
  | conic k =>
    refine ⟨.conic ⟨owner, input, output, k⟩, rfl, ⟨hin, hout, hsize⟩, ?_⟩
    rintro c ⟨⟩
    rfl
  | exp => exact absurd rfl hexp

namespace Store

variable {handles : ConvexKind → Bool} {s : Store α} {e : Expansion α}

/-- The objective of a valid store has a piece, which is conic only if the model handles its
function. -/
theorem Valid.exists_epigraph_scoped (hs : s.Valid handles) (hexp : handles .exp = false) :
    ∃ o, s.epigraph = .ok o ∧ (∀ p ∈ o, p.Scoped s.id s.columnCount) ∧
      ∀ c ∈ o, ∀ k, c = .conic k → handles (.conic k.kind) = true := by
  unfold epigraph
  have hobjective := hs.objective
  rcases hsome : s.objective with _ | ⟨a | c, goal⟩
  · exact ⟨none, rfl, by simp, by simp⟩
  · obtain ⟨hscoped, -⟩ := hobjective _ hsome
    have hshape : (a.scale goal.factor).shape.elementwise
        (Affine.ofBlock s.objectiveBlock : Affine α).shape = some a.shape :=
      Shape.elementwise_scalar _
    obtain ⟨r, hr, -, hw⟩ :=
      (Affine.Within.scale hscoped goal.factor).exists_sub hs.within_objective hshape
    refine ⟨some (.rows (.ofResidual r .le)), ?_, ?_, ?_⟩
    · simp only [Affine.le, hr, bind, Except.bind, pure, Except.pure]
    · rintro p ⟨⟩
      exact hw.ncols
    · rintro p ⟨⟩ k ⟨⟩
  · obtain ⟨hscoped, hone, hhandles, hcurv⟩ := hobjective _ hsome
    have horient := goal.scoped_orient hscoped
    obtain ⟨v, hv, hkind⟩ :=
      horient.exists_le (Goal.curvature_orient hcurv) hs.within_objective rfl
    rw [Goal.kind_orient] at hkind
    have hne : v.kind ≠ .exp := by
      rw [hkind]
      intro h
      rw [h, hexp] at hhandles
      cases hhandles
    obtain ⟨p, hp, hps, hconic⟩ :=
      Piece.exists_ofConvex_scoped (horient.le hs.within_objective hv) hne
    refine ⟨some p, ?_, by simpa using hps, ?_⟩
    · simp only [hv, hp, bind, Except.bind, pure, Except.pure]
    · rintro p' ⟨⟩ k hk
      rw [← hconic k hk, hkind]
      exact hhandles

/-- An objective on a function that cones describe has a conic piece. -/
theorem Valid.exists_epigraph_conic (hs : s.Valid handles) {c : ConvexExpression α} {goal : Goal}
    {k : ConicKind} (hobjective : s.objective = some (.convex c, goal)) (hk : c.kind = .conic k) :
    ∃ d, s.epigraph = .ok (some (.conic d)) ∧ d.kind = k := by
  obtain ⟨hscoped, hone, -, hcurv⟩ := hs.objective _ hobjective
  obtain ⟨v, hv, hkind⟩ := (goal.scoped_orient hscoped).exists_le (Goal.curvature_orient hcurv)
    hs.within_objective rfl
  rw [Goal.kind_orient, hk] at hkind
  refine ⟨{ v with kind := k }, ?_, rfl⟩
  have hp : Piece.ofConvex v = .ok (.conic { v with kind := k }) := by
    unfold Piece.ofConvex
    rw [hkind]
  unfold epigraph
  rw [hobjective]
  simp only [hv, hp, bind, Except.bind, pure, Except.pure]

/-- No check of the assembly fails on a store over its own columns and an expansion behind them. -/
theorem assemble_eq_ok_of_scoped (hrows : ∀ c ∈ s.rows, c.linear.ncols ≤ s.columnCount)
    (hbounds : ∀ b ∈ s.bounds, ∀ q ∈ b.items, q.1 < s.columnCount) (he : e.Scoped s.columnCount) :
    s.assemble e = .ok (s.assembled e) := by
  have hle : s.columnCount ≤ s.columnCount + e.width := Nat.le_add_right _ _
  refine Store.assemble_eq_ok ?_ ?_
  · exact List.forall_mem_append.mpr ⟨fun c hc => (hrows c hc).trans hle, he.rows⟩
  · refine List.forall_mem_append.mpr ⟨fun b hb q hq => ?_, he.bounds⟩
    exact (hbounds b hb q hq).trans_le hle

theorem Valid.assemble_eq_ok (hs : s.Valid handles) (he : e.Scoped s.columnCount) :
    s.assemble e = .ok (s.assembled e) := assemble_eq_ok_of_scoped hs.rows hs.bounds he

/-- The pieces of the store of a linear model, unless its objective is conic. -/
theorem linearPieces_eq_ok {o : Option (Piece α)} (ho : s.epigraph = .ok o)
    (hconic : ∀ c, o ≠ some (.conic c)) :
    s.linearPieces = .ok (o.toList ++ s.piecewise.map .piecewise) := by
  unfold linearPieces
  rw [ho]
  rcases o with _ | (c | c | c)
  · rfl
  · rfl
  · rfl
  · exact absurd rfl (hconic c)

/-- The pieces of a valid store of a linear model: that of the objective, which is not conic, and
the piecewise-linear constraints. -/
theorem Valid.exists_linearPieces (hs : s.Valid LinearModel.handles) :
    ∃ o, s.epigraph = .ok o ∧ (∀ c, o ≠ some (.conic c)) ∧
      s.linearPieces = .ok (o.toList ++ s.piecewise.map .piecewise) ∧
      ∀ p ∈ o.toList ++ s.piecewise.map .piecewise, p.Scoped s.id s.columnCount := by
  obtain ⟨o, ho, hscoped, hconic⟩ := hs.exists_epigraph_scoped rfl
  have hne : ∀ c, o ≠ some (.conic c) := by
    rintro c rfl
    cases hconic _ rfl c rfl
  refine ⟨o, ho, hne, linearPieces_eq_ok ho hne, ?_⟩
  refine List.forall_mem_append.mpr ⟨fun p hp => hscoped p (Option.mem_toList.mp hp), ?_⟩
  exact List.forall_mem_map.mpr hs.piecewise

/-- The canonical program of a store is the assembled one of an expansion of its pieces. -/
theorem linearProgram_eq_ok {ps : List (Piece α)} (hps : s.linearPieces = .ok ps)
    (he : expandAll s.id s.columnCount ps = .ok e)
    (hassemble : s.assemble e = .ok (s.assembled e)) :
    s.linearProgram = .ok (s.assembled e) := by
  simp only [linearProgram, hps, he, hassemble, bind, Except.bind]

/-- The canonical program of a valid store of a linear model is the assembled one, if its pieces
have an expansion behind its columns. -/
theorem Valid.linearProgram_eq_ok (hs : s.Valid handles) {ps : List (Piece α)} {e : Expansion α}
    (hps : s.linearPieces = .ok ps) (he : expandAll s.id s.columnCount ps = .ok e)
    (hes : e.Scoped s.columnCount) : s.linearProgram = .ok (s.assembled e) :=
  Store.linearProgram_eq_ok hps he (hs.assemble_eq_ok hes)

/-- **A valid store of a linear model has a canonical program.** -/
theorem Valid.exists_linearProgram (hs : s.Valid LinearModel.handles) :
    ∃ e : Expansion α, e.Scoped s.columnCount ∧ s.linearProgram = .ok (s.assembled e) := by
  obtain ⟨o, -, -, hpieces, hps⟩ := hs.exists_linearPieces
  obtain ⟨e, he, hes⟩ := exists_expandAll_scoped le_rfl hps
  exact ⟨e, hes, hs.linearProgram_eq_ok hpieces he hes⟩

end Store

/-! ## Programs of cone models -/

namespace ConeStore

variable {s : ConeStore α} {e : Expansion α}

/-- The canonical program of a store whose pieces have an expansion. -/
def assembled (s : ConeStore α) (e : Expansion α) : ConeProgram α :=
  ⟨s.linear.assembled e, e.records ++ s.cones.map (·.record)⟩

/-- The records of a canonical program have members, which are columns of the program. -/
theorem records_assembled (hcones : ∀ c ∈ s.cones, ∀ j ∈ c.record, j < s.linear.columnCount)
    (he : e.Scoped s.linear.columnCount) :
    ∀ r ∈ (s.assembled e).records, r ≠ [] ∧ ∀ j ∈ r, j < (s.assembled e).linear.ncols := by
  refine List.forall_mem_append.mpr ⟨he.records, List.forall_mem_map.mpr fun c hc => ?_⟩
  exact ⟨List.cons_ne_nil _ _, fun j hj => (hcones c hc j hj).trans_le (Nat.le_add_right _ _)⟩

theorem Valid.records_assembled (hs : s.Valid) (he : e.Scoped s.linear.columnCount) :
    ∀ r ∈ (s.assembled e).records, r ≠ [] ∧ ∀ j ∈ r, j < (s.assembled e).linear.ncols :=
  ConeStore.records_assembled hs.cones he

/-- The canonical program of a store is the assembled one of an expansion of its pieces, if its
records are over its columns. -/
theorem coneProgram_eq_ok {ps : List (Piece α)} (hps : s.pieces = .ok ps)
    (he : expandAll s.linear.id s.linear.columnCount ps = .ok e)
    (hassemble : s.linear.assemble e = .ok (s.linear.assembled e))
    (hrecords : ∀ r ∈ (s.assembled e).records, r ≠ [] ∧ ∀ j ∈ r, j < (s.assembled e).linear.ncols) :
    s.coneProgram = .ok (s.assembled e) := by
  have hany : (e.records ++ s.cones.map (·.record)).any List.isEmpty = false := by
    rw [List.any_eq_false]
    intro r hr hempty
    exact (hrecords r hr).1 (List.isEmpty_iff.mp hempty)
  simp only [coneProgram, hps, he, hassemble, bind, Except.bind, ConeProgram.ofRecords, hany]
  exact ConeProgram.withRecords_eq_ok_iff.mpr ⟨fun r hr => (hrecords r hr).2, rfl⟩

/-- The canonical program of a valid store is the assembled one, if its pieces have an expansion
behind its columns. -/
theorem Valid.coneProgram_eq_ok (hs : s.Valid) {ps : List (Piece α)} (hps : s.pieces = .ok ps)
    (he : expandAll s.linear.id s.linear.columnCount ps = .ok e)
    (hes : e.Scoped s.linear.columnCount) : s.coneProgram = .ok (s.assembled e) :=
  ConeStore.coneProgram_eq_ok hps he (hs.linear.assemble_eq_ok hes) (hs.records_assembled hes)

/-- The pieces of a valid store are over its columns. -/
theorem Valid.scoped_pieces (hs : s.Valid) {ps : List (Piece α)} (hps : s.pieces = .ok ps) :
    ∀ p ∈ ps, p.Scoped s.linear.id s.linear.columnCount := by
  obtain ⟨o, ho, hscoped, -⟩ := hs.linear.exists_epigraph_scoped rfl
  obtain ⟨qs, hqs, hmem⟩ := exists_pieces_of_epigraph ho
  obtain rfl := Except.ok.inj (hqs.symm.trans hps)
  intro p hp
  rcases (hmem p).mp hp with ⟨c, hc, rfl⟩ | ⟨c, hc, rfl⟩ | hp
  · exact hs.conic c hc
  · exact hs.linear.piecewise c hc
  · exact hscoped p (Option.mem_toList.mp hp)

/-- **A valid store has a canonical program**, over any scalars. -/
theorem Valid.exists_coneProgram_scoped (hs : s.Valid) :
    ∃ e : Expansion α, e.Scoped s.linear.columnCount ∧ s.coneProgram = .ok (s.assembled e) := by
  obtain ⟨o, ho, -⟩ := hs.linear.exists_epigraph_scoped rfl
  obtain ⟨ps, hps, -⟩ := exists_pieces_of_epigraph ho
  obtain ⟨e, he, hes⟩ := exists_expandAll_scoped le_rfl (hs.scoped_pieces hps)
  exact ⟨e, hes, hs.coneProgram_eq_ok hps he hes⟩

end ConeStore

/-! ## The columns of a program -/

/-- The lists of a program have an entry for each row or column. Its first columns are those of the
blocks, with their types, and all others are continuous. -/
structure LinearProgram.Over (blocks : List Block) (p : LinearProgram α) : Prop
    extends p.Consistent where
  le_ncols : Block.totalSize blocks ≤ p.ncols
  declared : ∀ b ∈ blocks, ∀ j ∈ b.columns, p.types[j]? = some b.type
  auxiliary : ∀ j, Block.totalSize blocks ≤ j → j < p.ncols → p.types[j]? = some .continuous

/-- The columns of blocks one after another have the types of their blocks. -/
theorem Block.Laid.getElem?_types {bs : List Block} (h : Laid 0 bs) :
    ∀ b ∈ bs, ∀ j ∈ b.columns, (types bs)[j]? = some b.type := by
  refine (forall_types_iff h (Q := fun j t => (types bs)[j]? = some t)).mp fun i hi => ?_
  have hlen : i < (types bs).length := hi.trans_eq (length_types bs).symm
  rw [Nat.zero_add, List.getElem?_eq_getElem hlen, List.getD_eq_getElem _ _ hlen]

namespace Store

variable {s : Store α} {e : Expansion α}

theorem types_assembled_eq : (s.assembled e).types = Block.types s.blocks ++ Block.types e.blocks :=
  Block.types_append _ _

/-- **The columns of an assembled program** are the declared ones and those of the expansion. -/
theorem assembled_over (hlaid : Block.Laid 0 s.blocks) (he : e.Scoped s.columnCount) :
    (s.assembled e).Over s.blocks where
  toConsistent := assembled_consistent
  le_ncols := Nat.le_add_right _ _
  declared b hb j hj := by
    have hdeclared := hlaid.getElem?_types b hb j hj
    have hlt : j < (Block.types s.blocks).length := (List.getElem?_eq_some_iff.mp hdeclared).1
    rw [types_assembled_eq, List.getElem?_append_left hlt, hdeclared]
  auxiliary j hlo hhi := by
    have hlen : (Block.types s.blocks).length ≤ j := (Block.length_types _).trans_le hlo
    have hj : j < (s.assembled e).types.length := hhi.trans_eq length_types_assembled.symm
    have hrest : j - (Block.types s.blocks).length < (Block.types e.blocks).length := by
      rw [types_assembled_eq, List.length_append] at hj
      omega
    rw [types_assembled_eq, List.getElem?_append_right hlen, List.getElem?_eq_getElem hrest]
    obtain ⟨b, hb, ht⟩ := Block.mem_types_imp (List.getElem_mem hrest)
    rw [ht, he.types b hb]

end Store

end ConicForm
