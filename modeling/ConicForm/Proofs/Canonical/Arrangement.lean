import ConicForm.Proofs.Canonical.Demand
import ConicForm.Proofs.Model.Base
import ConicForm.Proofs.Model.Ledger

/-!
# The arrangement of a canonical program

Where everything that a model holds is found in its canonical program. Declared columns keep their
places, and stored rows come first, as they are. Behind them stand the auxiliary columns and rows,
in the order in which pieces are expanded: an objective without cones comes before the conic
constraints, one with cones after them, and the piecewise-linear constraints come last. Only conic
pieces have records, so that those of a conic objective are the last before the direct cones.

## Main definitions

* `ConeStore.demands`: what the objective and the convex constraints demand, in order
* `LinearProgram.HasRows`, `LinearProgram.HasRowsFrom`: rows that a program has as they are
* `ConeProgram.Arranged`: the arrangement of a program

## Main results

* `ConeStore.Valid.map_demand_pieces`: the demands of the pieces
* `ConeStore.Layout.arranged_assembled`: the program of a valid store is arranged so
* `ConeModel.Reachable.primal_arranged`: so is the canonical program of a reachable model
-/

namespace ConicForm

variable {α : Type} [Scalar α]

/-! ## The demands of a store -/

/-- An affine objective demands the row of its epigraph, a convex one room for its function. -/
def Objective.demand : Objective α → Demand
  | affine _ => .rows 1
  | convex c => .convex c.kind c.input.size

/-- What the objective and the convex constraints demand, in the order in which it is met. -/
def ConeStore.demands (s : ConeStore α) : List Demand :=
  let objective := s.linear.objective.toList.map (·.1.demand)
  objective.filter (!·.isConic) ++ s.conic.map (·.demand .conic) ++
    objective.filter (·.isConic) ++ s.linear.piecewise.map (·.demand .piecewise)

theorem Piece.demand_of_ofConvex {v : ConvexConstraint ConvexKind α} {p : Piece α}
    (h : ofConvex v = .ok p) : p.demand = v.demand id := by
  unfold ofConvex at h
  split at h
  · next k hk =>
    cases h
    exact congrArg (Demand.convex · v.input.size) hk.symm
  · next k hk =>
    cases h
    exact congrArg (Demand.convex · v.input.size) hk.symm
  · cases h

/-- The epigraph of an objective demands what the objective does. -/
theorem Store.Valid.demand_of_epigraph {handles : ConvexKind → Bool} {s : Store α}
    (hs : s.Valid handles) {o : Option (Piece α)} (ho : s.epigraph = .ok o) :
    o.toList.map Piece.demand = s.objective.toList.map (·.1.demand) := by
  unfold epigraph at ho
  rcases hsome : s.objective with _ | ⟨a | c, goal⟩
  all_goals rw [hsome] at ho
  · cases ho
    rfl
  · obtain ⟨r, hr, ho⟩ := exists_of_bind_eq_ok ho
    cases ho
    obtain ⟨residual, hresidual, hr⟩ := exists_of_bind_eq_ok hr
    cases hr
    have hone : a.size = 1 := (hs.objective _ hsome).2
    have hlength : residual.size = (a.scale goal.factor).size :=
      Affine.size_of_sub hresidual (.inr rfl)
    show [Demand.rows (LinearConstraint.ofResidual residual .le).length] = [.rows 1]
    rw [LinearConstraint.length_ofResidual, hlength]
    exact congrArg (fun n => [Demand.rows n]) hone
  · obtain ⟨v, hv, ho⟩ := exists_of_bind_eq_ok ho
    obtain ⟨p, hp, ho⟩ := exists_of_bind_eq_ok ho
    cases ho
    obtain ⟨-, -, -, -, -, -, hinput, hkind, -⟩ := ConvexExpression.of_le_eq_ok hv
    rw [Goal.input_orient] at hinput
    rw [Goal.kind_orient] at hkind
    show [p.demand] = [.convex c.kind c.input.size]
    rw [Piece.demand_of_ofConvex hp, ConvexConstraint.demand, hinput, hkind]
    rfl

/-- **The pieces of a valid store demand what the store does**, in order. -/
theorem ConeStore.Valid.map_demand_pieces {s : ConeStore α} (hs : s.Valid) {ps : List (Piece α)}
    (hps : s.pieces = .ok ps) : ps.map Piece.demand = s.demands := by
  obtain ⟨o, ho, h⟩ := exists_of_bind_eq_ok hps
  unfold demands
  rw [← hs.linear.demand_of_epigraph ho]
  rcases o with _ | (c | c | c)
  all_goals
    cases h
    simp [Piece.demand, Function.comp_def, ConvexConstraint.demand, Demand.isConic]

/-! ## Rows of a program -/

namespace LinearProgram

/-- The rows of a constraint stand in a program from row `offset` on, as they are: the columns
behind its own have no coefficients. -/
structure HasRows (p : LinearProgram α) (offset : Nat) (c : LinearConstraint α) : Prop where
  entries : ∀ i < c.length, ∀ j x,
    (⟨offset + i, j, x⟩ : Entry α) ∈ p.linear.entries ↔ ⟨i, j, x⟩ ∈ c.linear.entries
  constants : ∀ i < c.length, p.constants[offset + i]? = c.constant[i]?
  senses : ∀ i < c.length, p.senses[offset + i]? = some c.sense

/-- The rows of constraints stand in a program one after another. -/
def HasRowsFrom (p : LinearProgram α) (offset : Nat) : List (LinearConstraint α) → Prop
  | [] => True
  | c :: cs => p.HasRows offset c ∧ p.HasRowsFrom (offset + c.length) cs

end LinearProgram

/-- The entries of a block in the middle of a stack. -/
theorem SparseMatrix.mem_stackEntries_middle {front behind : List (SparseMatrix α)}
    {m : SparseMatrix α} {i j : Nat} {x : α} (hi : i < m.nrows) :
    (⟨totalRows front + i, j, x⟩ : Entry α) ∈ stackEntries 0 (front ++ m :: behind) ↔
      ⟨i, j, x⟩ ∈ m.entries := by
  rw [mem_stackEntries_append]
  constructor
  · rintro (h | ⟨⟨row, col, value⟩, hf, he⟩)
    · have hrow := (row_of_mem_stackEntries h).2
      dsimp only at hrow
      omega
    · obtain ⟨hrow, rfl, rfl⟩ := Entry.mk.inj he
      obtain rfl := Nat.add_left_cancel hrow
      rcases mem_stackEntries_cons.mp hf with hf | ⟨g, -, hg⟩
      · exact hf
      · have hrow' := (Entry.mk.inj hg).1
        omega
  · intro h
    exact .inr ⟨_, mem_stackEntries_cons.mpr (.inl h), rfl⟩

namespace LinearProgram

/-- The rows of a program are those of constraints, stacked. -/
structure Stacks (p : LinearProgram α) (cs : List (LinearConstraint α)) : Prop where
  entries : ∀ t, t ∈ p.linear.entries ↔ t ∈ SparseMatrix.stackEntries 0 (cs.map (·.linear))
  constants : p.constants = cs.flatMap (·.constant)
  senses : p.senses = cs.flatMap fun c => List.replicate c.length c.sense

namespace Stacks

variable {p : LinearProgram α} {front behind : List (LinearConstraint α)}
  {c : LinearConstraint α}

/-- A constraint in a stack has its rows behind those of the constraints in front of it. -/
theorem hasRows (h : p.Stacks (front ++ c :: behind)) :
    p.HasRows (SparseMatrix.totalRows (front.map (·.linear))) c where
  entries i hi j x := by
    rw [h.entries, List.map_append]
    exact SparseMatrix.mem_stackEntries_middle hi
  constants i hi := by
    rw [h.constants, List.flatMap_append, ← LinearConstraint.length_flatMap_constant,
      List.getElem?_append_right (Nat.le_add_right _ _), Nat.add_sub_cancel_left,
      List.flatMap_cons, List.getElem?_append_left (hi.trans_eq c.length_constant.symm)]
  senses i hi := by
    rw [h.senses, List.flatMap_append, ← LinearConstraint.length_flatMap_sense,
      List.getElem?_append_right (Nat.le_add_right _ _), Nat.add_sub_cancel_left,
      List.flatMap_cons, List.getElem?_append_left (by rwa [List.length_replicate]),
      List.getElem?_replicate, if_pos hi]

/-- So have all constraints behind some others, one after another. -/
theorem hasRowsFrom (front : List (LinearConstraint α)) (h : p.Stacks (front ++ behind)) :
    p.HasRowsFrom (SparseMatrix.totalRows (front.map (·.linear))) behind := by
  induction behind generalizing front with
  | nil => trivial
  | cons c cs ih =>
    refine ⟨h.hasRows, ?_⟩
    rw [List.append_cons] at h
    have hrest := ih _ h
    rw [List.map_append, SparseMatrix.totalRows_append] at hrest
    exact hrest

end Stacks

end LinearProgram

namespace Store

variable {s : Store α} {e : Expansion α}

/-- **The rows of an assembled program** are the stored ones and those of the expansion. -/
theorem stacks_assembled
    (hrows : ∀ c ∈ s.rows ++ e.rows, c.linear.ncols ≤ s.columnCount + e.width) :
    (s.assembled e).Stacks (s.rows ++ e.rows) where
  entries _ := SparseMatrix.mem_entries_stack (List.forall_mem_map.mpr hrows)
  constants := rfl
  senses := rfl

theorem nrows_assembled : (s.assembled e).nrows =
    (s.rows.map (·.length)).sum + (e.rows.map (·.length)).sum := by
  have htotal : ∀ cs : List (LinearConstraint α),
      SparseMatrix.totalRows (cs.map (·.linear)) = (cs.map (·.length)).sum := by
    intro cs
    induction cs with
    | nil => rfl
    | cons c cs ih =>
      rw [List.map_cons, List.map_cons, SparseMatrix.totalRows_cons, ih, List.sum_cons]
      rfl
  show SparseMatrix.totalRows _ = _
  rw [htotal, List.map_append, List.sum_append]

/-- A declared column has the bounds that the store gives it, if the expansion bounds columns behind
the declared ones only. -/
theorem bounds_assembled_declared (hlaid : Block.Laid 0 s.blocks)
    (hbounds : ∀ b ∈ e.bounds, ∀ q ∈ b.items, s.columnCount ≤ q.1) :
    ∀ b ∈ s.blocks, ∀ j ∈ b.columns,
      (s.assembled e).upper.getD j .plusInf = boundOf .upper s.bounds b.type j ∧
        (s.assembled e).lower.getD j .minusInf = boundOf .lower s.bounds b.type j := by
  intro b hb j hj
  have htype := hlaid.getElem?_types b hb j hj
  have hdeclared : j < (Block.types s.blocks).length := (List.getElem?_eq_some_iff.mp htype).1
  have hcount : (Block.types s.blocks).length = s.columnCount := Block.length_types _
  have hne : ∀ b ∈ e.bounds, ∀ q ∈ b.items, q.1 ≠ j := by
    intro b hb q hq
    have := hbounds b hb q hq
    omega
  have hlt : j < (Block.types (s.blocks ++ e.blocks)).length := by
    rw [Block.types_append, List.length_append]
    omega
  have hgetD : (Block.types (s.blocks ++ e.blocks)).getD j .continuous = b.type := by
    rw [Block.types_append, List.getD_append _ _ _ _ hdeclared, List.getD_eq_getElem?_getD, htype,
      Option.getD_some]
  constructor
  · refine (getD_upper_applyBounds _ hlt).trans ?_
    rw [hgetD, boundOf_append_left hne]
  · refine (getD_lower_applyBounds _ hlt).trans ?_
    rw [hgetD, boundOf_append_left hne]

end Store

/-! ## The arrangement -/

/-- The arrangement of the canonical program of a store, whose pieces have the expansions `es`. -/
structure ConeProgram.Arranged (s : ConeStore α) (es : List (Expansion α)) (p : ConeProgram α) :
    Prop where
  /-- Every list has an entry for each row or column; declared columns come first, with their
  types. -/
  columns : p.linear.Over s.linear.blocks
  /-- The bounds of the declared columns are in their places. -/
  bounds : ∀ b ∈ s.linear.blocks, ∀ j ∈ b.columns,
    p.linear.upper.getD j .plusInf = Store.boundOf .upper s.linear.bounds b.type j ∧
      p.linear.lower.getD j .minusInf = Store.boundOf .lower s.linear.bounds b.type j
  /-- The expansions meet the demands of the store in order, behind the declared columns. -/
  meets : MeetAll s.linear.columnCount s.linear.columnCount s.demands es
  /-- The stored rows come first, those of the expansions behind them. -/
  rows : p.linear.HasRowsFrom 0 (s.linear.rows ++ es.flatMap (·.rows))
  /-- The declared and the auxiliary blocks are one after another, without gaps. -/
  laid : Block.Laid 0 (s.linear.blocks ++ es.flatMap (·.blocks))
  types : p.linear.types = Block.types (s.linear.blocks ++ es.flatMap (·.blocks))
  ncols : p.linear.ncols = s.linear.columnCount + (s.demands.map Demand.columns).sum
  nrows : p.linear.nrows =
    (s.linear.rows.map (·.length)).sum + (s.demands.map Demand.height).sum
  /-- The records of the expansions come first, those of direct cones behind them, each with the
  apex in front of the vector. -/
  records : p.records = Demand.recordsFrom s.linear.columnCount s.demands ++
    s.cones.map fun c => (c.apex.block.first + c.apexIndex) ::
      c.vector.indices.map (c.vector.block.first + ·)
  arities : p.records.map List.length =
    s.demands.flatMap Demand.arities ++ s.cones.map fun c => c.vector.indices.length + 1

/-- **The canonical program of a valid store is arranged.** -/
theorem ConeStore.Layout.arranged_assembled {s : ConeStore α} (L : s.Layout) (hs : s.Valid) :
    ∃ es, (s.assembled L.expansion).Arranged s es := by
  have hscoped := L.scoped_expansion hs
  obtain ⟨es, hes, hblocks, hrows, hrecords⟩ :=
    exists_meetAll le_rfl (hs.scoped_pieces L.pieces_eq) L.expandAll_eq
  rw [hs.map_demand_pieces L.pieces_eq] at hes
  have hcount : Block.totalSize s.linear.blocks = s.linear.columnCount := rfl
  have hall : (s.assembled L.expansion).records =
      Demand.recordsFrom s.linear.columnCount s.demands ++ s.cones.map (·.record) := by
    show L.expansion.records ++ _ = _
    rw [hrecords, hes.records]
  have hcones : s.cones.map (·.record) = s.cones.map ConeConstraint.members :=
    List.map_congr_left fun c _ => c.record_eq_members
  rw [hcones] at hall
  refine ⟨es, ?_⟩
  constructor
  case columns => exact Store.assembled_over hs.linear.laid hscoped
  case bounds =>
    refine Store.bounds_assembled_declared hs.linear.laid fun b hb q hq => ?_
    rw [L.bounds_expansion] at hb
    exact (Nat.le_add_right _ _).trans ((bounds_expandAll_conic L.cones_eq b hb).2 q hq).1.1
  case meets => exact hes
  case rows =>
    rw [← hrows]
    have hstacks := Store.stacks_assembled (L.ncols_le_width hs)
    exact hstacks.hasRowsFrom []
  case laid =>
    refine Block.laid_append.mpr ⟨hs.linear.laid, ?_⟩
    rw [hcount, Nat.zero_add]
    exact hes.laid
  case types =>
    rw [← hblocks]
    rfl
  case ncols =>
    rw [← hes.totalSize, ← hblocks]
    rfl
  case nrows =>
    rw [← hes.height, ← hrows]
    exact Store.nrows_assembled
  case records => exact hall
  case arities =>
    rw [hall, List.map_append, Demand.map_length_recordsFrom, List.map_map]
    refine congrArg _ (List.map_congr_left fun c _ => ?_)
    simp [ConeConstraint.members]

namespace ConeModel

variable {m : ConeModel α}

/-- **The canonical program of a reachable model is arranged**, with rows and records in the order
in which the constraints were given: the store holds what is in the ledger of the run. -/
theorem Reachable.primal_arranged (hm : m.Reachable) :
    (∃ l, m.Entered l) ∧ ∀ l, m.Entered l →
      m.store = l.store m.store.linear.id m.store.linear.settings m.store.linear.name ∧
        ∃ p es, m.primal.1 = .ok p ∧ p.value.Arranged m.store es := by
  refine ⟨hm.exists_entered, fun l hl => ⟨hl.store_eq, ?_⟩⟩
  obtain ⟨L⟩ := hm.valid.store.nonempty_layout
  obtain ⟨p, hp, hvalue⟩ := Handle.exists_of_map_eq_ok
    (hm.valid.primal_spec.1.trans (L.coneProgram_eq_ok hm.valid.store))
  obtain ⟨es, hes⟩ := L.arranged_assembled hm.valid.store
  exact ⟨p, es, hp, hvalue ▸ hes⟩

/-- The row of an affine objective, three rows for a norm by cones and five for one by rows, and the
record of the first norm. -/
theorem primal_arranged_rounded : ∃ v w, (rounded v w).Reachable ∧
    ∃ l, (rounded v w).Entered l ∧ l.blocks = [pair] ∧
      ∃ p es, (rounded v w).primal.1 = .ok p ∧ p.value.Arranged (rounded v w).store es ∧
        p.value.linear.nrows = 9 ∧ p.value.records = [[5, 3, 4]] := by
  obtain ⟨v, w, hm, -, hdeclared, -, p, q, l, d, hp, -, -, -, hp9, -, hrecords, -⟩ :=
    exists_rounded
  obtain ⟨⟨ledger, hledger⟩, harranged⟩ := hm.primal_arranged
  obtain ⟨hstore, p₁, es, hp₁, hes⟩ := harranged ledger hledger
  obtain rfl := Except.ok.inj (Handle.eq_ok_of_map_eq (hm.valid.primal_spec.1.trans hp) hp₁)
  rw [hstore] at hdeclared
  exact ⟨v, w, hm, ledger, hledger, hdeclared, p₁, es, hp₁, hes, hp9, hrecords⟩

end ConeModel

end ConicForm
