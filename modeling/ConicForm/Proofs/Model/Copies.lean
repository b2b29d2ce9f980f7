import ConicForm.Proofs.Model.Adding
import ConicForm.Proofs.Model.Admission

/-!
# Copies of a model

A copy has the owner of the model that it is a copy of. From then on each of the two declares
columns on its own, and one number comes to stand for a column of the one and another column of the
other; but owners are all that is compared, and they cannot tell the two apart. Each of the copies
takes constraints on blocks that only the other one has declared. What keeps the rows of a model
within its columns is the run, not a check: they are over the columns that one of the copies has.

## Main definitions

* `ConeStore.Over`: stores in which everything is over the first `n` columns
* `ConeStore.Step`: what a call does to a store
* `Copies`: a model and a copy of it, which are called in any order

## Main results

* `ConeStore.Over.step`: a call keeps everything over the columns of what it is built from
* `Copies.over_max`: everything in two copies is over the columns that one of them has
* `Copies.not_separated`: each copy admits the blocks of the other
* `exists_row_of_copy`: a row over a column that only the copy has
-/

namespace ConicForm

variable {α : Type} [Scalar α]

/-! ## Stores over the first columns -/

/-- A store with blocks of its own, one after another, in which everything is over the first `n`
columns of its owner. They may be more than the store has. -/
structure ConeStore.Over (n : Nat) (s : ConeStore α) : Prop where
  owner : ∀ b ∈ s.linear.declared, b.owner = s.linear.id
  laid : Block.Laid 0 s.linear.blocks
  rows : ∀ c ∈ s.linear.rows, c.linear.ncols ≤ n
  bounds : ∀ b ∈ s.linear.bounds, ∀ q ∈ b.items, q.1 < n
  piecewise : ∀ c ∈ s.linear.piecewise, c.Scoped PiecewiseKind.elementwise s.linear.id n
  conic : ∀ c ∈ s.conic, c.Scoped ConicKind.elementwise s.linear.id n
  cones : ∀ c ∈ s.cones, ∀ j ∈ c.record, j < n
  objective : ∀ p ∈ s.linear.objective, p.1.Scoped s.linear.id n

namespace Constraint

variable {id : ModelId} {n : Nat} {cs : List (Constraint α)}

theorem ncols_le_of_mem_filterMap (hcs : ∀ c ∈ cs, c.Scoped id n) :
    ∀ r ∈ cs.filterMap rows?, r.linear.ncols ≤ n := by
  intro r hr
  obtain ⟨c, hc, h⟩ := List.mem_filterMap.mp hr
  have hscoped := hcs c hc
  cases c with
  | linear r' => exact Option.some.inj h ▸ hscoped
  | bounds _ | convex _ | cone _ | expCone _ => cases h

theorem items_lt_of_mem_filterMap (hcs : ∀ c ∈ cs, c.Scoped id n) :
    ∀ b ∈ cs.filterMap bounds?, ∀ q ∈ b.items, q.1 < n :=
  fun b hb => hcs (.bounds b) (mem_filterMap_bounds.mp hb)

theorem piecewise_scoped_of_mem_filterMap (hcs : ∀ c ∈ cs, c.Scoped id n) :
    ∀ v ∈ cs.filterMap piecewise?, v.Scoped PiecewiseKind.elementwise id n := by
  intro v hv
  obtain ⟨c, hc, h⟩ := List.mem_filterMap.mp hv
  have hscoped := hcs c hc
  cases c with
  | convex w =>
    simp only [piecewise?] at h
    split at h
    · next k hk =>
      cases h
      exact hscoped.withKind (congrArg ConvexKind.elementwise hk)
    · cases h
  | linear _ | bounds _ | cone _ | expCone _ => cases h

theorem conic_scoped_of_mem_filterMap (hcs : ∀ c ∈ cs, c.Scoped id n) :
    ∀ v ∈ cs.filterMap conic?, v.Scoped ConicKind.elementwise id n := by
  intro v hv
  obtain ⟨c, hc, h⟩ := List.mem_filterMap.mp hv
  have hscoped := hcs c hc
  cases c with
  | convex w =>
    simp only [conic?] at h
    split at h
    · next k hk =>
      cases h
      exact hscoped.withKind (congrArg ConvexKind.elementwise hk)
    · cases h
  | linear _ | bounds _ | cone _ | expCone _ => cases h

theorem record_lt_of_mem_filterMap (hcs : ∀ c ∈ cs, c.Scoped id n) :
    ∀ k ∈ cs.filterMap cone?, ∀ j ∈ k.record, j < n := by
  intro k hk
  obtain ⟨c, hc, h⟩ := List.mem_filterMap.mp hk
  have hscoped := hcs c hc
  cases c with
  | cone k' => exact Option.some.inj h ▸ hscoped
  | linear _ | bounds _ | convex _ | expCone _ => cases h

end Constraint

/-- What a call that is built from blocks does to a store. -/
inductive ConeStore.Step (blocks : List Block) (s : ConeStore α) : ConeStore α → Prop
  | keep : Step blocks s s
  | declare (shape type name) :
      Step blocks s { s with linear := (s.linear.declare shape type name).2 }
  | append {cs : List (Constraint α)} : (∀ c ∈ cs, c.Built blocks) → Step blocks s (s.appended cs)
  | setObjective {e : Objective α} {goal : Goal} : e.Built blocks →
      Step blocks s { s with linear := { s.linear with objective := some (e, goal) } }
  | clear : Step blocks s ⟨s.linear.clear, [], []⟩

namespace ConeStore

variable {n : Nat} {s s' : ConeStore α} {blocks : List Block}

theorem Over.mono {n' : Nat} (hs : s.Over n) (h : n ≤ n') : s.Over n' where
  owner := hs.owner
  laid := hs.laid
  rows := fun c hc => (hs.rows c hc).trans h
  bounds := fun b hb q hq => (hs.bounds b hb q hq).trans_le h
  piecewise := fun c hc => (hs.piecewise c hc).mono h
  conic := fun c hc => (hs.conic c hc).mono h
  cones := fun c hc j hj => (hs.cones c hc j hj).trans_le h
  objective := fun p hp => (hs.objective p hp).mono h

theorem Over.spanned (hs : s.Over n) :
    Block.Spanned s.linear.id s.linear.columnCount s.linear.blocks :=
  Store.spanned_of_laid hs.owner hs.laid

/-- Everything in a valid store is over its columns. -/
theorem Valid.over (hs : s.Valid) : s.Over s.linear.columnCount where
  owner := hs.linear.owner
  laid := hs.linear.laid
  rows := hs.linear.rows
  bounds := hs.linear.bounds
  piecewise := hs.linear.piecewise
  conic := hs.conic
  cones := hs.cones
  objective := fun p hp => (hs.linear.objective p hp).1

/-- A store without its conic constraints. -/
theorem Over.toCone (hs : s.Over n) : s.linear.toCone.Over n :=
  { hs with
    conic := by rintro c ⟨⟩
    cones := by rintro c ⟨⟩ }

theorem Over.appended (hs : s.Over n) {cs : List (Constraint α)}
    (hcs : ∀ c ∈ cs, c.Scoped s.linear.id n) : (s.appended cs).Over n where
  owner := hs.owner
  laid := hs.laid
  rows := List.forall_mem_append.mpr ⟨hs.rows, Constraint.ncols_le_of_mem_filterMap hcs⟩
  bounds := List.forall_mem_append.mpr ⟨hs.bounds, Constraint.items_lt_of_mem_filterMap hcs⟩
  piecewise := List.forall_mem_append.mpr
    ⟨hs.piecewise, Constraint.piecewise_scoped_of_mem_filterMap hcs⟩
  conic := List.forall_mem_append.mpr ⟨hs.conic, Constraint.conic_scoped_of_mem_filterMap hcs⟩
  cones := List.forall_mem_append.mpr ⟨hs.cones, Constraint.record_lt_of_mem_filterMap hcs⟩
  objective := hs.objective

theorem Step.columnCount_le (h : s.Step blocks s') :
    s.linear.columnCount ≤ s'.linear.columnCount := by
  cases h with
  | declare shape type name =>
    rw [Store.columnCount_declare]
    exact Nat.le_add_right _ _
  | keep | append _ | setObjective _ | clear => exact Nat.le_refl _

/-- **A call keeps everything over the columns** that what it is built from is over. -/
theorem Over.step (hs : s.Over n) (hblocks : Block.Spanned s.linear.id n blocks)
    (h : s.Step blocks s') : s'.Over n := by
  cases h with
  | keep => exact hs
  | declare shape type name =>
    exact { hs with
      owner := Store.owner_declare hs.owner shape type name
      laid := Store.laid_declare hs.laid shape type name }
  | append hcs => exact hs.appended fun c hc => (hcs c hc).scoped hblocks
  | setObjective he =>
    exact { hs with
      objective := by
        rintro p hp
        obtain rfl := Option.mem_some_iff.mp hp
        exact he.scoped hblocks }
  | clear =>
    exact {
      owner := hs.owner
      laid := hs.laid
      rows := by rintro c ⟨⟩
      bounds := by rintro c ⟨⟩
      piecewise := by rintro c ⟨⟩
      conic := by rintro c ⟨⟩
      cones := by rintro c ⟨⟩
      objective := by rintro p ⟨⟩ }

end ConeStore

/-! ## Calls of models of either sort -/

namespace AnyModel

variable {m m' : AnyModel α}

theorem coneStore_of_setObjective {e : Objective α} {goal : Goal}
    (h : m.setObjective e goal = (.ok (), m')) : m'.coneStore =
      { m.coneStore with linear := { m.coneStore.linear with objective := some (e, goal) } } := by
  rw [setObjective_eq] at h
  obtain ⟨s, hs, rfl⟩ := attempt_eq_ok_iff.mp h
  obtain ⟨-, rfl⟩ := Store.eq_of_setObjective_eq_ok hs
  cases m <;> rfl

/-- What a call does to the store of a model, of either sort. -/
theorem Current.step (hm : m.Current) {blocks : List Block} {c : Call α} (hc : c.Built blocks) :
    m.coneStore.Step blocks (m.after c).coneStore := by
  cases c with
  | subjectTo t =>
    rw [after_subjectTo_eq]
    cases h : (m.subjectTo t).1 with
    | error e =>
      rw [snd_subjectTo_of_error h]
      exact .keep
    | ok =>
      rw [coneStore_of_subjectTo (Prod.ext h rfl)]
      exact .append hc
  | setObjective e goal =>
    rw [after_setObjective_eq, setObjective_eq]
    refine snd_attempt_of_ok (P := fun k : AnyModel α => m.coneStore.Step blocks k.coneStore)
      .keep fun m' h => ?_
    rw [← setObjective_eq] at h
    rw [coneStore_of_setObjective h]
    exact .setObjective hc
  | declare shape type name => cases m <;> exact .declare shape type name
  | declareDefault shape => cases m <;> exact .declare shape _ none
  | reset => cases m <;> exact .clear
  | primal => cases m <;> exact .keep
  | linearDual =>
    cases m with
    | linear m =>
      show m.store.toCone.Step blocks m.dual.2.store.toCone
      rw [(LinearModel.Current.dual_spec hm).2.1]
      exact .keep
    | cone m =>
      show m.store.Step blocks m.linearDual.2.store
      rw [(ConeModel.Current.linearDual_spec hm).2.1]
      exact .keep
  | dual =>
    cases m with
    | linear m =>
      show m.store.toCone.Step blocks m.dual.2.store.toCone
      rw [(LinearModel.Current.dual_spec hm).2.1]
      exact .keep
    | cone m =>
      show m.store.Step blocks m.dual.2.store
      rw [(ConeModel.Current.dual_spec hm).2.1]
      exact .keep

variable {n : Nat} {blocks : List Block} {c : Call α}

theorem Current.columnCount_le_after (hm : m.Current) (hc : c.Built blocks) :
    m.store.columnCount ≤ (m.after c).store.columnCount := by
  rw [← linear_coneStore m, ← linear_coneStore (m.after c)]
  exact (hm.step hc).columnCount_le

theorem Current.over_after (hm : m.Current) (hover : m.coneStore.Over n)
    (hblocks : Block.Spanned m.store.id n blocks) (hc : c.Built blocks) :
    (m.after c).coneStore.Over n := by
  refine hover.step ?_ (hm.step hc)
  rwa [linear_coneStore]

end AnyModel

/-! ## Copies -/

/-- A model and a copy of it, or of its base, which are called in any order. What a call is given is
built from any blocks, among which those of the owner have been declared on one of the two by then:
before the copy was made, or on either of them afterwards. -/
inductive Copies : AnyModel α → AnyModel α → Prop
  | clone {m} : m.Reachable → Copies m m
  | base {m : ConeModel α} : m.Reachable → Copies (.cone m) (.linear m.base)
  | symm {a b} : Copies a b → Copies b a
  | call {a b blocks} {c : Call α} : Copies a b →
      (∀ k ∈ blocks, k.owner = a.store.id → k ∈ a.store.blocks ++ b.store.blocks) →
      c.Built blocks → Copies (a.after c) b

namespace AnyModel

variable {a b : AnyModel α} {n : Nat}

theorem spanned_of_over (ha : a.coneStore.Over n) :
    Block.Spanned a.store.id a.store.columnCount a.store.blocks := by
  rw [← linear_coneStore a]
  exact ha.spanned

/-- The blocks of two models of one owner span the columns that one of them has. -/
theorem spanned_append (hid : b.store.id = a.store.id) (ha : a.coneStore.Over n)
    (hb : b.coneStore.Over n) : Block.Spanned a.store.id
      (max a.store.columnCount b.store.columnCount) (a.store.blocks ++ b.store.blocks) := by
  intro k hk
  rcases List.mem_append.mp hk with hk | hk
  · obtain ⟨howner, hstop⟩ := spanned_of_over ha k hk
    exact ⟨howner, hstop.trans (Nat.le_max_left _ _)⟩
  · obtain ⟨howner, hstop⟩ := spanned_of_over hb k hk
    exact ⟨howner.trans hid, hstop.trans (Nat.le_max_right _ _)⟩

/-- A collection whose members are built from blocks leaves a model over the columns of these. -/
theorem over_of_subjectTo {a' : AnyModel α} {t : Collection (Constraint α)} {blocks : List Block}
    (ha : a.coneStore.Over n) (hblocks : Block.Spanned a.store.id n blocks)
    (ht : ∀ c ∈ t.leaves, c.Built blocks) (h : a.subjectTo t = (.ok (), a')) :
    a'.coneStore.Over n := by
  rw [coneStore_of_subjectTo h]
  refine ha.appended fun c hc => (ht c hc).scoped ?_
  rwa [linear_coneStore]

/-- A bound on a column that a model does not have is taken, if its block has the owner. -/
theorem exists_subjectTo_not_over {k : Block} (hk : k.owner = a.store.id) {j : Nat}
    (hj : j ∈ k.columns) :
    ∃ a', a.subjectTo (.leaf (.bounds k.nonneg)) = (.ok (), a') ∧ ¬a'.coneStore.Over j := by
  have hsupports : a.Supports (.bounds (k.nonneg : Bounds α)) := by
    cases a <;> exact trivial
  have htaken := hsupports.subjectTo_eq_ok_iff.mpr (congrArg some hk)
  refine ⟨_, Prod.ext htaken rfl, fun hover => ?_⟩
  have hmem : k.nonneg ∈ (a.subjectTo (.leaf (.bounds k.nonneg))).2.coneStore.linear.bounds := by
    rw [coneStore_of_subjectTo (Prod.ext htaken rfl)]
    refine List.mem_append_right _ (Constraint.mem_filterMap_bounds.mpr ?_)
    rw [Collection.leaves_leaf]
    exact List.mem_singleton_self _
  have hitem : (j, .value 0) ∈ (k.nonneg : Bounds α).items := List.mem_map.mpr ⟨j, hj, rfl⟩
  exact Nat.lt_irrefl j (hover.bounds _ hmem _ hitem)

end AnyModel

namespace Copies

variable {a b : AnyModel α}

/-- **Two copies have one owner, and everything in them is over the columns that one of them
has.** -/
theorem over_max (h : Copies a b) : b.store.id = a.store.id ∧ (a.Current ∧ b.Current) ∧
    a.coneStore.Over (max a.store.columnCount b.store.columnCount) ∧
    b.coneStore.Over (max a.store.columnCount b.store.columnCount) := by
  -- over the calls; the columns that one of the two has only become more
  induction h with
  | @clone m hm =>
    have hover := hm.valid_coneStore.over
    rw [AnyModel.linear_coneStore] at hover
    rw [Nat.max_self]
    exact ⟨rfl, ⟨hm.current, hm.current⟩, hover, hover⟩
  | @base m hm =>
    have hvalid := hm.valid
    have hover := hvalid.store.over
    have hcurrent : m.base.Current := ⟨Cache.holds_empty _, Cache.holds_empty _⟩
    refine ⟨rfl, ⟨hvalid.toCurrent, hcurrent⟩, ?_⟩
    show m.store.Over (max m.store.linear.columnCount m.store.linear.columnCount) ∧
      m.store.linear.toCone.Over (max m.store.linear.columnCount m.store.linear.columnCount)
    rw [Nat.max_self]
    exact ⟨hover, hover.toCone⟩
  | symm h ih =>
    obtain ⟨hid, hcurrent, ha, hb⟩ := ih
    rw [Nat.max_comm]
    exact ⟨hid.symm, hcurrent.symm, hb, ha⟩
  | @call a b blocks c h hown hc ih =>
    obtain ⟨hid, ⟨hcurrent, hcurrent'⟩, ha, hb⟩ := ih
    rcases AnyModel.after_eq_or_built hown hc with heq | hbuilt
    · rw [heq]
      exact ⟨hid, ⟨hcurrent, hcurrent'⟩, ha, hb⟩
    · have ha' := hcurrent.over_after ha (AnyModel.spanned_append hid ha hb) hbuilt
      have hle := max_le_max_right b.store.columnCount (hcurrent.columnCount_le_after hbuilt)
      refine ⟨hid.trans (hcurrent.id_after c).symm, ⟨hcurrent.after c, hcurrent'⟩, ?_⟩
      exact ⟨ha'.mono hle, hb.mono hle⟩

/-- **Copies are not separated.** Two copies have one owner, each of them admits the blocks that
either has declared, and what is stored is over the columns that one of them has. A model that has
nothing over more columns than its own stays so, whatever constraints on blocks of the two it takes,
exactly if the other one has no more columns. -/
theorem not_separated (h : Copies a b) : b.store.id = a.store.id ∧
    a.Admits (a.store.blocks ++ b.store.blocks) ∧
    a.coneStore.Over (max a.store.columnCount b.store.columnCount) ∧
    (a.coneStore.Over a.store.columnCount →
      ((∀ (t : Collection (Constraint α)) (a' : AnyModel α),
        (∀ c ∈ t.leaves, c.Built (a.store.blocks ++ b.store.blocks)) →
          a.subjectTo t = (.ok (), a') → a'.coneStore.Over a.store.columnCount) ↔
        b.store.columnCount ≤ a.store.columnCount)) := by
  obtain ⟨hid, -, ha, hb⟩ := h.over_max
  have hspanned := AnyModel.spanned_append hid ha hb
  refine ⟨hid, AnyModel.admits_of_owner hspanned, ha, fun hover => ⟨fun hstays => ?_, ?_⟩⟩
  · by_contra hlt
    rw [Nat.not_le] at hlt
    have hlaid : Block.Laid 0 b.store.blocks := by
      rw [← AnyModel.linear_coneStore b]
      exact hb.laid
    have hcolumn : a.store.columnCount ∈ b.store.blocks.flatMap Block.columns := by
      rw [hlaid.flatMap_columns, List.mem_range'_1]
      exact ⟨Nat.zero_le _, by rwa [Nat.zero_add]⟩
    obtain ⟨k, hk, hj⟩ := List.mem_flatMap.mp hcolumn
    have hmem : k ∈ a.store.blocks ++ b.store.blocks := List.mem_append_right _ hk
    obtain ⟨a', ha', hnot⟩ := AnyModel.exists_subjectTo_not_over (hspanned k hmem).1 hj
    refine hnot (hstays _ a' ?_ ha')
    exact Call.Built.leaf (.nonneg hmem)
  · intro hle t a' ht ha'
    rw [Nat.max_eq_left hle] at hspanned
    exact AnyModel.over_of_subjectTo hover hspanned ht ha'

end Copies

/-- The block of a column that a copy declares behind the columns of the original. -/
def spare : Block := ⟨⟨0⟩, 2, .scalar, .continuous, none⟩

/-- The copy. -/
def enlarged : AnyModel ℚ := (AnyModel.linear dialled).after (.declare .scalar .continuous none)

/-- A row over the column. -/
def spareRow : ConstraintTerm ℚ := .le (.block spare) (.number 5)

theorem fits_spareRow : spareRow.Fits := ⟨.scalar, rfl, .scalar, rfl, .inl rfl⟩

theorem copies_enlarged : Copies (.linear dialled) enlarged := by
  have hdialled : (AnyModel.linear dialled).Reachable :=
    LinearModel.Reachable.after (.empty ..) trivial
  exact .symm (.call (.clone hdialled) (fun k hk => absurd hk List.not_mem_nil) trivial)

theorem Copies.not_separated_enlarged : Copies (.linear dialled) enlarged ∧
    spare ∉ (AnyModel.linear dialled).store.blocks ∧
    (AnyModel.linear dialled).coneStore.Over (max 2 3) ∧
    ∃ c, spareRow.build = .ok c ∧ ((AnyModel.linear dialled).subjectTo (.leaf c)).1 = .ok () := by
  obtain ⟨-, hadmits, hover, -⟩ := copies_enlarged.not_separated
  have hblocks : ∀ b ∈ spareRow.blocks,
      b ∈ (AnyModel.linear dialled).store.blocks ++ enlarged.store.blocks := by decide
  have hleaf : ∀ c, spareRow.build = .ok c → ∀ d ∈ (Collection.leaf c).leaves,
      d.Composed ((AnyModel.linear dialled).store.blocks ++ enlarged.store.blocks) := by
    intro c hc d hd
    rw [Collection.leaves_leaf, List.mem_singleton] at hd
    exact ⟨spareRow, fits_spareRow, by decide, hblocks, hd ▸ hc⟩
  refine ⟨copies_enlarged, by decide, hover, _, rfl, ?_⟩
  obtain ⟨-, htaken⟩ := hadmits.constraints _ (hleaf _ rfl)
  refine htaken.mpr ⟨(Collection.depth_leaf _).trans_le (Nat.zero_le _), fun d hd => ?_⟩
  rw [Collection.leaves_leaf, List.mem_singleton] at hd
  rw [hd]
  exact trivial

/-- **A row over a column that only the copy has** is taken by the original, which has no canonical
program with it. -/
theorem exists_row_of_copy : ∃ (a b a' : AnyModel ℚ) (k : Block) (r : LinearConstraint ℚ),
    Copies a b ∧ k ∈ b.store.blocks ∧ k ∉ a.store.blocks ∧ (Constraint.linear r).Composed [k] ∧
    a.subjectTo (.leaf (.linear r)) = (.ok (), a') ∧ r ∈ a'.store.rows ∧
    a'.store.columnCount < r.linear.ncols ∧
    a'.program = .error (.inconsistent (.missingColumn 2 2)) := by
  obtain ⟨r, hr, howner, hncols, hprogram⟩ : ∃ r, spareRow.build = .ok (.linear r) ∧
      r.owner = some ⟨0⟩ ∧ r.linear.ncols = 3 ∧
      (dialled.store.insert (.rows r)).linearProgram =
        .error (.inconsistent (.missingColumn 2 2)) := ⟨_, rfl, rfl, rfl, rfl⟩
  have hclassify : dialled.store.classify (.linear r) = .ok (.rows r) := if_pos howner
  refine ⟨.linear dialled, enlarged, _, spare, r, copies_enlarged, by decide, by decide, ?_,
    AnyModel.subjectTo_linear_leaf hclassify, List.mem_append_right _ (List.mem_singleton_self r),
    ?_, ?_⟩
  · exact ⟨spareRow, fits_spareRow, by decide, by decide, hr⟩
  · rw [hncols]
    exact Nat.lt_succ_self 2
  · have hcurrent := LinearModel.current_update dialled (dialled.store.insert (.rows r))
    have hprimal := hcurrent.primal_spec.1.trans hprogram
    rw [map_eq_error_iff] at hprimal
    show Except.map _ (dialled.update _).primal.1 = _
    rw [hprimal]
    rfl

end ConicForm
