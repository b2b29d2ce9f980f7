import ConicForm.Proofs.Canonical.Insertion
import ConicForm.Proofs.Canonical.Parts
import ConicForm.Proofs.Model.Base
import ConicForm.Proofs.Model.Workspace

/-!
# Declaring columns

A model in which everything is over its own columns answers, with a block declared, the program that
it answered before, with the columns of the block inserted behind the declared ones: rows stay as
they are, and auxiliary columns and what refers to them move up as one. Models of a session are so.
A copy takes rows on columns that only the other copy has, which are auxiliary columns of its own
program; the rows stay on these when the columns come to be declared ones.

## Main results

* `ConeStore.Over.coneProgram_declare`, `Store.linearProgram_declare`: programs of stores
* `Workspace.program_after_declare`: programs of models
* `exists_row_not_moved`: a row of a copy that stays on a column that has moved
-/

namespace ConicForm

variable {α : Type} [Scalar α]

/-! ## Programs of stores -/

theorem ConeStore.Over.declare {s : ConeStore α} {n : Nat} (hs : s.Over n) (shape : Shape)
    (type : VariableType) (name : Option String) :
    ConeStore.Over n { s with linear := (s.linear.declare shape type name).2 } := by
  have hspanned : Block.Spanned s.linear.id n [] := by simp [Block.Spanned]
  exact hs.step hspanned (.declare shape type name)

namespace ConeStore

variable {s : ConeStore α} (hs : s.Over s.linear.columnCount)

include hs

/-- Pieces over the columns of a store are expanded, and assembled with the store, before and after
a block is declared. -/
theorem Over.exists_expansions {ps : List (Piece α)}
    (hps : ∀ p ∈ ps, p.Scoped s.linear.id s.linear.columnCount) (shape : Shape)
    (type : VariableType) (name : Option String) : ∃ e e',
      (expandAll s.linear.id s.linear.columnCount ps = .ok e ∧ e.Scoped s.linear.columnCount ∧
        s.linear.assemble e = .ok (s.linear.assembled e)) ∧
      (expandAll s.linear.id (s.linear.declare shape type name).2.columnCount ps = .ok e' ∧
        e'.Scoped (s.linear.declare shape type name).2.columnCount ∧
        (s.linear.declare shape type name).2.assemble e' =
          .ok ((s.linear.declare shape type name).2.assembled e')) ∧
      e.Shifts (s.linear.gap shape) e' ∧
      (s.linear.declare shape type name).2.assembled e' =
        (s.linear.assembled e).insertColumns (s.linear.gap shape) type := by
  have hcount := s.linear.columnCount_declare shape type name
  have hle : s.linear.columnCount ≤ (s.linear.declare shape type name).2.columnCount :=
    hcount ▸ Nat.le_add_right _ _
  have hs' := (hs.declare shape type name).mono hle
  obtain ⟨e, he, hes⟩ := exists_expandAll_scoped le_rfl hps
  obtain ⟨e', he', hes'⟩ := exists_expandAll_scoped hle hps
  have hshifts : e.Shifts (s.linear.gap shape) e' := by
    rw [hcount] at he'
    exact shifts_expandAll (g := s.linear.gap shape) hps le_rfl he he'
  exact ⟨e, e', ⟨he, hes, Store.assemble_eq_ok_of_scoped hs.rows hs.bounds hes⟩,
    ⟨he', hes', Store.assemble_eq_ok_of_scoped hs'.rows hs'.bounds hes'⟩, hshifts,
    Store.assembled_declare shape type name hshifts hs.rows hs.bounds hes hes'⟩

/-- **The canonical cone program with a block declared** is the one before, with the columns of the
block inserted. -/
theorem Over.coneProgram_declare (shape : Shape) (type : VariableType) (name : Option String) :
    coneProgram { s with linear := (s.linear.declare shape type name).2 } =
      s.coneProgram.map (·.insertColumns (s.linear.gap shape) type) := by
  have hsame : pieces { s with linear := (s.linear.declare shape type name).2 } = s.pieces := rfl
  cases hpieces : s.pieces with
  | error err =>
    unfold coneProgram
    rw [hsame, hpieces]
    rfl
  | ok ps =>
    obtain ⟨e, e', ⟨he, hes, hassemble⟩, ⟨he', hes', hassemble'⟩, hshifts, hassembled⟩ :=
      hs.exists_expansions (hs.scoped_pieces le_rfl hpieces) shape type name
    have hcones : ∀ c ∈ s.cones, ∀ j ∈ c.record,
        j < (s.linear.declare shape type name).2.columnCount := by
      intro c hc j hj
      rw [Store.columnCount_declare]
      exact (hs.cones c hc j hj).trans_le (Nat.le_add_right _ _)
    rw [coneProgram_eq_ok (hsame.trans hpieces) he' hassemble' (records_assembled hcones hes'),
      coneProgram_eq_ok hpieces he hassemble (records_assembled hs.cones hes),
      assembled_declare shape type name hassembled hshifts hs.cones]
    rfl

end ConeStore

/-- **The canonical linear program with a block declared.** -/
theorem Store.linearProgram_declare {s : Store α} (hs : s.toCone.Over s.columnCount) (shape : Shape)
    (type : VariableType) (name : Option String) :
    (s.declare shape type name).2.linearProgram =
      s.linearProgram.map (·.insertColumns (s.gap shape) type) := by
  have hsame : (s.declare shape type name).2.linearPieces = s.linearPieces := rfl
  cases hpieces : s.linearPieces with
  | error err =>
    unfold linearProgram
    rw [hsame, hpieces]
    rfl
  | ok ps =>
    obtain ⟨e, e', ⟨he, -, hassemble⟩, ⟨he', -, hassemble'⟩, -, hassembled⟩ :=
      ConeStore.Over.exists_expansions (s := s.toCone) hs (hs.scoped_linearPieces hpieces) shape
        type name
    rw [linearProgram_eq_ok (hsame.trans hpieces) he' hassemble',
      linearProgram_eq_ok hpieces he hassemble]
    exact congrArg Except.ok hassembled

/-! ## Programs of models -/

namespace AnyModel

/-- A model answers the program of its store. -/
theorem program_linear {m : LinearModel α} (hm : m.Current) :
    (linear m).program = m.store.linearProgram.map fun p => ⟨p, []⟩ := by
  rw [← hm.primal_spec.1]
  show m.primal.1.map _ = _
  cases m.primal.1 <;> rfl

@[inherit_doc program_linear] theorem program_cone {m : ConeModel α} (hm : m.Current) :
    (cone m).program = m.store.coneProgram := hm.primal_spec.1

/-- A model in which everything is over its own columns answers, with a block declared, the program
with the columns of the block inserted. -/
theorem Current.program_declare {m : AnyModel α} (hm : m.Current)
    (hover : m.coneStore.Over m.store.columnCount) (shape : Shape) (type : VariableType)
    (name : Option String) : (m.after (.declare shape type name)).program =
      m.program.map (·.insertColumns (m.store.gap shape) type) := by
  have hafter := hm.after (.declare shape type name)
  cases m with
  | linear m =>
    have hprogram := Store.linearProgram_declare (s := m.store) hover shape type name
    refine (program_linear hafter).trans ?_
    show ((m.store.declare shape type name).2.linearProgram).map _ = _
    rw [program_linear hm, hprogram]
    cases m.store.linearProgram <;> rfl
  | cone m =>
    rw [program_cone hm]
    exact (program_cone hafter).trans (hover.coneProgram_declare shape type name)

end AnyModel

/-- **Declaring columns only moves auxiliary ones.** A model in which everything is over its own
columns answers, with a block declared, what it answered before, with the columns of the block
inserted behind its own. A model of a session is so, and answers a program. -/
theorem Workspace.program_after_declare {ms : List (AnyModel α)} (h : Workspace ms) {m : AnyModel α}
    (hm : m ∈ ms) :
    (Session ms → m.coneStore.Over m.store.columnCount ∧ ∃ p, m.program = .ok p) ∧
      (m.coneStore.Over m.store.columnCount →
        ∀ (shape : Shape) (type : VariableType) (name : Option String),
          (m.after (.declare shape type name)).program =
            m.program.map (·.insertColumns (m.store.gap shape) type)) := by
  obtain ⟨n, hms⟩ := h.exists_within
  refine ⟨fun hsession => ⟨hsession.over hm, ?_⟩, (hms m hm).current.program_declare⟩
  have hreachable := hsession.reachable m hm
  obtain ⟨e, -, he⟩ := hreachable.valid_coneStore.exists_coneProgram_scoped
  exact ⟨_, hreachable.program_eq.trans he⟩

/-- Two binary columns are inserted behind the objective column and the two declared ones; the
copies of a norm's bound and input move up by two. -/
theorem Workspace.program_after_declare_rounded :
    ∃ (m : ConeModel ℚ) (p : ConeProgram ℚ), Workspace [.cone m] ∧
      AnyModel.cone m ∈ [AnyModel.cone m] ∧ Session [.cone m] ∧
      (AnyModel.cone m).coneStore.Over (AnyModel.cone m).store.columnCount ∧
      (AnyModel.cone m).program = .ok p ∧ p.records = [[5, 3, 4]] ∧
      ((AnyModel.cone m).after (.declare (.vector 2) .binary none)).program =
        .ok (p.insertColumns ⟨3, 2⟩ .binary) ∧
      (p.insertColumns ⟨3, 2⟩ .binary).records = [[7, 5, 6]] := by
  obtain ⟨v, w, hm, -, hdeclared, -, p, -, -, -, hp, -, -, -, -, -, hrecords, -⟩ :=
    ConeModel.exists_rounded
  have hsession := AnyModel.Reachable.session (m := .cone (ConeModel.rounded v w)) hm
  obtain ⟨hown, hinserted⟩ := hsession.workspace.program_after_declare (List.mem_singleton_self _)
  obtain ⟨hover, -⟩ := hown hsession
  have hprogram : (AnyModel.cone (ConeModel.rounded v w)).program = .ok p :=
    (AnyModel.program_cone hm.valid.toCurrent).trans hp
  have hgap : (AnyModel.cone (ConeModel.rounded v w)).store.gap (.vector 2) = ⟨3, 2⟩ := by
    show Store.gap (ConeModel.rounded v w).store.linear _ = _
    rw [Store.gap, Store.columnCount, Store.blocks, hdeclared]
    rfl
  refine ⟨_, p, hsession.workspace, List.mem_singleton_self _, hsession, hover, hprogram, hrecords,
    ?_, ?_⟩
  · rw [hinserted hover, hprogram, hgap]
    rfl
  · rw [ConeProgram.insertColumns, hrecords]
    rfl

/-! ### A row of a copy -/

/-- A linear model with a column and a constraint. -/
def normed (c : ConvexConstraint PiecewiseKind ℚ) : LinearModel ℚ :=
  dialled.update (dialled.store.insert (.piecewise c))

/-- The model with a row. -/
def crowded (c : ConvexConstraint PiecewiseKind ℚ) (r : LinearConstraint ℚ) : LinearModel ℚ :=
  (normed c).update ((normed c).store.insert (.rows r))

/-- The row may be on a column that a copy of the model has declared. -/
theorem workspace_crowded {v : ConvexConstraint ConvexKind ℚ} {r : LinearConstraint ℚ}
    (hv : (ConvexExpression.apply (.piecewise .norm1) (.ofBlock dial)).le (.number 3) = .ok v)
    (hkind : v.owner = some ⟨0⟩ ∧ v.kind = .piecewise .norm1)
    (hr : (Affine.ofBlock spare).le (.number 5) = .ok r) (howner : r.owner = some ⟨0⟩) :
    ∃ copy, Workspace [.linear (crowded { v with kind := .norm1 } r), copy] := by
  have hempty : Workspace [.linear (.empty ⟨0⟩ {} none : LinearModel ℚ)] :=
    .create .nil (.linear ..) (by simp)
  have hdialled := @Workspace.call ℚ _ [] _ [] (.declare .scalar .continuous none) hempty trivial
  have hnormed := @Workspace.call ℚ _ [] _ [] (.subjectTo (.leaf (.convex v))) hdialled
    (.leaf (.convexLe (.apply _ (.block (by decide))) (.number 3) hv))
  have hclassify : dialled.store.classify (.convex v) =
      .ok (.piecewise { v with kind := .norm1 }) := by
    simp only [Store.classify, hkind]
    rfl
  have hafter : (AnyModel.linear dialled).after (.subjectTo (.leaf (.convex v))) =
      .linear (normed { v with kind := .norm1 }) :=
    AnyModel.after_subjectTo (AnyModel.subjectTo_linear_leaf hclassify)
  have hcopied := Workspace.clone (m := .linear (normed { v with kind := .norm1 }))
    (hafter ▸ hnormed) (List.mem_singleton_self _)
  have hspare := @Workspace.call ℚ _ [_] _ [] (.declare .scalar .continuous none) hcopied trivial
  have hcrowded := @Workspace.call ℚ _ [] _ [_] (.subjectTo (.leaf (.linear r))) hspare
    (.leaf (.le (.block (b := spare) ?_) (.number 5) hr))
  · have hafter' : (AnyModel.linear (normed { v with kind := .norm1 })).after
        (.subjectTo (.leaf (.linear r))) = .linear (crowded { v with kind := .norm1 } r) :=
      AnyModel.after_subjectTo (AnyModel.subjectTo_linear_leaf (if_pos howner))
    exact ⟨_, hafter' ▸ hcrowded⟩
  · refine List.mem_flatMap.mpr ⟨_, List.mem_cons_of_mem _ (List.mem_singleton_self _), ?_⟩
    exact List.mem_cons_of_mem _ (List.mem_cons_of_mem _ List.mem_cons_self)

/-- **A row that stays where a column has moved.** The row is on a column of the copy, which is the
auxiliary column of a norm; with a column declared, that one is in its place. -/
theorem exists_row_not_moved : ∃ (ms : List (AnyModel ℚ)) (m : AnyModel ℚ) (p q : ConeProgram ℚ),
    Workspace ms ∧ m ∈ ms ∧ m.program = .ok p ∧
      (m.after (.declare .scalar .continuous none)).program = .ok q ∧
      p.linear.linear.rowPattern 0 = [2] ∧ q.linear.linear.rowPattern 0 = [2] ∧
      (p.insertColumns (m.store.gap .scalar) .continuous).linear.linear.rowPattern 0 = [3] ∧
      q ≠ p.insertColumns (m.store.gap .scalar) .continuous := by
  have hcheck : (do
      let v ← (ConvexExpression.apply (.piecewise .norm1) (.ofBlock dial)).le (.number (3 : ℚ))
      let r ← (Affine.ofBlock spare : Affine ℚ).le (.number 5)
      let s : Store ℚ := ⟨⟨0⟩, none, {}, [dial], [r], [], [{ v with kind := .norm1 }], none⟩
      let p ← s.linearProgram
      let q ← (s.declare .scalar .continuous none).2.linearProgram
      return decide ((v.owner = some ⟨0⟩ ∧ v.kind = .piecewise .norm1) ∧ r.owner = some ⟨0⟩ ∧
        p.linear.rowPattern 0 = [2] ∧ q.linear.rowPattern 0 = [2] ∧
        (p.insertColumns (s.gap .scalar) .continuous).linear.rowPattern 0 = [3])) =
      Except.ok true := by
    decide +kernel
  obtain ⟨v, hv, h⟩ := exists_of_bind_eq_ok hcheck
  obtain ⟨r, hr, h⟩ := exists_of_bind_eq_ok h
  obtain ⟨p, hp, h⟩ := exists_of_bind_eq_ok h
  obtain ⟨q, hq, h⟩ := exists_of_bind_eq_ok h
  obtain ⟨hkind, howner, hrow, hrow', hmoved⟩ := of_decide_eq_true (Except.ok.inj h)
  obtain ⟨copy, hworkspace⟩ := workspace_crowded hv hkind hr howner
  have hcurrent : (AnyModel.linear (crowded { v with kind := .norm1 } r)).Current :=
    LinearModel.current_update _ _
  refine ⟨_, .linear (crowded { v with kind := .norm1 } r), ⟨p, []⟩, ⟨q, []⟩, hworkspace,
    List.mem_cons_self, ?_, ?_, hrow, hrow', hmoved, ?_⟩
  · rw [AnyModel.program_linear hcurrent]
    exact congrArg (Except.map _) hp
  · refine (AnyModel.program_linear (hcurrent.after (.declare .scalar .continuous none))).trans ?_
    exact congrArg (Except.map _) hq
  · intro heq
    have hpattern := congrArg (fun k : ConeProgram ℚ => k.linear.linear.rowPattern 0) heq
    cases (hrow'.symm.trans hpattern).trans hmoved

end ConicForm
