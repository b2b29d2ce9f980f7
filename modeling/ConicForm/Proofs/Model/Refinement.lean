import ConicForm.Proofs.Canonical.Embedding
import ConicForm.Proofs.Exact
import ConicForm.Proofs.Model.Current
import ConicForm.Proofs.Model.Intake

/-!
# Cone models refine linear models

A cone model takes more than a linear model: functions that second-order cones describe, and direct
memberships. On everything else the two are one and the same. They sort constraints, refuse them,
build programs and cache them by definitions of their own, which agree step by step: a cone model
holds the store of the linear model and nothing besides, and its programs have no records.

## Main definitions

* `Constraint.Coneless`, `Call.Coneless`: what has to do with no second-order cone
* `ConeModel.Refines`: a cone model that holds what a linear model does
* `ConeModel.Agrees`: a cone model whose answers are those of a linear model

## Main results

* `ConeModel.Refines.after`, `ConeModel.Refines.foldl_after`: calls without cones keep it so
* `coneless_agrees`: two models that are given the same calls without cones agree throughout
-/

namespace ConicForm

variable {α : Type} [Scalar α]

/-! ## What has to do with no cone -/

/-- Constraints that are neither on a function that cones describe nor a direct membership in a
second-order cone. -/
def Constraint.Coneless : Constraint α → Prop
  | convex c => ∀ k, c.kind ≠ .conic k
  | cone _ => False
  | linear _ | bounds _ | expCone _ => True

/-- Calls that are given no second-order cone. -/
def Call.Coneless : Call α → Prop
  | subjectTo t => ∀ c ∈ t.leaves, c.Coneless
  | setObjective e _ => e.Coneless
  | declare _ _ _ | declareDefault _ | reset | primal | linearDual | dual => True

/-- Both sorts of models handle the same functions among those that are not conic. -/
theorem handles_eq_of_not_conic {k : ConvexKind} (hk : ∀ j, k ≠ .conic j) :
    ConeModel.handles k = LinearModel.handles k := by
  cases k with
  | piecewise j => rfl
  | conic j => exact absurd rfl (hk j)
  | exp => rfl

/-! ## Stores -/

namespace Store

variable {s : Store α}

/-- A constraint without a cone is sorted into the store of linear constraints, or refused for the
reason for which that store refuses it. -/
theorem classify_toCone {c : Constraint α} (hc : c.Coneless) :
    s.toCone.classify c = (s.classify c).map .store := by
  have hleft : (do return ConeItem.store (← s.classify c)) = (s.classify c).map .store := by
    cases s.classify c <;> rfl
  cases c with
  | linear r => exact hleft
  | bounds b => exact hleft
  | expCone k => exact hleft
  | cone k => exact hc.elim
  | convex v =>
    simp only [ConeStore.classify, classify]
    by_cases ho : v.owner = some s.id
    · rw [if_pos (show v.owner = some s.toCone.linear.id from ho), if_pos ho]
      cases hk : v.kind with
      | piecewise k => rfl
      | conic k => exact absurd hk (hc k)
      | exp => rfl
    · rw [if_neg (show v.owner ≠ some s.toCone.linear.id from ho), if_neg ho]
      rfl

theorem foldl_insert_toCone (items : List (StoreItem α)) :
    (items.map .store).foldl ConeStore.insert s.toCone = (items.foldl insert s).toCone := by
  induction items generalizing s with
  | nil => rfl
  | cons i items ih => exact ih

theorem insertAll_toCone {cs : List (Constraint α)} (hcs : ∀ c ∈ cs, c.Coneless) :
    s.toCone.insertAll cs = (s.insertAll cs).map toCone := by
  unfold ConeStore.insertAll insertAll
  rw [mapM_eq_map_mapM ConeItem.store fun c hc => classify_toCone (hcs c hc)]
  cases cs.mapM s.classify with
  | error e => rfl
  | ok items => exact congrArg Except.ok (foldl_insert_toCone items)

theorem setObjective_coneless {e : Objective α} (he : e.Coneless) (goal : Goal) :
    s.setObjective ConeModel.handles e goal = s.setObjective LinearModel.handles e goal := by
  cases e with
  | affine a => rfl
  | convex c => simp only [setObjective, handles_eq_of_not_conic he]

theorem linearDualProgram_toCone (hs : ∀ p ∈ s.objective, p.1.Coneless) :
    s.toCone.linearDualProgram = s.dualProgram := by
  have hprogram := coneProgram_toCone hs
  cases hp : s.linearProgram with
  | error e =>
    rw [hp] at hprogram
    rw [ConeStore.linearDualProgram_of_error hprogram, dualProgram_of_error hp]
  | ok p =>
    rw [hp] at hprogram
    rw [ConeStore.linearDualProgram_of_ok hprogram, dualProgram_of_ok hp]

/-- Without records the dual cone program is the dual of the linear part. -/
theorem dualProgram_toCone (hs : ∀ p ∈ s.objective, p.1.Coneless) :
    s.toCone.dualProgram = s.dualProgram.map (⟨·, []⟩) := by
  have hprogram := coneProgram_toCone hs
  cases hp : s.linearProgram with
  | error e =>
    rw [hp] at hprogram
    rw [ConeStore.dualProgram_of_error hprogram, dualProgram_of_error hp]
    rfl
  | ok p =>
    rw [hp] at hprogram
    rw [ConeStore.dualProgram_of_ok hprogram, linearDualProgram_toCone hs]
    cases s.dualProgram <;> rfl

end Store

/-! ## Models -/

namespace ConeModel

/-- A cone model that holds what a linear model does, and no cones besides. -/
structure Refines (m : ConeModel α) (l : LinearModel α) : Prop where
  store : m.store = l.store.toCone
  coneless : ∀ p ∈ l.store.objective, p.1.Coneless
  cone : m.Current
  linear : l.Current

/-- A cone model that does what a linear model does: both accept the same calls and refuse the
others for the same reasons, hold the same afterwards, and answer the same programs. -/
structure Agrees (m : ConeModel α) (l : LinearModel α) : Prop where
  store : m.store = l.store.toCone
  declare : ∀ shape type name, (m.declare shape type name).1 = (l.declare shape type name).1
  declareDefault : ∀ shape, (m.declareDefault shape).1 = (l.declareDefault shape).1
  subjectTo : ∀ t : Collection (Constraint α), (∀ c ∈ t.leaves, c.Coneless) →
    (m.subjectTo t).map id ConeModel.store = (l.subjectTo t).map id fun l => l.store.toCone
  setObjective : ∀ (e : Objective α) (goal : Goal), e.Coneless →
    (m.setObjective e goal).map id ConeModel.store =
      (l.setObjective e goal).map id fun l => l.store.toCone
  /-- The canonical cone program is the canonical linear program, without records. -/
  primal : m.primal.1.map Handle.value = (l.primal.1.map Handle.value).map (⟨·, []⟩)
  linearDual : m.linearDual.1.map Handle.value = l.dual.1.map Handle.value
  /-- The dual cone program is the dual of the canonical linear program, without records. -/
  dual : m.dual.1.map Handle.value = (l.dual.1.map Handle.value).map (⟨·, []⟩)

theorem refines_empty (id : ModelId) (settings : Settings) (name : Option String) :
    (empty id settings name : ConeModel α).Refines (.empty id settings name) where
  store := rfl
  coneless := by rintro p ⟨⟩
  cone := current_empty id settings name
  linear := LinearModel.current_empty id settings name

namespace Refines

variable {m : ConeModel α} {l : LinearModel α}

theorem map_subjectTo (h : m.Refines l) {t : Collection (Constraint α)}
    (ht : ∀ c ∈ t.leaves, c.Coneless) :
    (m.subjectTo t).map id ConeModel.store = (l.subjectTo t).map id fun l => l.store.toCone := by
  refine map_attempt_eq h.store ?_
  rw [h.store]
  show Except.map _ (t.flatten l.store.settings.maxNesting >>= _) =
    Except.map _ (t.flatten l.store.settings.maxNesting >>= _)
  cases hflat : t.flatten l.store.settings.maxNesting with
  | error e => rfl
  | ok cs =>
    rw [← Collection.flatten_eq_leaves hflat] at ht
    show Except.map _ (l.store.toCone.insertAll cs) = Except.map _ (l.store.insertAll cs)
    rw [Store.insertAll_toCone ht]
    cases l.store.insertAll cs <;> rfl

theorem map_setObjective (h : m.Refines l) {e : Objective α} (he : e.Coneless) (goal : Goal) :
    (m.setObjective e goal).map id ConeModel.store =
      (l.setObjective e goal).map id fun l => l.store.toCone := by
  refine map_attempt_eq h.store ?_
  rw [h.store]
  show Except.map _ (l.store.setObjective ConeModel.handles e goal) = _
  rw [Store.setObjective_coneless he]
  cases l.store.setObjective LinearModel.handles e goal <;> rfl

/-- A call without cones leaves both models with the same store. -/
theorem store_after (h : m.Refines l) {c : Call α} (hc : c.Coneless) :
    (m.after c).store = (l.after c).store.toCone := by
  cases c with
  | declare shape type name =>
    show { m.store with linear := (m.store.linear.declare shape type name).2 } = _
    rw [h.store]
    rfl
  | declareDefault shape =>
    show { m.store with linear :=
      (m.store.linear.declare shape m.store.linear.settings.defaultType none).2 } = _
    rw [h.store]
    rfl
  | subjectTo t =>
    exact congrArg Prod.snd (h.map_subjectTo hc)
  | setObjective e goal =>
    exact congrArg Prod.snd (h.map_setObjective hc goal)
  | reset =>
    show (⟨m.store.linear.clear, [], []⟩ : ConeStore α) = _
    rw [h.store]
    rfl
  | primal => exact h.store
  | linearDual =>
    rw [ConeModel.after, LinearModel.after, h.cone.linearDual_spec.2.1, h.linear.dual_spec.2.1]
    exact h.store
  | dual =>
    rw [ConeModel.after, LinearModel.after, h.cone.dual_spec.2.1, h.linear.dual_spec.2.1]
    exact h.store

/-- A call without cones leaves an objective without cones. -/
theorem coneless_after (h : m.Refines l) {c : Call α} (hc : c.Coneless) :
    ∀ p ∈ (l.after c).store.objective, p.1.Coneless := by
  cases c with
  | declare shape type name => exact h.coneless
  | declareDefault shape => exact h.coneless
  | subjectTo t =>
    refine snd_attempt_of_ok (P := fun k : LinearModel α => ∀ p ∈ k.store.objective, p.1.Coneless)
      h.coneless fun l' hl' => ?_
    have hstore : l'.store = l.store.appended t.leaves :=
      (LinearModel.intake.allOrNothing l t).contents l' hl'
    rw [hstore]
    exact h.coneless
  | setObjective e goal =>
    refine snd_attempt_of_ok (P := fun k : LinearModel α => ∀ p ∈ k.store.objective, p.1.Coneless)
      h.coneless fun l' hl' => ?_
    obtain ⟨s, hs, rfl⟩ := attempt_eq_ok_iff.mp hl'
    obtain ⟨-, rfl⟩ := Store.eq_of_setObjective_eq_ok hs
    rintro p hp
    cases hp
    exact hc
  | reset => rintro p ⟨⟩
  | primal => exact h.coneless
  | linearDual =>
    rw [LinearModel.after, h.linear.dual_spec.2.1]
    exact h.coneless
  | dual =>
    rw [LinearModel.after, h.linear.dual_spec.2.1]
    exact h.coneless

/-- **A call without cones keeps a refinement.** -/
theorem after (h : m.Refines l) {c : Call α} (hc : c.Coneless) :
    (m.after c).Refines (l.after c) where
  store := h.store_after hc
  coneless := h.coneless_after hc
  cone := h.cone.after c
  linear := h.linear.after c

theorem foldl_after (h : m.Refines l) {cs : List (Call α)} (hcs : ∀ c ∈ cs, c.Coneless) :
    (cs.foldl ConeModel.after m).Refines (cs.foldl LinearModel.after l) := by
  induction cs generalizing m l with
  | nil => exact h
  | cons c cs ih =>
    obtain ⟨hc, hcs⟩ := List.forall_mem_cons.mp hcs
    exact ih (h.after hc) hcs

theorem agrees (h : m.Refines l) : m.Agrees l where
  store := h.store
  declare := by
    intro shape type name
    show (m.store.linear.declare shape type name).1 = _
    rw [h.store]
    rfl
  declareDefault := by
    intro shape
    show (m.store.linear.declare shape m.store.linear.settings.defaultType none).1 = _
    rw [h.store]
    rfl
  subjectTo := fun _ ht => h.map_subjectTo ht
  setObjective := fun _ goal he => h.map_setObjective he goal
  primal := by
    rw [h.cone.primal_spec.1, h.linear.primal_spec.1, h.store]
    exact Store.coneProgram_toCone h.coneless
  linearDual := by
    rw [h.cone.linearDual_spec.1, h.linear.dual_spec.1, h.store]
    exact Store.linearDualProgram_toCone h.coneless
  dual := by
    rw [h.cone.dual_spec.1, h.linear.dual_spec.1, h.store]
    exact Store.dualProgram_toCone h.coneless

end Refines

end ConeModel

/-- **Cone models refine linear models.** A cone model and a linear model that are created alike and
given the same calls without second-order cones agree at every step: they accept and refuse the
same, and answer the same programs and duals. -/
theorem coneless_agrees (id : ModelId) (settings : Settings) (name : Option String)
    (cs : List (Call α)) (hcs : ∀ c ∈ cs, c.Coneless) :
    (cs.foldl ConeModel.after (.empty id settings name)).Agrees
      (cs.foldl LinearModel.after (.empty id settings name)) :=
  ((ConeModel.refines_empty id settings name).foldl_after hcs).agrees

/-- The block of a column behind the objective column. -/
def crease : Block := ⟨⟨0⟩, 1, .scalar, .continuous, none⟩

/-- The absolute value of the column is minimized and at most one, with an upper bound on the column
besides. A membership in the exponential cone is refused. -/
def folding : List (Call ℚ) :=
  [.declare .scalar .continuous none,
    .subjectTo (.group [.leaf (.convex ⟨some ⟨0⟩, .ofBlock crease, .number 1, .piecewise .abs⟩),
      .group [.leaf (.bounds (.uniform crease .upper (.value 1)))]]),
    .setObjective (.convex (.apply (.piecewise .abs) (.ofBlock crease))) .minimize,
    .subjectTo (.leaf (.expCone ⟨⟨0⟩, 0, 1, 1⟩)), .dual]

theorem coneless_agrees_folding : (∀ c ∈ folding, c.Coneless) ∧
    (folding.foldl ConeModel.after (.empty ⟨0⟩ {} none)).Agrees
      (folding.foldl LinearModel.after (.empty ⟨0⟩ {} none)) := by
  have hfolding : ∀ c ∈ folding, c.Coneless := by
    simp [folding, Call.Coneless, Constraint.Coneless, Objective.Coneless, ConvexExpression.apply]
  exact ⟨hfolding, coneless_agrees ⟨0⟩ {} none folding hfolding⟩

end ConicForm
