import ConicForm.Proofs.Model.Intake
import ConicForm.Proofs.Model.Reachable

/-!
# The order of what a model holds

The calls of a run can be kept in a ledger: the blocks that declarations have handed out, the
constraints that were accepted since the last reset, and the objective that was accepted last. A
model holds what its ledger says, each sort of constraint in the order in which it was given. Calls
that fail and questions for programs leave no trace.

## Main definitions

* `Ledger`: blocks, constraints and objective, in the order of the calls
* `Ledger.store`: the store of a model that holds what is in a ledger
* `ConeModel.enter`: the ledger after a call
* `ConeModel.Entered`: a model with the ledger of the run that leads to it

## Main results

* `ConeModel.Reachable.exists_entered`: every reachable model has a ledger
* `ConeModel.Entered.store_eq`: a model holds what is in its ledger, and nothing else
-/

namespace ConicForm

variable {α : Type} [Scalar α]

/-- What the calls of a run have put into a model. -/
structure Ledger (α : Type) [Scalar α] where
  /-- The blocks that declarations have handed out. -/
  blocks : List Block := []
  /-- The constraints that were accepted since the last reset. -/
  constraints : List (Constraint α) := []
  /-- The objective that was accepted last, unless there was a reset after it. -/
  objective : Option (Objective α × Goal) := none

namespace Ledger

/-- The store with what is in a ledger: the constraints of each sort are in its part, in order. -/
def store (l : Ledger α) (id : ModelId) (settings : Settings) (name : Option String) :
    ConeStore α where
  linear :=
    { id, name, settings
      declared := l.blocks
      rows := l.constraints.filterMap Constraint.rows?
      bounds := l.constraints.filterMap Constraint.bounds?
      piecewise := l.constraints.filterMap Constraint.piecewise?
      objective := l.objective }
  conic := l.constraints.filterMap Constraint.conic?
  cones := l.constraints.filterMap Constraint.cone?

theorem appended_store (l : Ledger α) (id : ModelId) (settings : Settings) (name : Option String)
    (cs : List (Constraint α)) : (l.store id settings name).appended cs =
      { l with constraints := l.constraints ++ cs }.store id settings name := by
  simp [store, ConeStore.appended, Store.appended]

end Ledger

namespace ConeModel

/-- The ledger after a call on a model. -/
def enter (m : ConeModel α) (l : Ledger α) : Call α → Ledger α
  | .declare shape type name => { l with blocks := l.blocks ++ [(m.declare shape type name).1] }
  | .declareDefault shape => { l with blocks := l.blocks ++ [(m.declareDefault shape).1] }
  | .subjectTo t =>
    match (m.subjectTo t).1 with
    | .ok _ => { l with constraints := l.constraints ++ t.leaves }
    | .error _ => l
  | .setObjective e goal =>
    match (m.setObjective e goal).1 with
    | .ok _ => { l with objective := some (e, goal) }
    | .error _ => l
  | .reset => { l with constraints := [], objective := none }
  | .primal | .linearDual | .dual => l

/-- Models that runs of calls lead to, with the ledgers of the runs. -/
inductive Entered : ConeModel α → Ledger α → Prop
  | empty (id settings name) : Entered (.empty id settings name) {}
  | after {m l} {c : Call α} : Entered m l → c.Built m.store.linear.blocks →
      Entered (m.after c) (m.enter l c)

variable {m : ConeModel α} {l : Ledger α}

theorem Entered.reachable (h : m.Entered l) : m.Reachable := by
  induction h with
  | empty id settings name => exact .empty id settings name
  | after _ hc ih => exact ih.after hc

/-- **Every reachable model has a ledger.** -/
theorem Reachable.exists_entered (hm : m.Reachable) : ∃ l, m.Entered l := by
  induction hm with
  | empty id settings name => exact ⟨_, .empty id settings name⟩
  | after _ hc ih =>
    obtain ⟨l, hl⟩ := ih
    exact ⟨_, hl.after hc⟩

section Step

variable {id : ModelId} {settings : Settings} {name : Option String}
  (hl : m.store = l.store id settings name)

include hl

theorem store_declare_eq (shape : Shape) (type : VariableType) (label : Option String) :
    (m.declare shape type label).2.store =
      { l with blocks := l.blocks ++ [(m.declare shape type label).1] }.store id settings name := by
  show { m.store with linear := (m.store.linear.declare shape type label).2 } = _
  rw [declare, hl]
  rfl

/-- A call enters what it does to the store. -/
theorem Current.store_after_eq (hm : m.Current) (c : Call α) :
    (m.after c).store = (m.enter l c).store id settings name := by
  cases c with
  | declare shape type label => exact store_declare_eq hl shape type label
  | declareDefault shape => exact store_declare_eq hl shape m.store.linear.settings.defaultType none
  | subjectTo t =>
    rw [ConeModel.after, enter]
    cases h : (m.subjectTo t).1 with
    | error e =>
      rw [show (m.subjectTo t).2 = m from snd_attempt_of_error h]
      exact hl
    | ok =>
      rw [← l.appended_store, ← hl]
      exact (ConeModel.intake.allOrNothing m t).contents _ (Prod.ext h rfl)
  | setObjective e goal =>
    rw [ConeModel.after, enter]
    cases h : (m.setObjective e goal).1 with
    | error x =>
      rw [show (m.setObjective e goal).2 = m from snd_attempt_of_error h]
      exact hl
    | ok =>
      obtain ⟨s, hs⟩ := fst_attempt_eq_ok_iff.mp h
      obtain ⟨-, rfl⟩ := Store.eq_of_setObjective_eq_ok hs
      rw [setObjective, hs]
      show { m.store with linear := { m.store.linear with objective := some (e, goal) } } = _
      rw [hl]
      rfl
  | reset =>
    show ConeStore.mk m.store.linear.clear [] [] = _
    rw [hl]
    rfl
  | primal => exact hm.primal_spec.2.1.trans hl
  | linearDual => exact hm.linearDual_spec.2.1.trans hl
  | dual => exact hm.dual_spec.2.1.trans hl

end Step

/-- **A model holds what is in its ledger, and nothing else.** -/
theorem Entered.store_eq (h : m.Entered l) :
    m.store = l.store m.store.linear.id m.store.linear.settings m.store.linear.name := by
  have hstore : ∃ id settings name, m.store = l.store id settings name := by
    induction h with
    | empty id settings name => exact ⟨id, settings, name, rfl⟩
    | after hm _ ih =>
      obtain ⟨id, settings, name, hl⟩ := ih
      exact ⟨id, settings, name, Current.store_after_eq hl hm.reachable.valid.toCurrent _⟩
  obtain ⟨id, settings, name, hl⟩ := hstore
  rw [hl]
  rfl

end ConeModel

end ConicForm
