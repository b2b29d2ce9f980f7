import ConicForm.Model.Cone

/-!
# Calls

A run is a list of calls on a model. A change that fails leaves the model as it is; a question for
a program changes nothing but what is cached.

## Main definitions

* `Call`: declarations, changes and questions
* `ConeModel.after`, `LinearModel.after`: the model after a call
* `ConeModel.Changes`, `LinearModel.Changes`: the calls that change what a model holds

## Main results

* `ConeModel.after_cases`, `LinearModel.after_cases`: what a call can do to a model
-/

namespace ConicForm

/-- The calls of a model. -/
inductive Call (α : Type) [Scalar α] where
  | declare (shape : Shape) (type : VariableType) (name : Option String)
  | declareDefault (shape : Shape)
  | subjectTo (t : Collection (Constraint α))
  | setObjective (e : Objective α) (goal : Goal)
  | reset
  | primal
  | linearDual
  | dual

section Attempt

variable {ε σ μ : Type} {r : Except ε σ} {put : σ → μ}

/-- What holds before a change that may fail, and after it where it succeeds, holds afterwards. -/
theorem snd_attempt_of_ok {P : μ → Prop} {m : μ} (hm : P m)
    (hput : ∀ m', attempt m r put = (.ok (), m') → P m') : P (attempt m r put).2 := by
  cases r with
  | error e => exact hm
  | ok s => exact hput _ rfl

/-- A change that may fail leads to what it puts into place, or leaves what there was. -/
theorem attempt_cases (m : μ) (r : Except ε σ) (put : σ → μ) :
    ((attempt m r put).1 = .ok () ∧ ∃ s, (attempt m r put).2 = put s) ∨
      (¬(attempt m r put).1 = .ok () ∧ (attempt m r put).2 = m) := by
  cases r with
  | error e => exact .inr ⟨by rintro ⟨⟩, rfl⟩
  | ok s => exact .inl ⟨rfl, s, rfl⟩

/-- Two changes that agree in a part of what they put into place answer the same, and leave things
that agree in this part. -/
theorem map_attempt_eq {τ ν ρ : Type} {m : μ} {n : ν} {r' : Except ε τ} {put' : τ → ν} {f : μ → ρ}
    {g : ν → ρ} (hm : f m = g n)
    (hr : (r.map fun s => f (put s)) = r'.map fun t => g (put' t)) :
    (attempt m r put).map id f = (attempt n r' put').map id g := by
  cases r with
  | error e =>
    cases r' with
    | error e' =>
      cases hr
      exact congrArg (Prod.mk _) hm
    | ok t => cases hr
  | ok s =>
    cases r' with
    | error e' => cases hr
    | ok t => exact congrArg (Prod.mk _) (Except.ok.inj hr)

theorem exists_of_map_id_eq {τ ν : Type} {f : μ → ν} {x : τ × μ} {a : τ} {n : ν}
    (h : x.map id f = (a, n)) : ∃ m, x = (a, m) ∧ f m = n := by
  cases h
  exact ⟨_, rfl, rfl⟩

end Attempt

variable {α : Type} [Scalar α]

namespace ConeModel

/-- The model after a call, whether it has succeeded or not. -/
def after (m : ConeModel α) : Call α → ConeModel α
  | .declare shape type name => (m.declare shape type name).2
  | .declareDefault shape => (m.declareDefault shape).2
  | .subjectTo t => (m.subjectTo t).2
  | .setObjective e goal => (m.setObjective e goal).2
  | .reset => m.reset
  | .primal => m.primal.2
  | .linearDual => m.linearDual.2
  | .dual => m.dual.2

/-- Declarations, resets, and the constraints and objectives that are accepted. -/
def Changes (m : ConeModel α) : Call α → Prop
  | .declare _ _ _ | .declareDefault _ | .reset => True
  | .subjectTo t => (m.subjectTo t).1 = .ok ()
  | .setObjective e goal => (m.setObjective e goal).1 = .ok ()
  | .primal | .linearDual | .dual => False

/-- A call changes the store and drops all caches, or it fails and leaves the model, or it asks for
a program. -/
theorem after_cases (m : ConeModel α) (c : Call α) :
    (m.Changes c ∧ ∃ s, m.after c = m.update s) ∨
      (¬m.Changes c ∧ (m.after c = m ∨ m.after c = m.primal.2 ∨ m.after c = m.linearDual.2 ∨
        m.after c = m.dual.2)) := by
  cases c with
  | declare shape type name => exact .inl ⟨trivial, _, rfl⟩
  | declareDefault shape => exact .inl ⟨trivial, _, rfl⟩
  | reset => exact .inl ⟨trivial, _, rfl⟩
  | subjectTo t =>
    exact (attempt_cases m _ m.update).imp_right (.imp_right .inl)
  | setObjective e goal =>
    refine (attempt_cases m _ _).imp (.imp_right ?_) (.imp_right .inl)
    rintro ⟨s, hs⟩
    exact ⟨_, hs⟩
  | primal => exact .inr ⟨id, .inr (.inl rfl)⟩
  | linearDual => exact .inr ⟨id, .inr (.inr (.inl rfl))⟩
  | dual => exact .inr ⟨id, .inr (.inr (.inr rfl))⟩

end ConeModel

namespace LinearModel

/-- The model after a call, whether it has succeeded or not. A linear model has one dual, which both
calls for a dual ask for. -/
def after (m : LinearModel α) : Call α → LinearModel α
  | .declare shape type name => (m.declare shape type name).2
  | .declareDefault shape => (m.declareDefault shape).2
  | .subjectTo t => (m.subjectTo t).2
  | .setObjective e goal => (m.setObjective e goal).2
  | .reset => m.reset
  | .primal => m.primal.2
  | .linearDual | .dual => m.dual.2

/-- Declarations, resets, and the constraints and objectives that are accepted. -/
def Changes (m : LinearModel α) : Call α → Prop
  | .declare _ _ _ | .declareDefault _ | .reset => True
  | .subjectTo t => (m.subjectTo t).1 = .ok ()
  | .setObjective e goal => (m.setObjective e goal).1 = .ok ()
  | .primal | .linearDual | .dual => False

/-- A call changes the store and drops both caches, or it fails and leaves the model, or it asks
for a program. -/
theorem after_cases (m : LinearModel α) (c : Call α) :
    (m.Changes c ∧ ∃ s, m.after c = m.update s) ∨
      (¬m.Changes c ∧ (m.after c = m ∨ m.after c = m.primal.2 ∨ m.after c = m.dual.2)) := by
  cases c with
  | declare shape type name => exact .inl ⟨trivial, _, rfl⟩
  | declareDefault shape => exact .inl ⟨trivial, _, rfl⟩
  | reset => exact .inl ⟨trivial, _, rfl⟩
  | subjectTo t =>
    exact (attempt_cases m _ m.update).imp_right (.imp_right .inl)
  | setObjective e goal =>
    exact (attempt_cases m _ m.update).imp_right (.imp_right .inl)
  | primal => exact .inr ⟨id, .inr (.inl rfl)⟩
  | linearDual => exact .inr ⟨id, .inr (.inr rfl)⟩
  | dual => exact .inr ⟨id, .inr (.inr rfl)⟩

end LinearModel

end ConicForm
