import ConicForm.Proofs.Constraint.Collection
import ConicForm.Proofs.Model.Current
import ConicForm.Proofs.Model.Valid

/-!
# Reachable models

A model is reachable if it comes from an empty one by a run of calls, in any order and any
number, whose arguments are built from the blocks that it has declared by then. Calls may fail;
a failing change leaves the model as it is. Every reachable model has a valid store, and what
its caches hold is what its store gives.

## Main definitions

* `Call.Built`: calls whose arguments are built from blocks
* `ConeModel.Reachable`, `LinearModel.Reachable`: the models that runs of calls lead to
* `ConeModel.Valid`, `LinearModel.Valid`: the invariants of a run

## Main results

* `ConeModel.Valid.after`, `LinearModel.Valid.after`: a call keeps a model valid
* `ConeModel.Reachable.valid`, `LinearModel.Reachable.valid`: so does a run
-/

namespace ConicForm

variable {α : Type} [Scalar α]

/-- Calls whose arguments are built from blocks. -/
def Call.Built (blocks : List Block) : Call α → Prop
  | subjectTo t => ∀ c ∈ t.leaves, c.Built blocks
  | setObjective e _ => e.Built blocks
  | _ => True

/-- A call with a single constraint. -/
theorem Call.Built.leaf {blocks : List Block} {c : Constraint α} (hc : c.Built blocks) :
    (subjectTo (.leaf c)).Built blocks := by
  intro d hd
  rw [Collection.leaves_leaf, List.mem_singleton] at hd
  exact hd ▸ hc

/-! ## Cone models -/

namespace ConeModel

/-- Models that runs of calls lead to. -/
inductive Reachable : ConeModel α → Prop
  | empty (id settings name) : Reachable (.empty id settings name)
  | after {m} {c : Call α} : Reachable m → c.Built m.store.linear.blocks → Reachable (m.after c)

/-- Models with a valid store and caches that hold what the store gives. -/
structure Valid (m : ConeModel α) : Prop extends m.Current where
  store : m.store.Valid

variable {m : ConeModel α}

theorem valid_empty (id : ModelId) (settings : Settings) (name : Option String) :
    (empty id settings name : ConeModel α).Valid :=
  ⟨current_empty id settings name, ConeStore.valid_empty id settings name⟩

/-- What a change that is accepted stores is valid. -/
theorem Valid.subjectTo (hm : m.Valid) {m' : ConeModel α} {t : Collection (Constraint α)}
    (ht : ∀ c ∈ t.leaves, c.Built m.store.linear.blocks) (h : m.subjectTo t = (.ok (), m')) :
    m'.store.Valid := by
  obtain ⟨s, hs, rfl⟩ := attempt_eq_ok_iff.mp h
  obtain ⟨cs, hflat, hs⟩ := exists_of_bind_eq_ok hs
  refine hm.store.insertAll (fun c hc => ?_) hs
  rw [Collection.flatten_eq_leaves hflat] at hc
  exact (ht c hc).scoped hm.store.linear.spanned

theorem Valid.setObjective (hm : m.Valid) {m' : ConeModel α} {e : Objective α} {goal : Goal}
    (he : e.Built m.store.linear.blocks) (h : m.setObjective e goal = (.ok (), m')) :
    m'.store.Valid := by
  obtain ⟨s, hs, rfl⟩ := attempt_eq_ok_iff.mp h
  exact hm.store.setObjective (he.scoped hm.store.linear.spanned) hs

/-- A call whose arguments are built from the blocks of a valid model keeps its store valid. -/
theorem Valid.store_after (hm : m.Valid) {c : Call α} (hc : c.Built m.store.linear.blocks) :
    (m.after c).store.Valid := by
  cases c with
  | declare shape type name => exact hm.store.declare shape type name
  | declareDefault shape => exact hm.store.declare shape _ none
  | subjectTo t =>
    exact snd_attempt_of_ok (P := fun m => m.store.Valid) hm.store fun _ h => hm.subjectTo hc h
  | setObjective e goal =>
    exact snd_attempt_of_ok (P := fun m => m.store.Valid) hm.store fun _ h => hm.setObjective hc h
  | reset => exact hm.store.clear
  | primal => exact hm.primal_spec.2.1 ▸ hm.store
  | linearDual => exact hm.linearDual_spec.2.1 ▸ hm.store
  | dual => exact hm.dual_spec.2.1 ▸ hm.store

/-- A call whose arguments are built from the blocks of a valid model keeps it valid. -/
theorem Valid.after (hm : m.Valid) {c : Call α} (hc : c.Built m.store.linear.blocks) :
    (m.after c).Valid :=
  ⟨hm.toCurrent.after c, hm.store_after hc⟩

/-- **Every reachable model is valid.** -/
theorem Reachable.valid (hm : m.Reachable) : m.Valid := by
  induction hm with
  | empty id settings name => exact valid_empty id settings name
  | after _ hc ih => exact ih.after hc

end ConeModel

/-! ## Linear models -/

namespace LinearModel

/-- Models that runs of calls lead to. -/
inductive Reachable : LinearModel α → Prop
  | empty (id settings name) : Reachable (.empty id settings name)
  | after {m} {c : Call α} : Reachable m → c.Built m.store.blocks → Reachable (m.after c)

/-- Models with a valid store and caches that hold what the store gives. -/
structure Valid (m : LinearModel α) : Prop extends m.Current where
  store : m.store.Valid handles

variable {m : LinearModel α}

theorem valid_empty (id : ModelId) (settings : Settings) (name : Option String) :
    (empty id settings name : LinearModel α).Valid :=
  ⟨current_empty id settings name, Store.valid_empty id settings name⟩

theorem Valid.subjectTo (hm : m.Valid) {m' : LinearModel α} {t : Collection (Constraint α)}
    (ht : ∀ c ∈ t.leaves, c.Built m.store.blocks) (h : m.subjectTo t = (.ok (), m')) :
    m'.store.Valid handles := by
  obtain ⟨s, hs, rfl⟩ := attempt_eq_ok_iff.mp h
  obtain ⟨cs, hflat, hs⟩ := exists_of_bind_eq_ok hs
  refine hm.store.insertAll (fun c hc => ?_) hs
  rw [Collection.flatten_eq_leaves hflat] at hc
  exact (ht c hc).scoped hm.store.spanned

theorem Valid.setObjective (hm : m.Valid) {m' : LinearModel α} {e : Objective α} {goal : Goal}
    (he : e.Built m.store.blocks) (h : m.setObjective e goal = (.ok (), m')) :
    m'.store.Valid handles := by
  obtain ⟨s, hs, rfl⟩ := attempt_eq_ok_iff.mp h
  exact hm.store.setObjective (he.scoped hm.store.spanned) hs

/-- A call whose arguments are built from the blocks of a valid model keeps its store valid. -/
theorem Valid.store_after (hm : m.Valid) {c : Call α} (hc : c.Built m.store.blocks) :
    (m.after c).store.Valid handles := by
  cases c with
  | declare shape type name => exact hm.store.declare shape type name
  | declareDefault shape => exact hm.store.declare shape _ none
  | subjectTo t =>
    refine snd_attempt_of_ok (P := fun k : LinearModel α => k.store.Valid handles) hm.store
      fun _ h => ?_
    exact hm.subjectTo hc h
  | setObjective e goal =>
    refine snd_attempt_of_ok (P := fun k : LinearModel α => k.store.Valid handles) hm.store
      fun _ h => ?_
    exact hm.setObjective hc h
  | reset => exact hm.store.clear
  | primal => exact hm.primal_spec.2.1 ▸ hm.store
  | linearDual => exact hm.dual_spec.2.1 ▸ hm.store
  | dual => exact hm.dual_spec.2.1 ▸ hm.store

theorem Valid.after (hm : m.Valid) {c : Call α} (hc : c.Built m.store.blocks) :
    (m.after c).Valid :=
  ⟨hm.toCurrent.after c, hm.store_after hc⟩

/-- **Every reachable model is valid.** -/
theorem Reachable.valid (hm : m.Reachable) : m.Valid := by
  induction hm with
  | empty id settings name => exact valid_empty id settings name
  | after _ hc ih => exact ih.after hc

end LinearModel

end ConicForm
