import ConicForm.Proofs.Model.Ownership

/-!
# What a model admits

The owner that a constraint or an objective records is all that a model looks at to tell whether it
is its own. What has its owner is never refused for the reason of ownership: of the constraints on
such blocks a model takes those of the sorts that it supports, and it takes an objective that suits
the goal.

## Main definitions

* `AnyModel.setObjective`, `AnyModel.handles`: objectives of a model of either sort
* `Constraint.Composed`: constraints that are composed of blocks
* `AnyModel.Admits`: models to which blocks are as good as their own

## Main results

* `AnyModel.subjectTo_eq_ok_iff`: the collections that a model takes
* `AnyModel.setObjective_eq_ok_iff`: the objectives that a model takes
* `AnyModel.admits_of_owner`: a model admits all blocks that have its owner
-/

namespace ConicForm

variable {α : Type} [Scalar α]

/-! ## Refusals for the reason of ownership -/

theorem Store.owner_ne_of_classify {s : Store α} {c : Constraint α}
    (h : s.classify c = .error .ownership) : c.owner ≠ some s.id := by
  cases c with
  | linear r =>
    simp only [classify] at h
    split at h
    · cases h
    · assumption
  | bounds b =>
    simp only [classify] at h
    split at h
    · cases h
    · next hb => exact fun ho => hb (Option.some.inj ho)
  | convex v =>
    simp only [classify] at h
    split at h
    · split at h <;> cases h
    · assumption
  | cone k => cases h
  | expCone k => cases h

theorem ConeStore.owner_ne_of_classify {s : ConeStore α} {c : Constraint α}
    (h : s.classify c = .error .ownership) : c.owner ≠ some s.linear.id := by
  have hstore : (do return ConeItem.store (← s.linear.classify c)) = .error .ownership →
      c.owner ≠ some s.linear.id := by
    intro h
    cases hc : s.linear.classify c with
    | error e =>
      rw [hc] at h
      cases h
      exact Store.owner_ne_of_classify hc
    | ok i =>
      rw [hc] at h
      cases h
  cases c with
  | convex v =>
    simp only [classify] at h
    split at h
    · split at h <;> cases h
    · assumption
  | cone k =>
    simp only [classify] at h
    split at h
    · cases h
    · next hk => exact fun ho => hk (Option.some.inj ho)
  | linear r => exact hstore h
  | bounds b => exact hstore h
  | expCone k => exact hstore h

/-- A collection is refused because it is nested too deep, or for the reason for which one of its
members is not taken. -/
theorem Intake.nestedTooDeep_or_of_take_eq_error {μ σ γ ι : Type} (I : Intake μ σ γ ι) {m : μ}
    {t : Collection γ} {e : Error} (h : (I.take m t).1 = .error e) :
    e = .nestedTooDeep (I.limit (I.store m)) ∨
      ∃ c ∈ t.leaves, I.classify (I.store m) c = .error e := by
  rcases Nat.lt_or_ge (I.limit (I.store m)) t.depth with hdeep | hfits
  · rw [take_of_lt_depth hdeep] at h
    exact .inl (Except.error.inj h).symm
  · obtain ⟨pre, c, post, hleaves, -, hc⟩ := ((I.allOrNothing m t).refused hfits e).mp h
    exact .inr ⟨c, hleaves ▸ List.mem_append_cons_self, (take_leaf_eq_error_iff c e).mp hc⟩

/-- The sorts of constraints that a linear model supports are those of its store. -/
theorem Store.supports_of_classify {m : LinearModel α} {c : Constraint α} {i : StoreItem α}
    (h : m.store.classify c = .ok i) : (AnyModel.linear m).Supports c := by
  cases c with
  | linear r => exact trivial
  | bounds b => exact trivial
  | convex v =>
    simp only [classify] at h
    split at h
    · split at h
      · next k hk =>
        show LinearModel.handles v.kind = true
        rw [hk]
        rfl
      · cases h
    · cases h
  | cone k => cases h
  | expCone k => cases h

theorem ConeStore.supports_of_classify {m : ConeModel α} {c : Constraint α} {i : ConeItem α}
    (h : m.store.classify c = .ok i) : (AnyModel.cone m).Supports c := by
  cases c with
  | linear r => exact trivial
  | bounds b => exact trivial
  | cone k => exact trivial
  | convex v =>
    simp only [classify] at h
    show ConeModel.handles v.kind = true
    split at h
    · split at h
      · next k hk => rw [hk]; rfl
      · next k hk => rw [hk]; rfl
      · cases h
    · cases h
  | expCone k => cases h

namespace AnyModel

variable {m : AnyModel α} {c : Constraint α} {t : Collection (Constraint α)}

theorem owner_ne_of_subjectTo (h : (m.subjectTo t).1 = .error .ownership) :
    ∃ c ∈ t.leaves, c.owner ≠ some m.store.id := by
  cases m with
  | linear m =>
    rcases LinearModel.intake.nestedTooDeep_or_of_take_eq_error h with hdeep | ⟨c, hc, hrefused⟩
    · cases hdeep
    · exact ⟨c, hc, Store.owner_ne_of_classify hrefused⟩
  | cone m =>
    rcases ConeModel.intake.nestedTooDeep_or_of_take_eq_error h with hdeep | ⟨c, hc, hrefused⟩
    · cases hdeep
    · exact ⟨c, hc, ConeStore.owner_ne_of_classify hrefused⟩

/-- What a model takes is of a sort that it supports, and has its owner. -/
theorem supports_of_subjectTo (h : (m.subjectTo (.leaf c)).1 = .ok ()) :
    m.Supports c ∧ c.owner = some m.store.id := by
  have hleaf : c ∈ (Collection.leaf c).leaves := by
    rw [Collection.leaves_leaf]
    exact List.mem_singleton_self c
  cases m with
  | linear m =>
    obtain ⟨i, hi⟩ := LinearModel.intake.accepts_of_take h c hleaf
    exact ⟨Store.supports_of_classify hi, Store.owner_of_classify hi⟩
  | cone m =>
    obtain ⟨i, hi⟩ := ConeModel.intake.accepts_of_take h c hleaf
    exact ⟨ConeStore.supports_of_classify hi, ConeStore.owner_of_classify hi⟩

/-- **The collections that a model takes** are not nested too deep, and have only constraints of
sorts that it supports, with its owner. -/
theorem subjectTo_eq_ok_iff : (m.subjectTo t).1 = .ok () ↔
    t.depth ≤ m.store.settings.maxNesting ∧
      ∀ c ∈ t.leaves, m.Supports c ∧ c.owner = some m.store.id := by
  have hmembers : (m.subjectTo t).1 = .ok () ↔ t.depth ≤ m.store.settings.maxNesting ∧
      ∀ c ∈ t.leaves, Accepts (fun c => (m.subjectTo (.leaf c)).1) c := by
    cases m with
    | linear m => exact (LinearModel.intake.allOrNothing m t).accepted
    | cone m => exact (ConeModel.intake.allOrNothing m t).accepted
  rw [hmembers]
  refine and_congr_right fun _ => forall₂_congr fun c _ => ?_
  constructor
  · rintro ⟨_, h⟩
    exact supports_of_subjectTo h
  · rintro ⟨hc, ho⟩
    exact ⟨(), hc.subjectTo_eq_ok_iff.mpr ho⟩

end AnyModel

/-! ## Objectives -/

theorem Owned.not_any {id : ModelId} {owner : Option ModelId} (h : Owned id owner) :
    ¬owner.any (· ≠ id) := by
  rw [Option.any_eq_true]
  rintro ⟨o, ho, hne⟩
  exact of_decide_eq_true hne (h o ho)

namespace Store

variable {s : Store α} {handles : ConvexKind → Bool} {e : Objective α} {goal : Goal}

theorem not_owned_of_setObjective (h : s.setObjective handles e goal = .error .ownership) :
    ¬Owned s.id e.owner := by
  intro ho
  rw [setObjective, if_neg ho.not_any] at h
  split at h
  · cases h
  · dsimp only at h
    split at h
    · cases h
    · split at h
      · cases h
      · split at h <;> cases h

/-- **The objectives that a store takes** have no columns of others and suit the goal. -/
theorem exists_setObjective_iff :
    (∃ s', s.setObjective handles e goal = .ok s') ↔ Owned s.id e.owner ∧ e.Suits handles goal := by
  constructor
  · rintro ⟨s', h⟩
    exact ⟨owned_of_setObjective h, (eq_of_setObjective_eq_ok h).1⟩
  · rintro ⟨ho, hsuits⟩
    cases e with
    | affine a =>
      have hsize : (Objective.affine a).shape.size = 1 := hsuits
      rw [setObjective, if_neg ho.not_any, if_neg (not_not.mpr hsize)]
      exact ⟨_, rfl⟩
    | convex c =>
      obtain ⟨hsize, hhandles, hcurv⟩ := hsuits
      have hsize : (Objective.convex c).shape.size = 1 := hsize
      rw [setObjective, if_neg ho.not_any, if_neg (not_not.mpr hsize)]
      simp [hhandles, hcurv]

end Store

namespace AnyModel

/-- The functions that a model brings into conic form. -/
def handles : AnyModel α → ConvexKind → Bool
  | linear _ => LinearModel.handles
  | cone _ => ConeModel.handles

/-- Sets the objective. -/
def setObjective (e : Objective α) (goal : Goal) : AnyModel α → Except Error Unit × AnyModel α
  | linear m => (m.setObjective e goal).map id linear
  | cone m => (m.setObjective e goal).map id cone

/-- The model after a change of its linear store. -/
def update : AnyModel α → Store α → AnyModel α
  | linear m, s => linear (m.update s)
  | cone m, s => cone (m.update { m.store with linear := s })

variable {m : AnyModel α} {e : Objective α} {goal : Goal}

/-- An objective is set in the linear store. -/
theorem setObjective_eq :
    m.setObjective e goal = attempt m (m.store.setObjective m.handles e goal) m.update := by
  cases m with
  | linear m =>
    show (attempt m (m.store.setObjective LinearModel.handles e goal) _).map id linear =
      attempt _ (m.store.setObjective LinearModel.handles e goal) _
    cases m.store.setObjective LinearModel.handles e goal <;> rfl
  | cone m =>
    show (attempt m (m.store.linear.setObjective ConeModel.handles e goal) _).map id cone =
      attempt _ (m.store.linear.setObjective ConeModel.handles e goal) _
    cases m.store.linear.setObjective ConeModel.handles e goal <;> rfl

/-- **The objectives that a model takes** have no columns of others and suit the goal. -/
theorem setObjective_eq_ok_iff : (m.setObjective e goal).1 = .ok () ↔
    Owned m.store.id e.owner ∧ e.Suits m.handles goal := by
  rw [setObjective_eq, fst_attempt_eq_ok_iff, Store.exists_setObjective_iff]

theorem after_setObjective_eq (e : Objective α) (goal : Goal) :
    m.after (.setObjective e goal) = (m.setObjective e goal).2 := by
  cases m <;> rfl

theorem not_owned_of_setObjective (h : (m.setObjective e goal).1 = .error .ownership) :
    ¬Owned m.store.id e.owner := by
  rw [setObjective_eq, fst_attempt_eq_error_iff] at h
  exact Store.not_owned_of_setObjective h

end AnyModel

/-! ## Blocks that have the owner of a model -/

variable {bs blocks : List Block} {id : ModelId}

theorem commonOwner_eq_some (hne : bs ≠ []) (h : ∀ b ∈ bs, b.owner = id) :
    commonOwner bs = .ok (some id) := by
  obtain ⟨o, ho⟩ := exists_commonOwner fun b hb c hc => (h b hb).trans (h c hc).symm
  obtain ⟨b, hb⟩ := List.exists_mem_of_ne_nil _ hne
  rw [ho, (of_commonOwner_eq_ok ho).1 b hb, h b hb]

theorem Tracks.exists_ok {τ : Type} {owner : τ → Option ModelId} {P : τ → Prop}
    {o : Option ModelId} {r : Except Error τ} (h : Tracks owner P (.ok o) r) :
    ∃ a, r = .ok a ∧ owner a = o := by
  cases h with
  | ok ha => exact ⟨_, rfl, rfl⟩

namespace Constraint

/-- Constraints that are composed of blocks, at least one. -/
def Composed (blocks : List Block) (c : Constraint α) : Prop :=
  ∃ t : ConstraintTerm α, t.Fits ∧ t.blocks ≠ [] ∧ (∀ b ∈ t.blocks, b ∈ blocks) ∧ t.build = .ok c

/-- What is composed of blocks of one owner records this owner. -/
theorem Composed.owner {c : Constraint α} (hc : c.Composed blocks)
    (h : ∀ b ∈ blocks, b.owner = id) : c.owner = some id := by
  obtain ⟨t, hfits, hne, hblocks, hbuild⟩ := hc
  have htracks := t.tracks hfits
  rw [commonOwner_eq_some hne fun b hb => h b (hblocks b hb)] at htracks
  obtain ⟨d, hd, howner⟩ := htracks.exists_ok
  obtain rfl := Except.ok.inj (hbuild.symm.trans hd)
  exact howner

end Constraint

/-- Compositions of blocks of one owner do not fail. -/
theorem ConstraintTerm.exists_build {t : ConstraintTerm α} (ht : t.Fits)
    (h : ∀ b ∈ t.blocks, b.owner = id) : ∃ c, t.build = .ok c := by
  have htracks := t.tracks ht
  obtain ⟨o, ho⟩ := exists_commonOwner fun b hb c hc => (h b hb).trans (h c hc).symm
  rw [ho] at htracks
  obtain ⟨c, hc, -⟩ := htracks.exists_ok
  exact ⟨c, hc⟩

theorem Objective.Built.owned {e : Objective α} {n : Nat} (h : Block.Spanned id n blocks)
    (he : e.Built blocks) : Owned id e.owner := by
  cases he with
  | affine ha => exact (ha.within h).owner
  | convex hc =>
    have hscoped := hc.scoped h
    exact Owned.or hscoped.input.owner hscoped.offset.owner

/-- A model to which blocks are as good as its own, whichever model has declared them. -/
structure AnyModel.Admits (m : AnyModel α) (blocks : List Block) : Prop where
  /-- Constraints on the blocks are composed without fail. -/
  composes : ∀ t : ConstraintTerm α, t.Fits → (∀ b ∈ t.blocks, b ∈ blocks) → ∃ c, t.build = .ok c
  /-- None is refused for the reason of ownership, and those are taken that the model supports. -/
  constraints : ∀ t : Collection (Constraint α), (∀ c ∈ t.leaves, c.Composed blocks) →
    (m.subjectTo t).1 ≠ .error .ownership ∧
      ((m.subjectTo t).1 = .ok () ↔
        t.depth ≤ m.store.settings.maxNesting ∧ ∀ c ∈ t.leaves, m.Supports c)
  /-- The same for objectives, which are taken if they suit the goal. -/
  objectives : ∀ (e : Objective α) (goal : Goal), e.Built blocks →
    (m.setObjective e goal).1 ≠ .error .ownership ∧
      ((m.setObjective e goal).1 = .ok () ↔ e.Suits m.handles goal)

/-- **A model admits all blocks that have its owner**, also those that it has not declared. -/
theorem AnyModel.admits_of_owner {m : AnyModel α} {n : Nat}
    (h : Block.Spanned m.store.id n blocks) : m.Admits blocks where
  composes := fun _ ht hblocks => ConstraintTerm.exists_build ht fun b hb => (h b (hblocks b hb)).1
  constraints := by
    intro t ht
    have howner : ∀ c ∈ t.leaves, c.owner = some m.store.id := fun c hc =>
      (ht c hc).owner fun b hb => (h b hb).1
    refine ⟨fun hrefused => ?_, ?_⟩
    · obtain ⟨c, hc, hne⟩ := owner_ne_of_subjectTo hrefused
      exact hne (howner c hc)
    · rw [subjectTo_eq_ok_iff]
      refine and_congr_right fun _ => forall₂_congr fun c hc => ?_
      exact and_iff_left (howner c hc)
  objectives := by
    intro e goal he
    have howned : Owned m.store.id e.owner := he.owned h
    refine ⟨fun hrefused => not_owned_of_setObjective hrefused howned, ?_⟩
    rw [setObjective_eq_ok_iff]
    exact and_iff_right howned

end ConicForm
