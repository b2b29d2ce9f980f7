import ConicForm.Proofs.Constraint.Ownership
import ConicForm.Proofs.Model.WellFormed

/-!
# Owners in a session

Expressions and constraints may be composed from the blocks of all models of a session. The owner
that they record is how a model tells whether their columns are its own: an expression over the
columns of two models is never built, and what is built has the owner of the one model whose blocks
occur, if any do. A model therefore takes the constraints on its own blocks, of the sorts that it
supports, and no others; a constraint without any blocks is taken by no model.

## Main definitions

* `Declared`, `Mixed`: blocks that models have declared, and blocks of two different models
* `ExactlyOwned`: results that have the owner of the blocks from which they are composed
* `AnyModel.Supports`: the sorts of constraints that a model takes

## Main results

* `Session.exactlyOwned`: what tracks the common owner of its blocks is exactly owned
* `AnyModel.Supports.subjectTo_eq_ok_iff`: a model takes the constraints that have its owner
* `Session.owners_exact`: all that is composed in a session is exactly owned, and models take the
  constraints on their own blocks
-/

namespace ConicForm

variable {α : Type} [Scalar α] {ms : List (AnyModel α)} {m : AnyModel α} {blocks : List Block}

/-! ## Blocks of models -/

/-- Blocks that models have declared. -/
def Declared (ms : List (AnyModel α)) (blocks : List Block) : Prop :=
  ∀ b ∈ blocks, b ∈ ms.flatMap fun m => m.store.blocks

/-- Blocks of two different models. -/
def Mixed (ms : List (AnyModel α)) (blocks : List Block) : Prop :=
  ∃ m ∈ ms, ∃ n ∈ ms, m.store.id ≠ n.store.id ∧
    (∃ b ∈ blocks, b ∈ m.store.blocks) ∧ ∃ b ∈ blocks, b ∈ n.store.blocks

/-- Blocks are of two models exactly if two of them have different owners. -/
theorem Session.mixed_iff (h : Session ms) (hblocks : Declared ms blocks) :
    Mixed ms blocks ↔ ∃ b ∈ blocks, ∃ c ∈ blocks, b.owner ≠ c.owner := by
  constructor
  · rintro ⟨m, hm, n, hn, hne, ⟨b, hb, hbm⟩, c, hc, hcn⟩
    refine ⟨b, hb, c, hc, fun heq => hne ?_⟩
    rw [← (h.reachable m hm).owner b hbm, heq, (h.reachable n hn).owner c hcn]
  · rintro ⟨b, hb, c, hc, hne⟩
    obtain ⟨m, hm, hbm⟩ := List.mem_flatMap.mp (hblocks b hb)
    obtain ⟨n, hn, hcn⟩ := List.mem_flatMap.mp (hblocks c hc)
    refine ⟨m, hm, n, hn, fun hid => hne ?_, ⟨b, hb, hbm⟩, c, hc, hcn⟩
    rw [(h.reachable m hm).owner b hbm, hid, (h.reachable n hn).owner c hcn]

/-! ## Exact owners -/

/-- Results that have the owner of the blocks from which they are composed. -/
structure ExactlyOwned {τ : Type} (ms : List (AnyModel α)) (blocks : List Block)
    (owner : τ → Option ModelId) (r : Except Error τ) : Prop where
  /-- Ownership is what fails exactly if blocks of two models occur. -/
  refused_iff : r = .error .ownership ↔ Mixed ms blocks
  /-- Nothing fails otherwise. -/
  built : ¬Mixed ms blocks → ∃ a, r = .ok a
  /-- There is no owner exactly if no block occurs. -/
  none_iff : ∀ a, r = .ok a → (owner a = none ↔ blocks = [])
  /-- The owner is that of one model, of which all blocks are. -/
  common : ∀ a, r = .ok a → blocks ≠ [] →
    ∃ m ∈ ms, owner a = some m.store.id ∧ ∀ b ∈ blocks, b ∈ m.store.blocks

variable {τ : Type} {owner : τ → Option ModelId} {P : τ → Prop} {r : Except Error τ}

/-- **What tracks the common owner of its blocks is exactly owned.** -/
theorem Session.exactlyOwned (h : Session ms) (hblocks : Declared ms blocks)
    (hr : Tracks owner P (commonOwner blocks) r) : ExactlyOwned ms blocks owner r := by
  generalize ho : commonOwner blocks = o? at hr
  cases hr with
  | error =>
    have hmixed : Mixed ms blocks := (h.mixed_iff hblocks).mpr (commonOwner_eq_error_iff.mp ho)
    exact {
      refused_iff := iff_of_true rfl hmixed
      built := fun hnot => absurd hmixed hnot
      none_iff := by rintro a ⟨⟩
      common := by rintro a ⟨⟩ }
  | @ok a ha =>
    obtain ⟨hall, -⟩ := of_commonOwner_eq_ok ho
    have hnot : ¬Mixed ms blocks := by
      intro hmixed
      cases ho.symm.trans (commonOwner_eq_error_iff.mpr ((h.mixed_iff hblocks).mp hmixed))
    refine ⟨iff_of_false (by rintro ⟨⟩) hnot, fun _ => ⟨a, rfl⟩, ?_, ?_⟩
    · rintro _ ⟨⟩
      rw [← commonOwner_eq_ok_none_iff, ho, Except.ok.injEq]
    · rintro _ ⟨⟩ hne
      obtain ⟨b, hb⟩ := List.exists_mem_of_ne_nil _ hne
      obtain ⟨m, hm, hbm⟩ := List.mem_flatMap.mp (hblocks b hb)
      have hid : b.owner = m.store.id := (h.reachable m hm).owner b hbm
      refine ⟨m, hm, (hall b hb).trans (congrArg some hid), fun c hc => ?_⟩
      apply h.mem_blocks_of_owner hm c (hblocks c hc)
      rw [← hid]
      exact Option.some.inj ((hall c hc).symm.trans (hall b hb))

/-- The owner is that of a given model exactly if there are blocks, and all of them are its own. -/
theorem Session.owner_eq_iff (h : Session ms) (hr : ExactlyOwned ms blocks owner r) {a : τ}
    (ha : r = .ok a) (hm : m ∈ ms) :
    owner a = some m.store.id ↔ blocks ≠ [] ∧ ∀ b ∈ blocks, b ∈ m.store.blocks := by
  constructor
  · intro ho
    have hne : blocks ≠ [] := by
      intro hnil
      cases ho.symm.trans ((hr.none_iff a ha).mpr hnil)
    obtain ⟨n, hn, hon, hall⟩ := hr.common a ha hne
    have hid : n.store.id = m.store.id := Option.some.inj (hon.symm.trans ho)
    obtain rfl := List.inj_on_of_nodup_map h.reachable_and_nodup.2 hn hm hid
    exact ⟨hne, hall⟩
  · rintro ⟨hne, hall⟩
    obtain ⟨n, hn, hon, hall'⟩ := hr.common a ha hne
    obtain ⟨b, hb⟩ := List.exists_mem_of_ne_nil _ hne
    rw [hon, ← (h.reachable n hn).owner b (hall' b hb), (h.reachable m hm).owner b (hall b hb)]

/-! ## Constraints that a model takes -/

namespace AnyModel

/-- The sorts of constraints that a model takes: rows and bounds, convex constraints on functions
that it brings into conic form, and in a cone model direct memberships. -/
def Supports : AnyModel α → Constraint α → Prop
  | _, .linear _ | _, .bounds _ => True
  | linear _, .convex v => LinearModel.handles v.kind
  | cone _, .convex v => ConeModel.handles v.kind
  | linear _, .cone _ => False
  | cone _, .cone _ => True
  | _, .expCone _ => False

variable {c : Constraint α}

theorem Supports.exists_store_classify {m : LinearModel α} (hc : (linear m).Supports c)
    (ho : c.owner = some m.store.id) : ∃ i, m.store.classify c = .ok i := by
  cases c with
  | linear r => exact ⟨_, if_pos ho⟩
  | bounds b => exact ⟨_, if_pos (Option.some.inj ho)⟩
  | convex v =>
    have hv : v.owner = some m.store.id := ho
    simp only [Store.classify, if_pos hv]
    have hkind : LinearModel.handles v.kind = true := hc
    split
    · exact ⟨_, rfl⟩
    · next hnot =>
      cases hk : v.kind with
      | piecewise k => exact absurd hk (hnot k)
      | conic k => simp [hk, LinearModel.handles] at hkind
      | exp => simp [hk, LinearModel.handles] at hkind
  | cone k => cases hc
  | expCone k => cases hc

theorem Supports.exists_coneStore_classify {m : ConeModel α} (hc : (cone m).Supports c)
    (ho : c.owner = some m.store.linear.id) : ∃ i, m.store.classify c = .ok i := by
  cases c with
  | linear r =>
    refine ⟨.store (.rows r), ?_⟩
    simp only [ConeStore.classify, Store.classify, if_pos (show r.owner = _ from ho)]
    rfl
  | bounds b =>
    refine ⟨.store (.bounds b), ?_⟩
    simp only [ConeStore.classify, Store.classify, if_pos (Option.some.inj ho)]
    rfl
  | convex v =>
    have hv : v.owner = some m.store.linear.id := ho
    simp only [ConeStore.classify, if_pos hv]
    have hkind : ConeModel.handles v.kind = true := hc
    split
    · exact ⟨_, rfl⟩
    · exact ⟨_, rfl⟩
    · next hk => simp [hk, ConeModel.handles] at hkind
  | cone k => exact ⟨_, if_pos (Option.some.inj ho)⟩
  | expCone k => cases hc

/-- **A model takes the constraints that have its owner**, of those that it supports. -/
theorem Supports.subjectTo_eq_ok_iff (hc : m.Supports c) :
    (m.subjectTo (.leaf c)).1 = .ok () ↔ c.owner = some m.store.id := by
  cases m with
  | linear m =>
    have htake : m.subjectTo (.leaf c) = _ := LinearModel.intake.take_leaf m c
    show (m.subjectTo (.leaf c)).1 = .ok () ↔ _
    rw [htake, fst_attempt_eq_ok_iff]
    constructor
    · rintro ⟨i, hi⟩
      exact Store.owner_of_classify hi
    · exact hc.exists_store_classify
  | cone m =>
    have htake : m.subjectTo (.leaf c) = _ := ConeModel.intake.take_leaf m c
    show (m.subjectTo (.leaf c)).1 = .ok () ↔ _
    rw [htake, fst_attempt_eq_ok_iff]
    constructor
    · rintro ⟨i, hi⟩
      exact ConeStore.owner_of_classify hi
    · exact hc.exists_coneStore_classify

end AnyModel

/-! ## Compositions in a session -/

/-- **Owners are exact.** Whatever is composed from the blocks of a session fails for the reason of
ownership exactly if blocks of two models occur, and otherwise records the model of its blocks, if
there are any. A model takes a constraint that it supports exactly if blocks occur in it, and all
of them are its own. -/
theorem Session.owners_exact (h : Session ms) :
    (∀ t : AffineTerm α, t.shape?.isSome → Declared ms t.blocks →
      ExactlyOwned ms t.blocks Affine.owner t.build) ∧
    (∀ t : ConvexTerm α, t.shape?.isSome → Declared ms t.blocks →
      ExactlyOwned ms t.blocks ConvexExpression.owner t.build) ∧
    ∀ t : ConstraintTerm α, t.Fits → Declared ms t.blocks →
      ExactlyOwned ms t.blocks Constraint.owner t.build ∧
      ∀ c, t.build = .ok c → ∀ m ∈ ms, m.Supports c →
        ((m.subjectTo (.leaf c)).1 = .ok () ↔
          t.blocks ≠ [] ∧ ∀ b ∈ t.blocks, b ∈ m.store.blocks) := by
  refine ⟨?_, ?_, ?_⟩
  · intro t hshape hblocks
    obtain ⟨s, hs⟩ := Option.isSome_iff_exists.mp hshape
    exact h.exactlyOwned hblocks (t.tracks hs)
  · intro t hshape hblocks
    obtain ⟨s, hs⟩ := Option.isSome_iff_exists.mp hshape
    exact h.exactlyOwned hblocks (t.tracks hs)
  · intro t hfits hblocks
    have howned := h.exactlyOwned hblocks (t.tracks hfits)
    refine ⟨howned, fun c hc m hm hsupports => ?_⟩
    rw [hsupports.subjectTo_eq_ok_iff]
    exact h.owner_eq_iff howned hc hm

/-- A comparison of columns of two models. -/
def across : ConstraintTerm ℚ := .le (.block level) (.block switch)

/-- A comparison in which the coefficient of a column has become zero. -/
def vanishing : ConstraintTerm ℚ := .le (.scale 0 (.block level)) (.number 1)

theorem owners_exact_unlevelled : Session [.linear switched, .cone unlevelled] ∧ across.Fits ∧
    across.build = .error .ownership ∧ vanishing.Fits ∧
    ∃ c, vanishing.build = .ok c ∧ ((AnyModel.cone unlevelled).subjectTo (.leaf c)).1 = .ok () ∧
      ((AnyModel.linear switched).subjectTo (.leaf c)).1 ≠ .ok () := by
  have hlinear : AnyModel.linear switched ∈ [AnyModel.linear switched, .cone unlevelled] := by simp
  have hcone : AnyModel.cone unlevelled ∈ [AnyModel.linear switched, .cone unlevelled] := by simp
  have hlevel : level ∈ (AnyModel.cone unlevelled).store.blocks := by decide
  have hswitch : switch ∈ (AnyModel.linear switched).store.blocks := by decide
  have hnot : level ∉ (AnyModel.linear switched).store.blocks := by decide
  obtain ⟨-, -, hexact⟩ := session_unlevelled.owners_exact
  have hacross : across.Fits := ⟨.scalar, rfl, .scalar, rfl, .inl rfl⟩
  have hvanishing : vanishing.Fits := ⟨.scalar, rfl, .scalar, rfl, .inl rfl⟩
  refine ⟨session_unlevelled, hacross, ?_, hvanishing, ?_⟩
  · have hblocks : Declared [.linear switched, .cone unlevelled] across.blocks := by
      refine List.forall_mem_cons.mpr ⟨?_, List.forall_mem_singleton.mpr ?_⟩
      · exact List.mem_flatMap.mpr ⟨_, hcone, hlevel⟩
      · exact List.mem_flatMap.mpr ⟨_, hlinear, hswitch⟩
    refine (hexact _ hacross hblocks).1.refused_iff.mpr ?_
    refine ⟨_, hcone, _, hlinear, by decide, ⟨level, ?_, hlevel⟩, switch, ?_, hswitch⟩
    · exact List.mem_cons_self
    · exact List.mem_cons_of_mem _ List.mem_cons_self
  · have hblocks : Declared [.linear switched, .cone unlevelled] vanishing.blocks :=
      List.forall_mem_singleton.mpr (List.mem_flatMap.mpr ⟨_, hcone, hlevel⟩)
    obtain ⟨-, htaken⟩ := hexact _ hvanishing hblocks
    refine ⟨_, rfl, ?_, ?_⟩
    · refine (htaken _ rfl _ hcone trivial).mpr ⟨?_, List.forall_mem_singleton.mpr hlevel⟩
      exact List.cons_ne_nil level []
    · rw [ne_eq, htaken _ rfl _ hlinear trivial]
      rintro ⟨-, hall⟩
      exact hnot (hall level List.mem_cons_self)

end ConicForm
