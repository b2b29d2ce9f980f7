import ConicForm.Proofs.Model.Intake
import ConicForm.Proofs.Model.Reachable

/-!
# Sessions of several models

A session has any number of models, linear ones and cone models, each with an owner of its own.
What a call is given may be built from the blocks of all of them. A model takes nothing that has
columns of another one, so each model of a session is as it would be on its own.

## Main definitions

* `AnyModel`: a linear model or a cone model
* `Session`: models that calls lead to which are built from the blocks of all of them

## Main results

* `Constraint.Built.own`, `Objective.Built.own`: what has no columns of others is built from the
  blocks of one model
* `Session.reachable`: every model of a session is reachable on its own
-/

namespace ConicForm

variable {α : Type} [Scalar α]

/-! ## What is built from the blocks of one model -/

/-- Columns of no other model. -/
def Owned (id : ModelId) (owner : Option ModelId) : Prop := ∀ o ∈ owner, o = id

theorem Owned.of_mergeOwners {id : ModelId} {a b c : Option ModelId} (hc : Owned id c)
    (h : mergeOwners a b = .ok c) : Owned id a ∧ Owned id b := by
  obtain ⟨hab, rfl⟩ := mergeOwners_eq_ok_iff.mp h
  cases a with
  | none => exact ⟨by rintro o ⟨⟩, hc⟩
  | some o =>
    have ho : o = id := hc o rfl
    refine ⟨hc, fun p hp => ?_⟩
    rw [← hab o rfl p hp, ho]

theorem Owned.or {id : ModelId} {a b : Option ModelId} (ha : Owned id a) (hb : Owned id b) :
    Owned id (a.or b) := by
  intro o ho
  rcases Option.or_eq_some_iff.mp ho with ho | ⟨-, ho⟩
  · exact ha o ho
  · exact hb o ho

section Own

variable {blocks bs : List Block} {id : ModelId}

/-- Expressions without columns of others are built from the blocks of one model. -/
theorem Affine.Built.own (hown : ∀ b ∈ blocks, b.owner = id → b ∈ bs) {a : Affine α}
    (ha : a.Built blocks) (ho : Owned id a.owner) : a.Built bs := by
  induction ha with
  | block hb => exact .block (hown _ hb (ho _ rfl))
  | selection hs => exact .selection (hown _ hs (ho _ rfl))
  | values hv => exact .values hv
  | zeros shape => exact .zeros shape
  | number x => exact .number x
  | numbers xs => exact .numbers xs
  | add _ _ hc iha ihb =>
    obtain ⟨hoa, hob⟩ := ho.of_mergeOwners (of_add_eq_ok hc).1
    exact .add (iha hoa) (ihb hob) hc
  | sub _ _ hc iha ihb =>
    obtain ⟨hoa, hob⟩ := ho.of_mergeOwners (of_add_eq_ok hc).1
    exact .sub (iha hoa) (ihb hob) hc
  | neg _ ih => exact .neg (ih ho)
  | scale x _ ih => exact .scale x (ih ho)
  | offset x _ ih => exact .offset x (ih ho)
  | sum _ ih => exact .sum (ih ho)
  | select _ hc ih =>
    obtain ⟨_, -, h⟩ := exists_of_bind_eq_ok hc
    cases h
    exact .select (ih ho) hc
  | get _ hc ih =>
    obtain ⟨_, -, h⟩ := exists_of_bind_eq_ok hc
    cases h
    exact .get (ih ho) hc
  | leftMul _ hc ih =>
    obtain ⟨-, howner, -⟩ := of_leftMul_eq_ok hc
    exact .leftMul (ih (howner ▸ ho)) hc

theorem ConvexExpression.owned_add {c d : ConvexExpression α} {a : Affine α}
    (h : c.add a = .ok d) (ho : Owned id d.owner) : Owned id c.owner ∧ Owned id a.owner := by
  obtain ⟨offset, hadd, _, ⟨owner, hm⟩, rfl⟩ := of_add_eq_ok h
  obtain ⟨hagree, rfl⟩ := mergeOwners_eq_ok_iff.mp hm
  obtain ⟨hinput, hoffset⟩ := Owned.of_mergeOwners ho hm
  obtain ⟨hold, ha⟩ := Owned.of_mergeOwners hoffset (Affine.of_add_eq_ok hadd).1
  exact ⟨hinput.or hold, ha⟩

theorem ConvexExpression.Built.own (hown : ∀ b ∈ blocks, b.owner = id → b ∈ bs)
    {c : ConvexExpression α} (hc : c.Built blocks) (ho : Owned id c.owner) : c.Built bs := by
  induction hc with
  | apply kind ha =>
    refine .apply kind (ha.own hown ?_)
    intro o hao
    exact ho o (Option.or_eq_some_iff.mpr (.inl hao))
  | neg _ ih => exact .neg (ih ho)
  | add _ ha hd ih =>
    obtain ⟨hoc, hoa⟩ := owned_add hd ho
    exact .add (ih hoc) (ha.own hown hoa) hd
  | sub _ ha hd ih =>
    obtain ⟨hoc, hoa⟩ := owned_add hd ho
    exact .sub (ih hoc) (ha.own hown hoa) hd

/-- A constraint on a convex expression has the owners of both sides. -/
theorem ConvexExpression.owned_le {c : ConvexExpression α} {a : Affine α}
    {v : ConvexConstraint ConvexKind α} (h : c.le a = .ok v) (ho : Owned id v.owner) :
    Owned id c.owner ∧ Owned id a.owner := by
  unfold ConvexExpression.le at h
  split at h
  · obtain ⟨r, hr, h⟩ := exists_of_bind_eq_ok h
    obtain ⟨owner, hm, h⟩ := exists_of_bind_eq_ok h
    obtain ⟨f, -, h⟩ := exists_of_bind_eq_ok h
    cases h
    obtain ⟨hinput, hresidual⟩ := Owned.of_mergeOwners ho hm
    obtain ⟨hoffset, ha⟩ := Owned.of_mergeOwners hresidual (Affine.of_add_eq_ok hr).1
    exact ⟨hinput.or hoffset, ha⟩
  · cases h

theorem ConvexExpression.owned_ge {c : ConvexExpression α} {a : Affine α}
    {v : ConvexConstraint ConvexKind α} (h : c.ge a = .ok v) (ho : Owned id v.owner) :
    Owned id c.owner ∧ Owned id a.owner := by
  unfold ConvexExpression.ge at h
  split at h
  · exact owned_le (c := c.neg) (a := a.neg) h ho
  · cases h

omit [Scalar α] in
theorem Bounds.owner_of_ofValues {b : Block} {side : Side} {values : List (Bound α)}
    {c : Bounds α} (h : Bounds.ofValues b side values = .ok c) : c.owner = b.owner := by
  unfold ofValues at h
  split at h
  · cases h
    rfl
  · split at h
    · cases h
      rfl
    · cases h

theorem ExpConeConstraint.owner_of_coordinate {o : ModelId} {s : Selection} {j : Nat}
    (h : coordinate o s = .ok j) : s.block.owner = o := by
  unfold coordinate at h
  split at h
  · assumption
  · cases h

theorem ExpConeConstraint.owner_of_ofSelections {x y z : Selection} {c : ExpConeConstraint}
    (h : ofSelections x y z = .ok c) :
    x.block.owner = c.owner ∧ y.block.owner = c.owner ∧ z.block.owner = c.owner := by
  obtain ⟨jx, hx, h⟩ := exists_of_bind_eq_ok h
  obtain ⟨jy, hy, h⟩ := exists_of_bind_eq_ok h
  obtain ⟨jz, hz, h⟩ := exists_of_bind_eq_ok h
  cases h
  exact ⟨rfl, owner_of_coordinate hy, owner_of_coordinate hz⟩

theorem Affine.owned_of_ofResidual {a b r : Affine α} {s : Sense} (h : a.sub b = .ok r)
    (ho : Owned id (LinearConstraint.ofResidual r s).owner) :
    Owned id a.owner ∧ Owned id b.owner :=
  Owned.of_mergeOwners ho (of_add_eq_ok h).1

/-- **Constraints without columns of others are built from the blocks of one model.** -/
theorem Constraint.Built.own (hown : ∀ b ∈ blocks, b.owner = id → b ∈ bs) {c : Constraint α}
    (hc : c.Built blocks) (ho : Owned id c.owner) : c.Built bs := by
  cases hc with
  | le ha hb hc =>
    obtain ⟨r, hr, h⟩ := exists_of_bind_eq_ok hc
    cases h
    obtain ⟨hoa, hob⟩ := Affine.owned_of_ofResidual hr ho
    exact .le (ha.own hown hoa) (hb.own hown hob) hc
  | ge ha hb hc =>
    obtain ⟨r, hr, h⟩ := exists_of_bind_eq_ok hc
    cases h
    obtain ⟨hob, hoa⟩ := Affine.owned_of_ofResidual hr ho
    exact .ge (ha.own hown hoa) (hb.own hown hob) hc
  | eq ha hb hc =>
    obtain ⟨r, hr, h⟩ := exists_of_bind_eq_ok hc
    cases h
    obtain ⟨hoa, hob⟩ := Affine.owned_of_ofResidual hr ho
    exact .eq (ha.own hown hoa) (hb.own hown hob) hc
  | upper hb hc => exact .upper (hown _ hb (ho _ (Bounds.owner_of_ofValues hc ▸ rfl))) hc
  | lower hb hc => exact .lower (hown _ hb (ho _ (Bounds.owner_of_ofValues hc ▸ rfl))) hc
  | nonneg hb => exact .nonneg (hown _ hb (ho _ rfl))
  | nonpos hb => exact .nonpos (hown _ hb (ho _ rfl))
  | convexLe hc ha hv =>
    obtain ⟨hoc, hoa⟩ := ConvexExpression.owned_le hv ho
    exact .convexLe (hc.own hown hoc) (ha.own hown hoa) hv
  | convexGe hc ha hv =>
    obtain ⟨hoc, hoa⟩ := ConvexExpression.owned_ge hv ho
    exact .convexGe (hc.own hown hoc) (ha.own hown hoa) hv
  | @cone _ _ k hvector hapex hc =>
    obtain ⟨rfl, rfl⟩ := ConeConstraint.of_ofSelections_eq_ok hc
    have hid : k.apex.block.owner = id := ho _ rfl
    exact .cone (hown _ hvector (k.owner_eq.trans hid)) (hown _ hapex hid) hc
  | expCone hx hy hz hc =>
    obtain ⟨hxo, hyo, hzo⟩ := ExpConeConstraint.owner_of_ofSelections hc
    exact .expCone (hown _ hx (hxo.trans (ho _ rfl))) (hown _ hy (hyo.trans (ho _ rfl)))
      (hown _ hz (hzo.trans (ho _ rfl))) hc

theorem Objective.Built.own (hown : ∀ b ∈ blocks, b.owner = id → b ∈ bs) {e : Objective α}
    (he : e.Built blocks) (ho : Owned id e.owner) : e.Built bs := by
  cases he with
  | affine ha => exact .affine (ha.own hown ho)
  | convex hc => exact .convex (hc.own hown ho)

end Own

/-! ## What a model takes -/

theorem Store.owner_of_classify {s : Store α} {c : Constraint α} {i : StoreItem α}
    (h : s.classify c = .ok i) : c.owner = some s.id := by
  cases c with
  | linear r =>
    simp only [classify] at h
    split at h
    · assumption
    · cases h
  | bounds b =>
    simp only [classify] at h
    split at h
    · next hb => exact congrArg some hb
    · cases h
  | convex v =>
    simp only [classify] at h
    split at h
    · assumption
    · cases h
  | cone k => cases h
  | expCone k => cases h

theorem ConeStore.owner_of_classify {s : ConeStore α} {c : Constraint α} {i : ConeItem α}
    (h : s.classify c = .ok i) : c.owner = some s.linear.id := by
  have hstore : (do return ConeItem.store (← s.linear.classify c)) = .ok i →
      c.owner = some s.linear.id := by
    intro h
    obtain ⟨j, hj, -⟩ := exists_of_bind_eq_ok h
    exact Store.owner_of_classify hj
  cases c with
  | convex v =>
    simp only [classify] at h
    split at h
    · assumption
    · cases h
  | cone k =>
    simp only [classify] at h
    split at h
    · next hk => exact congrArg some hk
    · cases h
  | linear r => exact hstore h
  | bounds b => exact hstore h
  | expCone k => exact hstore h

theorem Store.owned_of_setObjective {s s' : Store α} {handles : ConvexKind → Bool}
    {e : Objective α} {goal : Goal} (h : s.setObjective handles e goal = .ok s') :
    Owned s.id e.owner := by
  unfold setObjective at h
  split at h
  · cases h
  · next hany =>
    intro o ho
    rw [Option.mem_def.mp ho] at hany
    simpa using hany

/-- Members of a collection that a model takes have its owner. -/
theorem Intake.accepts_of_take {μ σ γ ι : Type} (I : Intake μ σ γ ι) {m : μ}
    {t : Collection γ} (h : (I.take m t).1 = .ok ()) :
    ∀ c ∈ t.leaves, Accepts (I.classify (I.store m)) c := by
  intro c hc
  exact accepts_take_leaf_iff c |>.mp (((I.allOrNothing m t).accepted.mp h).2 c hc)

namespace ConeModel

variable {m : ConeModel α} {blocks bs : List Block}

/-- A call either changes nothing or is built from the blocks of the owner of the model. -/
theorem after_eq_or_built (hown : ∀ b ∈ blocks, b.owner = m.store.linear.id → b ∈ bs) {c : Call α}
    (hc : c.Built blocks) : m.after c = m ∨ c.Built bs := by
  cases c with
  | subjectTo t =>
    cases h : (m.subjectTo t).1 with
    | error e => exact .inl (snd_attempt_of_error h)
    | ok =>
      refine .inr fun c hmem => (hc c hmem).own hown ?_
      obtain ⟨i, hi⟩ := ConeModel.intake.accepts_of_take h c hmem
      rw [ConeStore.owner_of_classify hi]
      rintro o ⟨⟩
      rfl
  | setObjective e goal =>
    cases h : (m.setObjective e goal).1 with
    | error e => exact .inl (snd_attempt_of_error h)
    | ok =>
      obtain ⟨s, hs⟩ := fst_attempt_eq_ok_iff.mp h
      exact .inr (Objective.Built.own hown hc (Store.owned_of_setObjective hs))
  | declare shape type name => exact .inr trivial
  | declareDefault shape => exact .inr trivial
  | reset => exact .inr trivial
  | primal => exact .inr trivial
  | linearDual => exact .inr trivial
  | dual => exact .inr trivial

theorem id_after (hm : m.Current) (c : Call α) :
    (m.after c).store.linear.id = m.store.linear.id := by
  cases c with
  | subjectTo t =>
    refine snd_attempt_of_ok (P := fun k : ConeModel α => k.store.linear.id = _) rfl fun m' h => ?_
    have hstore : m'.store = m.store.appended t.leaves :=
      (ConeModel.intake.allOrNothing m t).contents m' h
    rw [hstore]
    rfl
  | setObjective e goal =>
    refine snd_attempt_of_ok (P := fun k : ConeModel α => k.store.linear.id = _) rfl fun m' h => ?_
    obtain ⟨s, hs, rfl⟩ := attempt_eq_ok_iff.mp h
    obtain ⟨-, rfl⟩ := Store.eq_of_setObjective_eq_ok hs
    rfl
  | declare shape type name => rfl
  | declareDefault shape => rfl
  | reset => rfl
  | primal => rfl
  | linearDual => exact congrArg (fun s => s.linear.id) hm.linearDual_spec.2.1
  | dual => exact congrArg (fun s => s.linear.id) hm.dual_spec.2.1

end ConeModel

namespace LinearModel

variable {m : LinearModel α} {blocks bs : List Block}

/-- A call either changes nothing or is built from the blocks of the owner of the model. -/
theorem after_eq_or_built (hown : ∀ b ∈ blocks, b.owner = m.store.id → b ∈ bs) {c : Call α}
    (hc : c.Built blocks) : m.after c = m ∨ c.Built bs := by
  cases c with
  | subjectTo t =>
    cases h : (m.subjectTo t).1 with
    | error e => exact .inl (snd_attempt_of_error h)
    | ok =>
      refine .inr fun c hmem => (hc c hmem).own hown ?_
      obtain ⟨i, hi⟩ := LinearModel.intake.accepts_of_take h c hmem
      rw [Store.owner_of_classify hi]
      rintro o ⟨⟩
      rfl
  | setObjective e goal =>
    cases h : (m.setObjective e goal).1 with
    | error e => exact .inl (snd_attempt_of_error h)
    | ok =>
      obtain ⟨s, hs⟩ := fst_attempt_eq_ok_iff.mp h
      exact .inr (Objective.Built.own hown hc (Store.owned_of_setObjective hs))
  | declare shape type name => exact .inr trivial
  | declareDefault shape => exact .inr trivial
  | reset => exact .inr trivial
  | primal => exact .inr trivial
  | linearDual => exact .inr trivial
  | dual => exact .inr trivial

theorem id_after (hm : m.Current) (c : Call α) : (m.after c).store.id = m.store.id := by
  cases c with
  | subjectTo t =>
    refine snd_attempt_of_ok (P := fun k : LinearModel α => k.store.id = _) rfl fun m' h => ?_
    have hstore : m'.store = m.store.appended t.leaves :=
      (LinearModel.intake.allOrNothing m t).contents m' h
    rw [hstore]
    rfl
  | setObjective e goal =>
    refine snd_attempt_of_ok (P := fun k : LinearModel α => k.store.id = _) rfl fun m' h => ?_
    obtain ⟨s, hs, rfl⟩ := attempt_eq_ok_iff.mp h
    obtain ⟨-, rfl⟩ := Store.eq_of_setObjective_eq_ok hs
    rfl
  | declare shape type name => rfl
  | declareDefault shape => rfl
  | reset => rfl
  | primal => rfl
  | linearDual => exact congrArg Store.id hm.dual_spec.2.1
  | dual => exact congrArg Store.id hm.dual_spec.2.1

end LinearModel

/-! ## Sessions -/

/-- A linear model or a cone model. -/
inductive AnyModel (α : Type) [Scalar α] where
  | linear (m : LinearModel α)
  | cone (m : ConeModel α)

namespace AnyModel

/-- The columns, linear and piecewise-linear constraints, bounds and objective of a model. -/
def store : AnyModel α → Store α
  | linear m => m.store
  | cone m => m.store.linear

/-- Adds the constraints of a collection, all or none. -/
def subjectTo (t : Collection (Constraint α)) : AnyModel α → Except Error Unit × AnyModel α
  | linear m => (m.subjectTo t).map id linear
  | cone m => (m.subjectTo t).map id cone

/-- The model after a call. -/
def after : AnyModel α → Call α → AnyModel α
  | linear m, c => linear (m.after c)
  | cone m, c => cone (m.after c)

/-- A model without columns, constraints and objective. -/
inductive New : AnyModel α → Prop
  | linear (id settings name) : New (linear (.empty id settings name))
  | cone (id settings name) : New (cone (.empty id settings name))

/-- Models whose caches hold what their store gives. -/
def Current : AnyModel α → Prop
  | linear m => m.Current
  | cone m => m.Current

/-- Models that runs of calls lead to, on their own. -/
def Reachable : AnyModel α → Prop
  | linear m => m.Reachable
  | cone m => m.Reachable

variable {m : AnyModel α}

theorem New.reachable (h : m.New) : m.Reachable := by
  cases h with
  | linear id settings name => exact .empty id settings name
  | cone id settings name => exact .empty id settings name

/-- The blocks of a model have its owner. -/
theorem Reachable.owner (hm : m.Reachable) : ∀ b ∈ m.store.blocks, b.owner = m.store.id := by
  intro b hb
  cases m with
  | linear m => exact ((LinearModel.Reachable.valid hm).store.spanned b hb).1
  | cone m => exact ((ConeModel.Reachable.valid hm).store.linear.spanned b hb).1

theorem Reachable.current (hm : m.Reachable) : m.Current := by
  cases m with
  | linear m => exact (LinearModel.Reachable.valid hm).toCurrent
  | cone m => exact (ConeModel.Reachable.valid hm).toCurrent

theorem Current.after (hm : m.Current) (c : Call α) : (m.after c).Current := by
  cases m with
  | linear m => exact LinearModel.Current.after hm c
  | cone m => exact ConeModel.Current.after hm c

theorem Current.id_after (hm : m.Current) (c : Call α) : (m.after c).store.id = m.store.id := by
  cases m with
  | linear m => exact LinearModel.id_after hm c
  | cone m => exact ConeModel.id_after hm c

/-- A call either changes nothing or is built from the blocks of the owner of the model. -/
theorem after_eq_or_built {blocks bs : List Block}
    (hown : ∀ b ∈ blocks, b.owner = m.store.id → b ∈ bs) {c : Call α} (hc : c.Built blocks) :
    m.after c = m ∨ c.Built bs := by
  cases m with
  | linear m => exact (m.after_eq_or_built hown hc).imp_left (congrArg linear)
  | cone m => exact (m.after_eq_or_built hown hc).imp_left (congrArg cone)

/-- A call that is built from any blocks, among which those of the model are its own, leads to a
model that is reachable on its own. -/
theorem Reachable.after (hm : m.Reachable) {blocks : List Block}
    (hown : ∀ b ∈ blocks, b.owner = m.store.id → b ∈ m.store.blocks) {c : Call α}
    (hc : c.Built blocks) : (m.after c).Reachable := by
  rcases after_eq_or_built hown hc with h | h
  · rw [h]
    exact hm
  · cases m with
    | linear m => exact .after hm h
    | cone m => exact .after hm h

theorem after_subjectTo_eq (t : Collection (Constraint α)) :
    m.after (.subjectTo t) = (m.subjectTo t).2 := by
  cases m <;> rfl

theorem snd_subjectTo_of_error {t : Collection (Constraint α)} {e : Error}
    (h : (m.subjectTo t).1 = .error e) : (m.subjectTo t).2 = m := by
  cases m with
  | linear m => exact congrArg linear (snd_attempt_of_error h)
  | cone m => exact congrArg cone (snd_attempt_of_error h)

/-- Constraints that are taken are those of the call. -/
theorem after_subjectTo {t : Collection (Constraint α)} {m' : AnyModel α}
    (h : m.subjectTo t = (.ok (), m')) : m.after (.subjectTo t) = m' := by
  rw [after_subjectTo_eq, h]

/-- Among models with different owners, the blocks of the owner of a model are its own. -/
theorem mem_blocks_of_owner {ms : List (AnyModel α)} (hreachable : ∀ k ∈ ms, k.Reachable)
    (hnodup : (ms.map fun k => k.store.id).Nodup) (hm : m ∈ ms) :
    ∀ b ∈ ms.flatMap fun k => k.store.blocks, b.owner = m.store.id → b ∈ m.store.blocks := by
  intro b hb howner
  obtain ⟨k, hk, hbk⟩ := List.mem_flatMap.mp hb
  have hid : k.store.id = m.store.id := ((hreachable k hk).owner b hbk).symm.trans howner
  obtain rfl := List.inj_on_of_nodup_map hnodup hk hm hid
  exact hbk

end AnyModel

/-- Models that are created with owners of their own, and called in any order. What a call is given
is built from the blocks that all of them have declared by then. -/
inductive Session : List (AnyModel α) → Prop
  | nil : Session []
  | create {ms m} : Session ms → m.New → (∀ k ∈ ms, k.store.id ≠ m.store.id) →
      Session (ms ++ [m])
  | call {pre m post} {c : Call α} : Session (pre ++ m :: post) →
      c.Built ((pre ++ m :: post).flatMap fun k => k.store.blocks) →
      Session (pre ++ m.after c :: post)

namespace Session

variable {ms : List (AnyModel α)}

/-- Every model is reachable on its own, and no two have the same owner. -/
theorem reachable_and_nodup (h : Session ms) :
    (∀ m ∈ ms, m.Reachable) ∧ (ms.map fun m => m.store.id).Nodup := by
  induction h with
  | nil => simp
  | @create ms m _ hnew hfresh ih =>
    obtain ⟨hreachable, hnodup⟩ := ih
    refine ⟨?_, ?_⟩
    · exact List.forall_mem_append.mpr ⟨hreachable, List.forall_mem_singleton.mpr hnew.reachable⟩
    · rw [List.map_append, List.nodup_append]
      refine ⟨hnodup, List.nodup_singleton _, ?_⟩
      rintro i hi j hj rfl
      obtain ⟨k, hk, rfl⟩ := List.mem_map.mp hi
      exact hfresh k hk (List.mem_singleton.mp hj)
  | @call pre m post c _ hc ih =>
    obtain ⟨hreachable, hnodup⟩ := ih
    have hm : m ∈ pre ++ m :: post := by simp
    have hown := AnyModel.mem_blocks_of_owner hreachable hnodup hm
    refine ⟨?_, ?_⟩
    · obtain ⟨hpre, -, hpost⟩ :
          (∀ k ∈ pre, k.Reachable) ∧ m.Reachable ∧ ∀ k ∈ post, k.Reachable := by
        simpa [or_imp, forall_and] using hreachable
      refine List.forall_mem_append.mpr ⟨hpre, List.forall_mem_cons.mpr ⟨?_, hpost⟩⟩
      exact (hreachable m hm).after hown hc
    · rw [List.map_append, List.map_cons] at hnodup ⊢
      rwa [(hreachable m hm).current.id_after c]

/-- **Every model of a session is reachable on its own.** -/
theorem reachable (h : Session ms) : ∀ m ∈ ms, m.Reachable := h.reachable_and_nodup.1

/-- The blocks of the owner of a model are its own. -/
theorem mem_blocks_of_owner (h : Session ms) {m : AnyModel α} (hm : m ∈ ms) :
    ∀ b ∈ ms.flatMap fun k => k.store.blocks, b.owner = m.store.id → b ∈ m.store.blocks :=
  AnyModel.mem_blocks_of_owner h.reachable_and_nodup.1 h.reachable_and_nodup.2 hm

end Session

end ConicForm
