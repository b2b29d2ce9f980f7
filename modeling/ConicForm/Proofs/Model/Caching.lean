import ConicForm.Proofs.Model.Current

/-!
# When answers are shared

A program that is asked for again is answered with the same handle as long as nothing has changed,
and with a new one after any change. What a cache stores is numbered, and the numbers only grow: a
handle that was dropped is never answered again, and a valid one is not replaced.

## Main definitions

* `Cache.Kept`: a cache that is left as it is, or filled where nothing was valid
* `Quiet`: runs without a change
* `Shared`: two answers have the same handle exactly if the run between them is quiet
* `Serves`: a question that is answered from a cache which changes invalidate

## Main results

* `Serves.shared`: answers from such a cache are shared
* `caches_current_and_shared`: along every run of a model, all caches are current and all answers
  are shared
-/

namespace ConicForm

/-! ## Caches -/

namespace Cache

variable {τ ε : Type} {c c' c'' : Cache τ} {h k : Handle τ}

/-- A cache is left as it is, or filled where nothing was valid. -/
def Kept (c c' : Cache τ) : Prop := c' = c ∨ c.get? = none ∧ ∃ x, c' = (c.set x).2

theorem Kept.refl (c : Cache τ) : c.Kept c := .inl rfl

theorem Kept.trans (h : c.Kept c') (h' : c'.Kept c'') : c.Kept c'' := by
  rcases h with rfl | ⟨hc, x, rfl⟩
  · exact h'
  · rcases h' with rfl | ⟨hx, -⟩
    · exact .inr ⟨hc, x, rfl⟩
    · cases hx

theorem kept_serve (c : Cache τ) (build : Unit → Except ε τ) : c.Kept (c.serve build).2 := by
  unfold serve
  split
  · exact .refl c
  · next hc =>
    split
    · exact .refl c
    · next x _ => exact .inr ⟨hc, x, rfl⟩

/-- What is served is valid afterwards. -/
theorem get?_serve {build : Unit → Except ε τ} (hk : (c.serve build).1 = .ok k) :
    (c.serve build).2.get? = some k := by
  unfold serve at *
  split at hk
  · next h hc =>
    cases hk
    exact hc
  · split at hk
    · cases hk
    · cases hk
      rfl

/-- A valid value stays where a cache is kept. -/
theorem Kept.get?_eq_some (hkept : c.Kept c') (hc : c.get? = some h) : c'.get? = some h := by
  rcases hkept with rfl | ⟨hnone, -⟩
  · exact hc
  · cases hc.symm.trans hnone

/-- The cache has stored the value of a handle, and no longer has it. -/
def Past (h : Handle τ) (c : Cache τ) : Prop :=
  h.edition ≤ c.edition ∧ ∀ k, c.get? = some k → h.edition < k.edition

theorem past_invalidate (hc : c.get? = some h) : c.invalidate.Past h := by
  obtain ⟨x, -, rfl⟩ := Option.map_eq_some_iff.mp hc
  exact ⟨Nat.le_refl _, by rintro k ⟨⟩⟩

theorem Past.invalidate (hc : c.Past h) : c.invalidate.Past h := ⟨hc.1, by rintro k ⟨⟩⟩

/-- What is stored later has a larger number. -/
theorem Past.kept (hc : c.Past h) (hkept : c.Kept c') : c'.Past h := by
  rcases hkept with rfl | ⟨-, x, rfl⟩
  · exact hc
  · refine ⟨Nat.le_succ_of_le hc.1, ?_⟩
    rintro k ⟨⟩
    exact Nat.lt_succ_of_le hc.1

theorem Past.same_eq_false (hc : c.Past h) (hk : c.get? = some k) : h.same k = false := by
  have hlt := hc.2 k hk
  simp only [Handle.same, beq_eq_false_iff_ne]
  omega

end Cache

/-! ## Questions -/

section Questions

variable {μ κ τ ε : Type} {query : μ → Except ε (Handle τ) × μ} {after : μ → κ → μ}
  {Changes : μ → κ → Prop} {cache : μ → Cache τ} {m : μ} {cs : List κ} {h k : Handle τ}

/-- A run without a change. -/
def Quiet (after : μ → κ → μ) (Changes : μ → κ → Prop) : μ → List κ → Prop
  | _, [] => True
  | m, c :: cs => ¬Changes m c ∧ Quiet after Changes (after m c) cs

/-- Two answers to a question have the same handle exactly if the run between them is quiet. -/
def Shared (query : μ → Except ε (Handle τ) × μ) (after : μ → κ → μ) (Changes : μ → κ → Prop)
    (m : μ) : Prop :=
  ∀ cs h k, (query m).1 = .ok h → (query (cs.foldl after (query m).2)).1 = .ok k →
    (h.same k = true ↔ Quiet after Changes (query m).2 cs)

/-- A question is answered from a cache that changes invalidate and other calls keep. -/
structure Serves (query : μ → Except ε (Handle τ) × μ) (after : μ → κ → μ)
    (Changes : μ → κ → Prop) (cache : μ → Cache τ) : Prop where
  answered : ∀ {m h}, (query m).1 = .ok h → (cache (query m).2).get? = some h
  asked : ∀ m, (cache m).Kept (cache (query m).2)
  dropped : ∀ {m c}, Changes m c → cache (after m c) = (cache m).invalidate
  kept : ∀ {m c}, ¬Changes m c → (cache m).Kept (cache (after m c))

namespace Serves

variable (hs : Serves query after Changes cache)

include hs

theorem past_foldl (hm : (cache m).Past h) (cs : List κ) : (cache (cs.foldl after m)).Past h := by
  induction cs generalizing m with
  | nil => exact hm
  | cons c cs ih =>
    apply ih
    by_cases hc : Changes m c
    · exact hs.dropped hc ▸ hm.invalidate
    · exact hm.kept (hs.kept hc)

theorem get?_foldl_of_quiet (hm : (cache m).get? = some h) (hq : Quiet after Changes m cs) :
    (cache (cs.foldl after m)).get? = some h := by
  induction cs generalizing m with
  | nil => exact hm
  | cons c cs ih => exact ih ((hs.kept hq.1).get?_eq_some hm) hq.2

/-- The first change of a run drops the value that was valid before. -/
theorem past_foldl_of_not_quiet (hm : (cache m).get? = some h)
    (hq : ¬Quiet after Changes m cs) : (cache (cs.foldl after m)).Past h := by
  induction cs generalizing m with
  | nil => exact absurd trivial hq
  | cons c cs ih =>
    -- the value is dropped by this call, or it is still valid and a later one drops it
    by_cases hc : Changes m c
    · exact hs.past_foldl (hs.dropped hc ▸ Cache.past_invalidate hm) cs
    · exact ih ((hs.kept hc).get?_eq_some hm) fun hcs => hq ⟨hc, hcs⟩

/-- **Answers from a cache are shared until a change, and no longer.** -/
theorem shared (m : μ) : Shared query after Changes m := by
  intro cs h k hh hk
  have hfirst := hs.answered hh
  have hsecond := hs.answered hk
  have hasked := hs.asked (cs.foldl after (query m).2)
  by_cases hq : Quiet after Changes (query m).2 cs
  · have hvalid := hasked.get?_eq_some (hs.get?_foldl_of_quiet hfirst hq)
    obtain rfl := Option.some.inj (hvalid.symm.trans hsecond)
    exact iff_of_true (beq_self_eq_true _) hq
  · have hpast := (hs.past_foldl_of_not_quiet hfirst hq).kept hasked
    exact iff_of_false (by simp [hpast.same_eq_false hsecond]) hq

end Serves

end Questions

variable {α : Type} [Scalar α]

/-! ## Cone models -/

namespace ConeModel

/-- A model whose caches are kept, or filled where nothing was valid. -/
structure Kept (m m' : ConeModel α) : Prop where
  primal : m.primalCache.Kept m'.primalCache
  linearDual : m.linearDualCache.Kept m'.linearDualCache
  dual : m.dualCache.Kept m'.dualCache

theorem Kept.refl (m : ConeModel α) : m.Kept m := ⟨.refl _, .refl _, .refl _⟩

theorem Kept.trans {m m' m'' : ConeModel α} (h : m.Kept m') (h' : m'.Kept m'') : m.Kept m'' :=
  ⟨h.primal.trans h'.primal, h.linearDual.trans h'.linearDual, h.dual.trans h'.dual⟩

theorem kept_primal (m : ConeModel α) : m.Kept m.primal.2 :=
  { Kept.refl m with primal := Cache.kept_serve _ _ }

theorem kept_linearDual (m : ConeModel α) : m.Kept m.linearDual.2 := by
  have hprimal := m.kept_primal
  unfold linearDual
  split
  · exact .refl m
  · split
    · next e m' hp =>
      rw [hp] at hprimal
      exact hprimal
    · next p m' hp =>
      rw [hp] at hprimal
      exact { hprimal with linearDual := hprimal.linearDual.trans (Cache.kept_serve _ _) }

theorem kept_dual (m : ConeModel α) : m.Kept m.dual.2 := by
  have hprimal := m.kept_primal
  unfold dual
  split
  · exact .refl m
  · split
    · next e m₁ hp =>
      rw [hp] at hprimal
      exact hprimal
    · next p m₁ hp =>
      rw [hp] at hprimal
      have hlinear := hprimal.trans m₁.kept_linearDual
      split
      · next e m₂ hl =>
        rw [hl] at hlinear
        exact hlinear
      · next l m₂ hl =>
        rw [hl] at hlinear
        exact { hlinear with dual := hlinear.dual.trans (Cache.kept_serve _ _) }

/-- A call that changes nothing keeps all caches, also where it fails. -/
theorem kept_after {m : ConeModel α} {c : Call α} (hc : ¬m.Changes c) : m.Kept (m.after c) := by
  rcases m.after_cases c with ⟨h, -⟩ | ⟨-, h | h | h | h⟩
  · exact absurd h hc
  all_goals rw [h]
  · exact .refl m
  · exact m.kept_primal
  · exact m.kept_linearDual
  · exact m.kept_dual

/-- A change drops what all caches hold, whichever part of the store it is to. -/
theorem invalidated_after {m : ConeModel α} {c : Call α} (hc : m.Changes c) :
    (m.after c).primalCache = m.primalCache.invalidate ∧
      (m.after c).linearDualCache = m.linearDualCache.invalidate ∧
      (m.after c).dualCache = m.dualCache.invalidate := by
  rcases m.after_cases c with ⟨-, s, h⟩ | ⟨h, -⟩
  · rw [h]
    exact ⟨rfl, rfl, rfl⟩
  · exact absurd hc h

theorem serves_primal :
    Serves primal after Changes (fun m : ConeModel α => m.primalCache) where
  answered := Cache.get?_serve
  asked m := m.kept_primal.primal
  dropped hc := (invalidated_after hc).1
  kept hc := (kept_after hc).primal

theorem serves_linearDual :
    Serves linearDual after Changes (fun m : ConeModel α => m.linearDualCache) where
  answered := by
    intro m h hm
    unfold linearDual at *
    split at hm
    · next d hd =>
      cases hm
      exact hd
    · split at hm
      · cases hm
      · exact Cache.get?_serve hm
  asked m := m.kept_linearDual.linearDual
  dropped hc := (invalidated_after hc).2.1
  kept hc := (kept_after hc).linearDual

theorem serves_dual :
    Serves dual after Changes (fun m : ConeModel α => m.dualCache) where
  answered := by
    intro m h hm
    unfold dual at *
    split at hm
    · next d hd =>
      cases hm
      exact hd
    · split at hm
      · cases hm
      · split at hm
        · cases hm
        · exact Cache.get?_serve hm
  asked m := m.kept_dual.dual
  dropped hc := (invalidated_after hc).2.2
  kept hc := (kept_after hc).dual

end ConeModel

/-! ## Linear models -/

namespace LinearModel

/-- A model whose caches are kept, or filled where nothing was valid. -/
structure Kept (m m' : LinearModel α) : Prop where
  primal : m.primalCache.Kept m'.primalCache
  dual : m.dualCache.Kept m'.dualCache

theorem Kept.refl (m : LinearModel α) : m.Kept m := ⟨.refl _, .refl _⟩

theorem kept_primal (m : LinearModel α) : m.Kept m.primal.2 :=
  { Kept.refl m with primal := Cache.kept_serve _ _ }

theorem kept_dual (m : LinearModel α) : m.Kept m.dual.2 := by
  have hprimal := m.kept_primal
  unfold dual
  split
  · exact .refl m
  · split
    · next e m' hp =>
      rw [hp] at hprimal
      exact hprimal
    · next p m' hp =>
      rw [hp] at hprimal
      exact { hprimal with dual := hprimal.dual.trans (Cache.kept_serve _ _) }

/-- A call that changes nothing keeps both caches, also where it fails. -/
theorem kept_after {m : LinearModel α} {c : Call α} (hc : ¬m.Changes c) : m.Kept (m.after c) := by
  rcases m.after_cases c with ⟨h, -⟩ | ⟨-, h | h | h⟩
  · exact absurd h hc
  all_goals rw [h]
  · exact .refl m
  · exact m.kept_primal
  · exact m.kept_dual

/-- A change drops what both caches hold. -/
theorem invalidated_after {m : LinearModel α} {c : Call α} (hc : m.Changes c) :
    (m.after c).primalCache = m.primalCache.invalidate ∧
      (m.after c).dualCache = m.dualCache.invalidate := by
  rcases m.after_cases c with ⟨-, s, h⟩ | ⟨h, -⟩
  · rw [h]
    exact ⟨rfl, rfl⟩
  · exact absurd hc h

theorem serves_primal :
    Serves primal after Changes (fun m : LinearModel α => m.primalCache) where
  answered := Cache.get?_serve
  asked m := m.kept_primal.primal
  dropped hc := (invalidated_after hc).1
  kept hc := (kept_after hc).primal

theorem serves_dual :
    Serves dual after Changes (fun m : LinearModel α => m.dualCache) where
  answered := by
    intro m h hm
    unfold dual at *
    split at hm
    · next d hd =>
      cases hm
      exact hd
    · split at hm
      · cases hm
      · exact Cache.get?_serve hm
  asked m := m.kept_dual.dual
  dropped hc := (invalidated_after hc).2
  kept hc := (kept_after hc).dual

end LinearModel

/-! ## Runs -/

/-- A cone model whose caches are current, and whose later answers share handles until a change. -/
structure ConeModel.Coherent (m : ConeModel α) : Prop where
  current : m.Current
  primal : Shared ConeModel.primal ConeModel.after ConeModel.Changes m
  linearDual : Shared ConeModel.linearDual ConeModel.after ConeModel.Changes m
  dual : Shared ConeModel.dual ConeModel.after ConeModel.Changes m

/-- A linear model whose caches are current, and whose later answers share handles until a
change. -/
structure LinearModel.Coherent (m : LinearModel α) : Prop where
  current : m.Current
  primal : Shared LinearModel.primal LinearModel.after LinearModel.Changes m
  dual : Shared LinearModel.dual LinearModel.after LinearModel.Changes m

/-- **Caches are never stale, and never dropped without a change.** After any run of calls on a new
model, what a valid cache holds is what its store gives; and two answers to one question, with any
run between them, have the same handle exactly if nothing has changed in between. -/
theorem caches_current_and_shared (id : ModelId) (settings : Settings) (name : Option String)
    (cs : List (Call α)) :
    (cs.foldl ConeModel.after (.empty id settings name)).Coherent ∧
      (cs.foldl LinearModel.after (.empty id settings name)).Coherent where
  left := {
    current := (ConeModel.current_empty id settings name).foldl_after cs
    primal := ConeModel.serves_primal.shared _
    linearDual := ConeModel.serves_linearDual.shared _
    dual := ConeModel.serves_dual.shared _ }
  right := {
    current := (LinearModel.current_empty id settings name).foldl_after cs
    primal := LinearModel.serves_primal.shared _
    dual := LinearModel.serves_dual.shared _ }

end ConicForm
