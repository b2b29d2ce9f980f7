import ConicForm.Proofs.Model.Calls

/-!
# Current caches

A cache is current if what it holds is what its store gives now. Every call keeps all caches of a
model current, whatever its arguments are: a change drops them, and a question for a program stores
what it has computed, also where it fails in the end.

## Main definitions

* `Cache.Holds`: a cache that is empty or holds the result of a computation
* `ConeStore.linearDualProgram`, `ConeStore.dualProgram`, `Store.dualProgram`: what duals are
  computed from
* `ConeModel.Current`, `LinearModel.Current`: the invariants

## Main results

* `ConeModel.Current.after`, `LinearModel.Current.after`: calls keep caches current
* `ConeModel.Current.primal_spec`, `ConeModel.Current.linearDual_spec`,
  `ConeModel.Current.dual_spec`, and the same for linear models: the programs that a model answers
  are those of its store
-/

namespace ConicForm

/-! ## Caches -/

namespace Cache

variable {τ ε : Type} {c : Cache τ}

/-- What the cache holds is the result of a computation. -/
def Holds (c : Cache τ) (result : Except ε τ) : Prop := ∀ x ∈ c.value?, result = .ok x

theorem holds_empty (result : Except ε τ) : (empty : Cache τ).Holds result := by
  rintro x ⟨⟩

theorem holds_invalidate (c : Cache τ) (result : Except ε τ) : c.invalidate.Holds result := by
  rintro x ⟨⟩

theorem Holds.eq_ok_of_get? {result : Except ε τ} (h : c.Holds result) {k : Handle τ}
    (hk : c.get? = some k) : result = .ok k.value := by
  obtain ⟨x, hx, rfl⟩ := Option.map_eq_some_iff.mp hk
  exact h x hx

/-- A cache that holds the result of a computation serves it, and holds what it serves. -/
theorem Holds.serve {result : Except ε τ} (h : c.Holds result) (build : Unit → Except ε τ)
    (hb : build () = result) :
    (c.serve build).1.map Handle.value = result ∧ (c.serve build).2.Holds result := by
  unfold Cache.serve
  split
  · next k hk => exact ⟨(h.eq_ok_of_get? hk).symm, h⟩
  · split
    · next e he => exact ⟨he.symm.trans hb, h⟩
    · next x hx =>
      refine ⟨hx.symm.trans hb, ?_⟩
      rintro y ⟨⟩
      exact hb.symm.trans hx

end Cache

theorem Handle.exists_of_map_eq_ok {τ ε : Type} {r : Except ε (Handle τ)} {x : τ}
    (h : r.map Handle.value = .ok x) : ∃ k, r = .ok k ∧ k.value = x := by
  cases r with
  | error e => cases h
  | ok k => exact ⟨k, rfl, Except.ok.inj h⟩

theorem Handle.eq_ok_of_map_eq {τ ε : Type} {r : Except ε (Handle τ)} {v : Except ε τ}
    {k : Handle τ} (h : r.map Handle.value = v) (hr : r = .ok k) : v = .ok k.value := by
  rw [← h, hr]
  rfl

variable {α : Type} [Scalar α]

/-! ## Cone models -/

namespace ConeStore

/-- The dual of the linear part of the canonical program. -/
def linearDualProgram (s : ConeStore α) : Except Error (LinearProgram α) := do
  (← s.coneProgram).linear.dualize

/-- The dual cone program. -/
def dualProgram (s : ConeStore α) : Except Error (ConeProgram α) := do
  let p ← s.coneProgram
  p.deriveDual (← p.linear.dualize)

variable {s : ConeStore α} {p : ConeProgram α} {l : LinearProgram α} {e : Error}

theorem linearDualProgram_of_error (hp : s.coneProgram = .error e) :
    s.linearDualProgram = .error e := by
  rw [linearDualProgram, hp]
  rfl

theorem dualProgram_of_error (hp : s.coneProgram = .error e) : s.dualProgram = .error e := by
  rw [dualProgram, hp]
  rfl

theorem linearDualProgram_of_ok (hp : s.coneProgram = .ok p) :
    s.linearDualProgram = p.linear.dualize := by
  rw [linearDualProgram, hp]
  rfl

theorem dualProgram_of_ok (hp : s.coneProgram = .ok p) :
    s.dualProgram = s.linearDualProgram >>= p.deriveDual := by
  rw [linearDualProgram_of_ok hp, dualProgram, hp]
  rfl

end ConeStore

namespace ConeModel

/-- Models whose caches hold what their store gives. -/
structure Current (m : ConeModel α) : Prop where
  primal : m.primalCache.Holds m.store.coneProgram
  linearDual : m.linearDualCache.Holds m.store.linearDualProgram
  dual : m.dualCache.Holds m.store.dualProgram

variable {m : ConeModel α}

theorem current_empty (id : ModelId) (settings : Settings) (name : Option String) :
    (empty id settings name : ConeModel α).Current :=
  ⟨Cache.holds_empty _, Cache.holds_empty _, Cache.holds_empty _⟩

/-- A change of the store drops what is cached. -/
theorem current_update (m : ConeModel α) (s : ConeStore α) : (m.update s).Current :=
  ⟨Cache.holds_invalidate _ _, Cache.holds_invalidate _ _, Cache.holds_invalidate _ _⟩

/-- The program that a model answers is that of its store, and its caches stay current. -/
theorem Current.primal_spec (hm : m.Current) :
    m.primal.1.map Handle.value = m.store.coneProgram ∧ m.primal.2.store = m.store ∧
      m.primal.2.Current := by
  obtain ⟨hmap, hholds⟩ := hm.primal.serve (fun _ => m.store.coneProgram) rfl
  exact ⟨hmap, rfl, { hm with primal := hholds }⟩

theorem Current.linearDual_spec (hm : m.Current) :
    m.linearDual.1.map Handle.value = m.store.linearDualProgram ∧
      m.linearDual.2.store = m.store ∧ m.linearDual.2.Current := by
  unfold ConeModel.linearDual
  split
  · next d hd => exact ⟨(hm.linearDual.eq_ok_of_get? hd).symm, rfl, hm⟩
  · obtain ⟨hmap, hstore, hcurrent⟩ := hm.primal_spec
    split
    · next e m' he =>
      rw [he] at hmap hstore hcurrent
      exact ⟨(ConeStore.linearDualProgram_of_error hmap.symm).symm, hstore, hcurrent⟩
    · next p m' hp =>
      rw [hp] at hmap hstore hcurrent
      have hbuild := (ConeStore.linearDualProgram_of_ok hmap.symm).symm
      rw [← hstore] at hbuild
      obtain ⟨hserve, hholds⟩ := hcurrent.linearDual.serve (fun _ => p.value.linear.dualize) hbuild
      exact ⟨hstore ▸ hserve, hstore, { hcurrent with linearDual := hholds }⟩

theorem Current.dual_spec (hm : m.Current) :
    m.dual.1.map Handle.value = m.store.dualProgram ∧ m.dual.2.store = m.store ∧
      m.dual.2.Current := by
  unfold ConeModel.dual
  split
  · next d hd => exact ⟨(hm.dual.eq_ok_of_get? hd).symm, rfl, hm⟩
  · obtain ⟨hmap, hstore, hcurrent⟩ := hm.primal_spec
    split
    · next e m₁ he =>
      rw [he] at hmap hstore hcurrent
      exact ⟨(ConeStore.dualProgram_of_error hmap.symm).symm, hstore, hcurrent⟩
    · next p m₁ hp =>
      rw [hp] at hmap hstore hcurrent
      have hdual := ConeStore.dualProgram_of_ok hmap.symm
      obtain ⟨hmap₂, hstore₂, hcurrent₂⟩ := hcurrent.linearDual_spec
      rw [hstore] at hmap₂ hstore₂
      rw [← hmap₂] at hdual
      split
      · next e m₂ he =>
        rw [he] at hdual hstore₂ hcurrent₂
        exact ⟨hdual.symm, hstore₂, hcurrent₂⟩
      · next l m₂ hl =>
        rw [hl] at hdual hstore₂ hcurrent₂
        rw [← hstore₂] at hdual
        obtain ⟨hserve, hholds⟩ :=
          hcurrent₂.dual.serve (fun _ => p.value.deriveDual l.value) hdual.symm
        exact ⟨hstore₂ ▸ hserve, hstore₂, { hcurrent₂ with dual := hholds }⟩

/-- What is computed from the store is what the model answers. -/
theorem Current.exists_programs (hm : m.Current) {p d : ConeProgram α} {l : LinearProgram α}
    (hp : m.store.coneProgram = .ok p) (hl : p.linear.dualize = .ok l)
    (hd : p.deriveDual l = .ok d) :
    ∃ p' l' d', m.primal.1 = .ok p' ∧ m.linearDual.1 = .ok l' ∧ m.dual.1 = .ok d' ∧
      p'.value = p ∧ l'.value = l ∧ d'.value = d := by
  have hlinear : m.store.linearDualProgram = .ok l :=
    (ConeStore.linearDualProgram_of_ok hp).trans hl
  have hdual : m.store.dualProgram = .ok d := by
    rw [ConeStore.dualProgram_of_ok hp, hlinear]
    exact hd
  obtain ⟨p', hp', hpv⟩ := Handle.exists_of_map_eq_ok (hm.primal_spec.1.trans hp)
  obtain ⟨l', hl', hlv⟩ := Handle.exists_of_map_eq_ok (hm.linearDual_spec.1.trans hlinear)
  obtain ⟨d', hd', hdv⟩ := Handle.exists_of_map_eq_ok (hm.dual_spec.1.trans hdual)
  exact ⟨p', l', d', hp', hl', hd', hpv, hlv, hdv⟩

/-- Every call keeps caches current. -/
theorem Current.after (hm : m.Current) (c : Call α) : (m.after c).Current := by
  rcases m.after_cases c with ⟨-, s, h⟩ | ⟨-, h | h | h | h⟩
  all_goals rw [h]
  · exact current_update m s
  · exact hm
  · exact hm.primal_spec.2.2
  · exact hm.linearDual_spec.2.2
  · exact hm.dual_spec.2.2

theorem Current.foldl_after (hm : m.Current) (cs : List (Call α)) :
    (cs.foldl ConeModel.after m).Current :=
  List.foldlRecOn cs _ hm fun _ hm c _ => hm.after c

end ConeModel

/-! ## Linear models -/

namespace Store

/-- The dual of the canonical linear program. -/
def dualProgram (s : Store α) : Except Error (LinearProgram α) := do (← s.linearProgram).dualize

variable {s : Store α}

theorem dualProgram_of_error {e : Error} (hp : s.linearProgram = .error e) :
    s.dualProgram = .error e := by
  rw [dualProgram, hp]
  rfl

theorem dualProgram_of_ok {p : LinearProgram α} (hp : s.linearProgram = .ok p) :
    s.dualProgram = p.dualize := by
  rw [dualProgram, hp]
  rfl

end Store

namespace LinearModel

/-- Models whose caches hold what their store gives. -/
structure Current (m : LinearModel α) : Prop where
  primal : m.primalCache.Holds m.store.linearProgram
  dual : m.dualCache.Holds m.store.dualProgram

variable {m : LinearModel α}

theorem current_empty (id : ModelId) (settings : Settings) (name : Option String) :
    (empty id settings name : LinearModel α).Current :=
  ⟨Cache.holds_empty _, Cache.holds_empty _⟩

/-- A change of the store drops what is cached. -/
theorem current_update (m : LinearModel α) (s : Store α) : (m.update s).Current :=
  ⟨Cache.holds_invalidate _ _, Cache.holds_invalidate _ _⟩

/-- The program that a model answers is that of its store, and its caches stay current. -/
theorem Current.primal_spec (hm : m.Current) :
    m.primal.1.map Handle.value = m.store.linearProgram ∧ m.primal.2.store = m.store ∧
      m.primal.2.Current := by
  obtain ⟨hmap, hholds⟩ := hm.primal.serve (fun _ => m.store.linearProgram) rfl
  exact ⟨hmap, rfl, { hm with primal := hholds }⟩

theorem Current.dual_spec (hm : m.Current) :
    m.dual.1.map Handle.value = m.store.dualProgram ∧ m.dual.2.store = m.store ∧
      m.dual.2.Current := by
  unfold LinearModel.dual
  split
  · next d hd => exact ⟨(hm.dual.eq_ok_of_get? hd).symm, rfl, hm⟩
  · obtain ⟨hmap, hstore, hcurrent⟩ := hm.primal_spec
    split
    · next e m' he =>
      rw [he] at hmap hstore hcurrent
      exact ⟨(Store.dualProgram_of_error hmap.symm).symm, hstore, hcurrent⟩
    · next p m' hp =>
      rw [hp] at hmap hstore hcurrent
      have hbuild := (Store.dualProgram_of_ok hmap.symm).symm
      rw [← hstore] at hbuild
      obtain ⟨hserve, hholds⟩ := hcurrent.dual.serve (fun _ => p.value.dualize) hbuild
      exact ⟨hstore ▸ hserve, hstore, { hcurrent with dual := hholds }⟩

/-- Every call keeps caches current. -/
theorem Current.after (hm : m.Current) (c : Call α) : (m.after c).Current := by
  rcases m.after_cases c with ⟨-, s, h⟩ | ⟨-, h | h | h⟩
  all_goals rw [h]
  · exact current_update m s
  · exact hm
  · exact hm.primal_spec.2.2
  · exact hm.dual_spec.2.2

theorem Current.foldl_after (hm : m.Current) (cs : List (Call α)) :
    (cs.foldl LinearModel.after m).Current :=
  List.foldlRecOn cs _ hm fun _ hm c _ => hm.after c

end LinearModel

end ConicForm
