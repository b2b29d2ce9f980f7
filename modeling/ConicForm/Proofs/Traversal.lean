import ConicForm.Error

/-!
# Checks of a list

A check of one member may fail. The check of a list goes from left to right, and stops at the
first member that fails.

## Main definitions

* `Accepts`: members that pass a check
* `FirstRefused`: the error of the first member that does not pass

## Main results

* `exists_mapM_eq_ok_iff`, `mapM_eq_error_iff`: a list passes if its members
  do, and otherwise fails with the error of the first that does not
-/

namespace ConicForm

variable {γ ι ε : Type}

/-- The check of a member succeeds. -/
def Accepts (check : γ → Except ε ι) (c : γ) : Prop := ∃ i, check c = .ok i

/-- The error of the first member that a check refuses. -/
def FirstRefused (check : γ → Except ε ι) (cs : List γ) (e : ε) : Prop :=
  ∃ pre c post, cs = pre ++ c :: post ∧ (∀ d ∈ pre, Accepts check d) ∧ check c = .error e

variable {check : γ → Except ε ι}

theorem not_firstRefused_nil (e : ε) : ¬FirstRefused check [] e := by
  rintro ⟨pre, c, post, h, -⟩
  simp at h

theorem firstRefused_cons_of_error {c : γ} {e : ε} (hc : check c = .error e) (cs : List γ)
    {e' : ε} : FirstRefused check (c :: cs) e' ↔ e' = e := by
  constructor
  · rintro ⟨pre, d, post, h, hpre, hd⟩
    cases pre with
    | nil =>
      obtain ⟨rfl, -⟩ := List.cons.inj h
      exact Except.error.inj (hd.symm.trans hc)
    | cons d' pre =>
      obtain ⟨rfl, -⟩ := List.cons.inj h
      obtain ⟨i, hi⟩ := hpre c List.mem_cons_self
      cases hi.symm.trans hc
  · rintro rfl
    exact ⟨[], c, cs, rfl, by simp, hc⟩

theorem firstRefused_cons_of_ok {c : γ} {i : ι} (hc : check c = .ok i) (cs : List γ) {e : ε} :
    FirstRefused check (c :: cs) e ↔ FirstRefused check cs e := by
  constructor
  · rintro ⟨pre, d, post, h, hpre, hd⟩
    cases pre with
    | nil =>
      obtain ⟨rfl, -⟩ := List.cons.inj h
      cases hd.symm.trans hc
    | cons d' pre =>
      obtain ⟨-, rfl⟩ := List.cons.inj h
      exact ⟨pre, d, post, rfl, fun x hx => hpre x (List.mem_cons_of_mem _ hx), hd⟩
  · rintro ⟨pre, d, post, rfl, hpre, hd⟩
    exact ⟨c :: pre, d, post, rfl, List.forall_mem_cons.mpr ⟨⟨i, hc⟩, hpre⟩, hd⟩

theorem accepts_iff (c : γ) : Accepts check c ↔ ∀ e, check c ≠ .error e := by
  unfold Accepts
  cases check c with
  | error e => exact iff_of_false (by rintro ⟨i, ⟨⟩⟩) fun h => h e rfl
  | ok i => exact iff_of_true ⟨i, rfl⟩ (by rintro e ⟨⟩)

/-- Which members are refused, and with which errors, does not depend on what a check gives. -/
theorem firstRefused_congr {ι' : Type} {check' : γ → Except ε ι'}
    (h : ∀ c e, check c = .error e ↔ check' c = .error e) (cs : List γ) (e : ε) :
    FirstRefused check cs e ↔ FirstRefused check' cs e := by
  simp only [FirstRefused, accepts_iff, ne_eq, h]

theorem map_eq_error_iff {ι' : Type} (f : ι → ι') {x : Except ε ι} {e : ε} :
    x.map f = .error e ↔ x = .error e := by
  cases x with
  | error e' =>
    exact ⟨fun h => congrArg _ (Except.error.inj h), fun h => congrArg _ (Except.error.inj h)⟩
  | ok i => exact iff_of_false (by rintro ⟨⟩) (by rintro ⟨⟩)

theorem exists_map_eq_ok_iff {ι' : Type} (f : ι → ι') {x : Except ε ι} :
    (∃ b, x.map f = .ok b) ↔ ∃ i, x = .ok i := by
  cases x with
  | error e => exact iff_of_false (by rintro ⟨b, ⟨⟩⟩) (by rintro ⟨i, ⟨⟩⟩)
  | ok i => exact iff_of_true ⟨f i, rfl⟩ ⟨i, rfl⟩

theorem mapM_cons_of_error {c : γ} {e : ε} (hc : check c = .error e) (cs : List γ) :
    (c :: cs).mapM check = .error e := by
  rw [List.mapM_cons, hc]
  rfl

theorem mapM_cons_of_ok {c : γ} {i : ι} (hc : check c = .ok i) (cs : List γ) :
    (c :: cs).mapM check = (cs.mapM check).map (i :: ·) := by
  rw [List.mapM_cons, hc]
  cases cs.mapM check <;> rfl

/-- Two checks that agree up to what they give agree so on lists. -/
theorem mapM_eq_map_mapM {ι' : Type} {check' : γ → Except ε ι'} (f : ι → ι') {cs : List γ}
    (h : ∀ c ∈ cs, check' c = (check c).map f) :
    cs.mapM check' = (cs.mapM check).map (List.map f) := by
  induction cs with
  | nil => rfl
  | cons c cs ih =>
    obtain ⟨hc, hcs⟩ := List.forall_mem_cons.mp h
    cases hi : check c with
    | error e =>
      rw [hi] at hc
      rw [mapM_cons_of_error hc, mapM_cons_of_error hi]
      rfl
    | ok i =>
      rw [hi] at hc
      rw [mapM_cons_of_ok hc, mapM_cons_of_ok hi, ih hcs]
      cases cs.mapM check <;> rfl

/-- What the check of a list gives comes from its members. -/
theorem exists_of_mem_mapM {cs : List γ} {items : List ι} (h : cs.mapM check = .ok items) :
    ∀ i ∈ items, ∃ c ∈ cs, check c = .ok i := by
  induction cs generalizing items with
  | nil =>
    cases h
    simp
  | cons c cs ih =>
    rw [List.mapM_cons] at h
    obtain ⟨i, hc, h⟩ := exists_of_bind_eq_ok h
    obtain ⟨is, hcs, h⟩ := exists_of_bind_eq_ok h
    cases h
    refine List.forall_mem_cons.mpr ⟨⟨c, List.mem_cons_self, hc⟩, fun j hj => ?_⟩
    obtain ⟨d, hd, hdj⟩ := ih hcs j hj
    exact ⟨d, List.mem_cons_of_mem _ hd, hdj⟩

/-- **The check of a list fails with the error of the first member that is refused.** -/
theorem mapM_eq_error_iff (cs : List γ) (e : ε) :
    cs.mapM check = .error e ↔ FirstRefused check cs e := by
  induction cs with
  | nil => exact iff_of_false (by rintro ⟨⟩) (not_firstRefused_nil e)
  | cons c cs ih =>
    cases hc : check c with
    | error e' =>
      rw [firstRefused_cons_of_error hc, mapM_cons_of_error hc, Except.error.injEq]
      exact eq_comm
    | ok i => rw [firstRefused_cons_of_ok hc, ← ih, mapM_cons_of_ok hc, map_eq_error_iff]

theorem exists_mapM_eq_ok_iff (cs : List γ) :
    (∃ items, cs.mapM check = .ok items) ↔ ∀ c ∈ cs, Accepts check c := by
  induction cs with
  | nil => exact iff_of_true ⟨[], rfl⟩ (by simp)
  | cons c cs ih =>
    rw [List.forall_mem_cons]
    cases hc : check c with
    | error e =>
      rw [mapM_cons_of_error hc, accepts_iff]
      exact iff_of_false (by rintro ⟨items, ⟨⟩⟩) fun h => h.1 e hc
    | ok i =>
      rw [mapM_cons_of_ok hc, exists_map_eq_ok_iff, ih]
      exact (and_iff_right ⟨i, hc⟩).symm

end ConicForm
