import ConicForm.Constraint.Collection
import Mathlib.Logic.Basic

/-!
# Members of a collection

The list of pending collections yields the members in the order of the recursion on the
collection, and fails exactly if a group is nested too deep somewhere, in whatever order the
groups stand.

## Main results

* `Collection.flatten_eq`: a collection yields its leaves unless it is deeper than the limit
* `Collection.flatten_eq_leaves`: a collection that is not nested too deep yields its leaves
-/

namespace ConicForm

theorem foldr_max_le_iff (ds : List Nat) (k : Nat) : ds.foldr max 0 ≤ k ↔ ∀ d ∈ ds, d ≤ k := by
  induction ds with
  | nil => simp
  | cons d ds ih => simp only [List.foldr_cons, Nat.max_le, ih, List.forall_mem_cons]

namespace Collection

variable {γ : Type} {limit : Nat}

theorem flatMap_leaves_within (d : Nat) (ts : List (Collection γ)) :
    (within d ts).flatMap (fun p => p.1.leaves) = ts.flatMap leaves := by
  rw [within, List.flatMap_map]

theorem depth_group_le_iff (ts : List (Collection γ)) (k : Nat) :
    (group ts).depth ≤ k + 1 ↔ ∀ t ∈ ts, t.depth ≤ k := by
  rw [depth_group, Nat.add_comm, Nat.add_le_add_iff_right, foldr_max_le_iff, List.forall_mem_map]

/-- Pending collections fit below a limit if none of them is nested deeper than the groups around
it leave room for. -/
def Fits (limit : Nat) (pending : List (Collection γ × Nat)) : Prop :=
  ∀ p ∈ pending, p.1.depth + p.2 ≤ limit

instance (limit : Nat) (pending : List (Collection γ × Nat)) : Decidable (Fits limit pending) :=
  inferInstanceAs (Decidable (∀ p ∈ pending, p.1.depth + p.2 ≤ limit))

theorem fits_leaf_cons_iff {c : γ} {d : Nat} (hd : d ≤ limit)
    {pending : List (Collection γ × Nat)} :
    Fits limit ((leaf c, d) :: pending) ↔ Fits limit pending := by
  simp only [Fits, List.forall_mem_cons, depth_leaf, Nat.zero_add, hd, true_and]

/-- A group fits if its members do with one more group around them. -/
theorem fits_group_cons_iff {ts : List (Collection γ)} {d : Nat} (hd : d < limit)
    {pending : List (Collection γ × Nat)} :
    Fits limit ((group ts, d) :: pending) ↔ Fits limit (within (d + 1) ts ++ pending) := by
  obtain ⟨k, rfl⟩ := Nat.exists_eq_add_of_lt hd
  have hgroup : (group ts).depth + d ≤ d + k + 1 ↔ ∀ t ∈ ts, t.depth + (d + 1) ≤ d + k + 1 := by
    rw [show (group ts).depth + d ≤ d + k + 1 ↔ (group ts).depth ≤ k + 1 by omega,
      depth_group_le_iff]
    refine forall₂_congr fun t _ => ?_
    omega
  rw [Fits, Fits, List.forall_mem_cons, List.forall_mem_append, within, List.forall_mem_map]
  exact and_congr_left' hgroup

/-- Pending collections are walked to the end, one after another, if they fit. The error does not
depend on where the deep group stands. -/
theorem walk_eq (pending : List (Collection γ × Nat)) (hd : ∀ p ∈ pending, p.2 ≤ limit) :
    walk limit pending =
      if Fits limit pending then .ok (pending.flatMap fun p => p.1.leaves)
      else .error (.nestedTooDeep limit) := by
  fun_induction walk limit pending with
  | case1 => rfl
  | case2 c d pending ih =>
    obtain ⟨hc, hpending⟩ := List.forall_mem_cons.mp hd
    rw [ih hpending, if_congr (fits_leaf_cons_iff hc) rfl rfl]
    split
    · rw [List.flatMap_cons, leaves_leaf]
      rfl
    · rfl
  | case3 ts d pending hlimit =>
    rw [if_neg]
    intro hfits
    have hgroup := hfits _ List.mem_cons_self
    rw [depth_group] at hgroup
    omega
  | case4 ts d pending hlimit ih =>
    have hlt : d < limit := Nat.lt_of_not_le hlimit
    rw [ih, if_congr (fits_group_cons_iff hlt) rfl rfl, List.flatMap_append, flatMap_leaves_within]
    · simp
    · intro p hp
      rcases List.mem_append.mp hp with hp | hp
      · obtain ⟨t, -, rfl⟩ := List.mem_map.mp hp
        exact hlt
      · exact hd p (List.mem_cons_of_mem _ hp)

/-- **A collection yields its leaves from left to right, unless it is nested too deep.** -/
theorem flatten_eq (t : Collection γ) (limit : Nat) :
    t.flatten limit =
      if t.depth ≤ limit then .ok t.leaves else .error (.nestedTooDeep limit) := by
  rw [flatten, walk_eq _ (by simp)]
  simp [Fits]

theorem flatten_eq_leaves {t : Collection γ} {cs : List γ} (h : t.flatten limit = .ok cs) :
    cs = t.leaves := by
  rw [flatten_eq] at h
  split at h
  · exact (Except.ok.inj h).symm
  · cases h

end Collection

end ConicForm
