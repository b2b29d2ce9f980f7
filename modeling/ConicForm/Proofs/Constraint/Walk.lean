import ConicForm.Proofs.Constraint.Collection
import Mathlib.Data.List.Induction
import Mathlib.Data.Nat.Basic
import Mathlib.Order.Basic

/-!
# The loop over pending collections

A collection is taken apart by a loop. A round takes the collection in front of the pending
ones: a member joins the members found so far, a group puts its members in front, and a group
that already has the limit of groups around it ends the loop. This module relates the loop to
the recursion on the collection, and both to the addresses of a collection: the indices by
which one descends from the root.

A path counts every group it passes through, the one it ends at included, so that an empty
group counts like any other.

## Main definitions

* `Walker`, `Walker.round`, `Walker.run`: the state of the loop, one round, a number of rounds
* `Collection.passed`: the number of groups on the path to an address
* `Collection.member?`: the member at an address
* `Collection.Enumerates`: members in the order of their addresses, each once

## Main results

* `Walker.run_eq`: the loop ends within one round for each member and group
* `Collection.deeper_iff`: the depth of a collection is the length of its longest path
* `Collection.enumerates_leaves`: the leaves are in depth-first order, each once
* `Collection.flatten_spec`: what the loop yields, and when it fails
-/

namespace ConicForm

/-- The state of the loop: pending collections, the next one in front, each with the number of
groups around it, and the members found so far. -/
structure Walker (γ : Type) where
  pending : List (Collection γ × Nat)
  found : List γ

namespace Walker

variable {γ : Type} {limit : Nat}

/-- Before the first round only the collection itself is pending. -/
def start (t : Collection γ) : Walker γ := ⟨[(t, 0)], []⟩

/-- One round leads to the next state or to the result of the loop. -/
def round (limit : Nat) : Walker γ → Walker γ ⊕ Except Error (List γ)
  | ⟨[], found⟩ => .inr (.ok found)
  | ⟨(.leaf c, _) :: pending, found⟩ => .inl ⟨pending, found ++ [c]⟩
  | ⟨(.group ts, d) :: pending, found⟩ =>
    if limit ≤ d then .inr (.error (.nestedTooDeep limit))
    else .inl ⟨Collection.within (d + 1) ts ++ pending, found⟩

/-- The result of the loop, if it ends within a number of rounds. -/
def run (limit : Nat) : Nat → Walker γ → Option (Except Error (List γ))
  | 0, _ => none
  | k + 1, w =>
    match w.round limit with
    | .inl next => run limit k next
    | .inr result => some result

/-- The members and groups that are still pending. -/
def size (w : Walker γ) : Nat := (w.pending.map fun p => p.1.nodes).foldr (· + ·) 0

/-- The members found so far and those of the pending collections. -/
def result (limit : Nat) (w : Walker γ) : Except Error (List γ) :=
  return w.found ++ (← Collection.walk limit w.pending)

/-- What a round leaves for the others: the same members to find, and one member or group less
to look at. -/
theorem of_round_eq_inl {w next : Walker γ} (h : w.round limit = .inl next) :
    next.result limit = w.result limit ∧ next.size + 1 = w.size := by
  obtain ⟨pending, found⟩ := w
  match pending with
  | [] => cases h
  | (.leaf c, d) :: pending =>
    cases h
    refine ⟨?_, by simp [size, Nat.add_comm]⟩
    rw [result, result, Collection.walk]
    cases Collection.walk limit pending with
    | error e => rfl
    | ok cs => exact congrArg Except.ok (List.append_cons found c cs).symm
  | (.group ts, d) :: pending =>
    rw [round] at h
    split at h
    · cases h
    · next hd =>
      cases h
      refine ⟨by rw [result, result, Collection.walk, if_neg hd], ?_⟩
      simp only [size, Collection.within, List.map_append, List.map_map, foldr_add_append,
        Function.comp_def, List.map_cons, List.foldr_cons, Collection.nodes_group]
      exact (Nat.add_comm ..).trans (Nat.add_assoc ..).symm

/-- A round that ends the loop yields the members found, or the error of the walk. -/
theorem of_round_eq_inr {w : Walker γ} {r : Except Error (List γ)}
    (h : w.round limit = .inr r) : r = w.result limit := by
  obtain ⟨pending, found⟩ := w
  match pending with
  | [] =>
    cases h
    simp [result, Collection.walk]
  | (.leaf c, d) :: pending => cases h
  | (.group ts, d) :: pending =>
    rw [round] at h
    split at h
    · next hd =>
      cases h
      rw [result, Collection.walk, if_pos hd]
      rfl
    · cases h

/-- The loop ends: one round for each pending member and group, and one to find that none is
left, are enough. -/
theorem run_eq (k : Nat) (w : Walker γ) (hk : w.size < k) :
    w.run limit k = some (w.result limit) := by
  induction k generalizing w with
  | zero => omega
  | succ k ih =>
    rw [run]
    cases h : w.round limit with
    | inl next =>
      obtain ⟨hresult, hsize⟩ := of_round_eq_inl h
      exact (ih next (by omega)).trans (congrArg some hresult)
    | inr r => exact congrArg some (of_round_eq_inr h)

theorem result_start (t : Collection γ) : (start t).result limit = t.flatten limit := by
  simp [result, start, Collection.flatten]

theorem size_start (t : Collection γ) : (start t).size = t.nodes := by simp [size, start]

end Walker

namespace Collection

variable {γ : Type} {limit : Nat}

/-- Induction over the members and groups of a collection. -/
@[elab_as_elim]
theorem induction {P : Collection γ → Prop} (leaf : ∀ c, P (.leaf c))
    (group : ∀ ts, (∀ t ∈ ts, P t) → P (.group ts)) : ∀ t, P t
  | .leaf c => leaf c
  | .group ts => group ts fun t _ => induction leaf group t

/-- The number of groups on the path from the root to an address, the group at the address
included. Nothing is at an address that leads out of the collection. -/
def passed : Collection γ → List Nat → Option Nat
  | leaf _, [] => some 0
  | group _, [] => some 1
  | leaf _, _ :: _ => none
  | group ts, i :: p => ts[i]?.bind fun t => (passed t p).map (· + 1)

/-- The member at an address, unless a group is there or the address leads out. -/
def member? : Collection γ → List Nat → Option γ
  | leaf c, [] => some c
  | group _, [] => none
  | leaf _, _ :: _ => none
  | group ts, i :: p => ts[i]?.bind fun t => member? t p

/-- Some path from the root passes through more groups than the limit. -/
def Deeper (limit : Nat) (t : Collection γ) : Prop := ∃ p k, t.passed p = some k ∧ limit < k

/-- The members of a collection in the order of their addresses, which is the depth-first order
from left to right, each once. -/
def Enumerates (t : Collection γ) (cs : List γ) : Prop :=
  ∃ ps : List (List Nat), ps.Pairwise (· < ·) ∧ (∀ p, p ∈ ps ↔ (t.member? p).isSome) ∧
    ps.map t.member? = cs.map some

theorem passed_group_cons_eq_some_iff {ts : List (Collection γ)} {i : Nat} {p : List Nat}
    {k : Nat} :
    (group ts).passed (i :: p) = some k ↔
      ∃ t, ts[i]? = some t ∧ ∃ l, t.passed p = some l ∧ l + 1 = k := by
  simp [passed, Option.bind_eq_some_iff]

/-! ## The longest path -/

theorem exists_depth_group (ts : List (Collection γ)) : ∃ n, (group ts).depth = n + 1 :=
  ⟨_, (depth_group ts).trans (Nat.add_comm ..)⟩

theorem passed_le_depth {t : Collection γ} {p : List Nat} {k : Nat} (h : t.passed p = some k) :
    k ≤ t.depth := by
  induction p generalizing t k with
  | nil =>
    cases t with
    | leaf c => cases h; exact Nat.zero_le _
    | group ts => cases h; rw [depth_group]; exact Nat.le_add_right ..
  | cons i p ih =>
    cases t with
    | leaf c => cases h
    | group ts =>
      obtain ⟨t, ht, l, hl, rfl⟩ := passed_group_cons_eq_some_iff.mp h
      obtain ⟨n, hn⟩ := exists_depth_group ts
      rw [hn]
      exact Nat.succ_le_succ
        ((ih hl).trans ((depth_group_le_iff ts n).mp hn.le t (List.mem_of_getElem? ht)))

/-- Some path passes through as many groups as the collection is deep. -/
theorem exists_passed_eq_depth (t : Collection γ) : ∃ p, t.passed p = some t.depth := by
  induction t using Collection.induction with
  | leaf c => exact ⟨[], by simp [passed]⟩
  | group ts ih =>
    by_cases hdeep : ∃ t ∈ ts, (group ts).depth = t.depth + 1
    · obtain ⟨t, ht, hdepth⟩ := hdeep
      obtain ⟨p, hp⟩ := ih t ht
      obtain ⟨i, hi⟩ := List.getElem?_of_mem ht
      exact ⟨i :: p, passed_group_cons_eq_some_iff.mpr ⟨t, hi, t.depth, hp, hdepth.symm⟩⟩
    · refine ⟨[], congrArg some ?_⟩
      obtain ⟨n, hn⟩ := exists_depth_group ts
      cases n with
      | zero => exact hn.symm
      | succ n =>
        have hle := (depth_group_le_iff ts (n + 1)).mp hn.le
        have hlt : ∀ t ∈ ts, t.depth ≤ n := by
          intro t ht
          have hne : t.depth ≠ n + 1 := fun h => hdeep ⟨t, ht, hn.trans (congrArg (· + 1) h.symm)⟩
          exact Nat.lt_succ_iff.mp ((hle t ht).lt_of_ne hne)
        have := (depth_group_le_iff ts n).mpr hlt
        omega

/-- A path through more groups than the limit is a nesting deeper than the limit. -/
theorem deeper_iff (t : Collection γ) : t.Deeper limit ↔ limit < t.depth := by
  constructor
  · rintro ⟨p, k, hp, hk⟩
    exact hk.trans_le (passed_le_depth hp)
  · intro h
    obtain ⟨p, hp⟩ := exists_passed_eq_depth t
    exact ⟨p, _, hp, h⟩

/-! ## The order of the leaves -/

theorem enumerates_leaf (c : γ) : (leaf c).Enumerates [c] := by
  refine ⟨[[]], List.pairwise_singleton .., fun p => ?_, rfl⟩
  cases p with
  | nil => simp [member?]
  | cons i p => simp [member?]

theorem member?_group_append_left {ts us : List (Collection γ)} {i : Nat} (hi : i < ts.length)
    (p : List Nat) : (group (ts ++ us)).member? (i :: p) = (group ts).member? (i :: p) := by
  rw [member?, member?, List.getElem?_append_left hi]

theorem lt_length_of_isSome_member? {ts : List (Collection γ)} {i : Nat} {p : List Nat}
    (h : ((group ts).member? (i :: p)).isSome) : i < ts.length := by
  by_contra hi
  rw [member?, List.getElem?_eq_none (Nat.le_of_not_lt hi)] at h
  cases h

/-- The members of the last collection of a group come after all others. -/
theorem Enumerates.snoc {ts : List (Collection γ)} {t : Collection γ} {cs ds : List γ}
    (hts : (group ts).Enumerates cs) (ht : t.Enumerates ds) :
    (group (ts ++ [t])).Enumerates (cs ++ ds) := by
  obtain ⟨ps, hps, hmem, hmap⟩ := hts
  obtain ⟨qs, hqs, hmem', hmap'⟩ := ht
  have hlast (q : List Nat) : (group (ts ++ [t])).member? (ts.length :: q) = t.member? q := by
    simp [member?]
  have hfront : ∀ p ∈ ps, (∃ i q, p = i :: q ∧ i < ts.length) ∧
      (group (ts ++ [t])).member? p = (group ts).member? p := by
    intro p hp
    have hsome := (hmem p).mp hp
    cases p with
    | nil => cases hsome
    | cons i q =>
      have hi := lt_length_of_isSome_member? hsome
      exact ⟨⟨i, q, rfl, hi⟩, member?_group_append_left hi q⟩
  refine ⟨ps ++ qs.map (ts.length :: ·), ?_, fun p => ?_, ?_⟩
  · refine List.pairwise_append.mpr ⟨hps, ?_, ?_⟩
    · exact List.pairwise_map.mpr
        (hqs.imp fun hpq => List.cons_lt_cons_iff.mpr (.inr ⟨rfl, hpq⟩))
    · intro p hp p' hp'
      obtain ⟨⟨i, q, rfl, hi⟩, -⟩ := hfront p hp
      obtain ⟨q', -, rfl⟩ := List.mem_map.mp hp'
      exact List.cons_lt_cons_iff.mpr (.inl hi)
  · rw [List.mem_append, List.mem_map]
    constructor
    · rintro (hp | ⟨q, hq, rfl⟩)
      · rw [(hfront p hp).2]
        exact (hmem p).mp hp
      · rw [hlast]
        exact (hmem' q).mp hq
    · intro hsome
      cases p with
      | nil => cases hsome
      | cons i q =>
        have hi := lt_length_of_isSome_member? hsome
        rw [List.length_append, List.length_singleton, Nat.lt_succ_iff_lt_or_eq] at hi
        rcases hi with hi | rfl
        · rw [member?_group_append_left hi] at hsome
          exact .inl ((hmem _).mpr hsome)
        · rw [hlast] at hsome
          exact .inr ⟨q, (hmem' q).mpr hsome, rfl⟩
  · rw [List.map_append, List.map_append, List.map_map, ← hmap, ← hmap',
      List.map_congr_left fun p hp => (hfront p hp).2]
    exact congrArg _ (List.map_congr_left fun q _ => hlast q)

theorem enumerates_leaves (t : Collection γ) : t.Enumerates t.leaves := by
  induction t using Collection.induction with
  | leaf c =>
    rw [leaves_leaf]
    exact enumerates_leaf c
  | group ts ih =>
    rw [leaves_group]
    -- the members of a group are taken from the last one backwards
    induction ts using List.reverseRecOn with
    | nil =>
      refine ⟨[], .nil, fun p => ?_, rfl⟩
      cases p with
      | nil => simp [member?]
      | cons i p => simp [member?]
    | append_singleton ts t ihs =>
      rw [List.flatMap_append, List.flatMap_singleton]
      exact (ihs fun u hu => ih u (List.mem_append_left _ hu)).snoc
        (ih t (List.mem_append_right _ List.mem_cons_self))

/-- **The loop over pending collections yields what the recursion yields.** It ends, within one
round for each member and group and a last one, with the same result however many rounds are
allowed. It fails with the limit exactly if some path from the root passes through more groups
than the limit, and otherwise yields the leaves, which are the members at all addresses in
depth-first order from left to right, each once. -/
theorem flatten_spec (t : Collection γ) (limit : Nat) :
    (∀ k, (Walker.start t).run limit (t.nodes + 1 + k) = some (t.flatten limit)) ∧
      (t.flatten limit = .error (.nestedTooDeep limit) ↔ t.Deeper limit) ∧
      (∀ cs, t.flatten limit = .ok cs ↔ ¬ t.Deeper limit ∧ cs = t.leaves) ∧
      t.Enumerates t.leaves := by
  refine ⟨fun k => ?_, ?_, fun cs => ?_, enumerates_leaves t⟩
  · rw [Walker.run_eq _ _ (by rw [Walker.size_start]; omega), Walker.result_start]
  · rw [deeper_iff, flatten_eq]
    split
    · next h => exact iff_of_false nofun (Nat.not_lt.mpr h)
    · next h => exact iff_of_true rfl (Nat.lt_of_not_le h)
  · rw [deeper_iff, flatten_eq]
    split
    · next h =>
      rw [Except.ok.injEq, eq_comm, and_iff_right (Nat.not_lt.mpr h)]
    · next h => exact iff_of_false nofun fun hcs => hcs.1 (Nat.lt_of_not_le h)

-- an empty group counts, a single constraint does not
example : (Walker.start (.group [.group [], .leaf 7])).run 1 4 =
    some (.error (.nestedTooDeep 1)) := by decide

example : (Walker.start (.group [.leaf 5, .group [.leaf 6], .leaf 7])).run 2 6 =
    some (.ok [5, 6, 7]) := by decide

end Collection

end ConicForm
