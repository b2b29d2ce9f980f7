import ConicForm.Proofs.Constraint.Collection
import ConicForm.Proofs.Model.Calls
import ConicForm.Proofs.Traversal

/-!
# Collections are stored as a whole

A model sorts the constraints of a collection into the parts of its store, and stores nothing
unless all of them are taken. Linear and cone models differ in what they take and in the parts
that they have. What makes a collection as good as its members one by one is the same for both:
whether a constraint is taken does not depend on the constraints that are stored already.

## Main definitions

* `Intake`: how a model sorts and stores constraints
* `Store.appended`, `ConeStore.appended`: a store with the constraints of a list in the parts that
  take them
* `AllOrNothing`: what storing a collection does in terms of its members

## Main results

* `Intake.allOrNothing`: every model that takes constraints in this way stores collections as a
  whole
* `subjectTo_allOrNothing`: linear and cone models do
-/

namespace ConicForm

/-! ## Taking constraints -/

/-- How a model takes constraints: each is sorted into a part of its store by a check that does not
look at the constraints in the store, and is put behind the others of its part. -/
structure Intake (μ σ γ ι : Type) where
  store : μ → σ
  update : μ → σ → μ
  /-- How deep collections may be nested. -/
  limit : σ → Nat
  classify : σ → γ → Except Error ι
  insert : σ → ι → σ
  /-- The store with the constraints of a list behind the others of their parts. -/
  appended : σ → List γ → σ
  store_update : ∀ m s, store (update m s) = s
  classify_insert : ∀ s i, classify (insert s i) = classify s
  insert_eq : ∀ {s c i}, classify s c = .ok i → insert s i = appended s [c]
  appended_nil : ∀ s, appended s [] = s
  appended_append : ∀ s cs ds, appended (appended s cs) ds = appended s (cs ++ ds)

/-- What storing a collection does, in terms of its members. -/
structure AllOrNothing {μ σ γ : Type} (take : μ → Collection γ → Except Error Unit × μ)
    (store : μ → σ) (appended : σ → List γ → σ) (limit : Nat) (m : μ) (t : Collection γ) :
    Prop where
  /-- A collection is taken if it is not nested too deep and each member is taken on its own. -/
  accepted : (take m t).1 = .ok () ↔
    t.depth ≤ limit ∧ ∀ c ∈ t.leaves, Accepts (fun c => (take m (.leaf c)).1) c
  /-- Every member then stands in its part, behind the others and in order. -/
  contents : ∀ m', take m t = (.ok (), m') → store m' = appended (store m) t.leaves
  /-- It is the same to take the members one after another, from left to right. -/
  oneByOne : t.depth ≤ limit →
    Except.map store (t.leaves.foldlM (fun m c => outcome (take m (.leaf c))) m) =
      (outcome (take m t)).map store
  /-- The depth comes before what is wrong with the members. -/
  tooDeep : limit < t.depth → (take m t).1 = .error (.nestedTooDeep limit)
  /-- The error is that of the first member that is not taken on its own. -/
  refused : t.depth ≤ limit →
    ∀ e, (take m t).1 = .error e ↔ FirstRefused (fun c => (take m (.leaf c)).1) t.leaves e
  /-- Nothing changes when there is an error. -/
  kept : ∀ e, (take m t).1 = .error e → (take m t).2 = m

namespace Intake

variable {μ σ γ ι : Type} (I : Intake μ σ γ ι)

/-- The store with all members of a list, unless one of them is not taken. -/
def insertAll (s : σ) (cs : List γ) : Except Error σ := do
  let items ← cs.mapM (I.classify s)
  return items.foldl I.insert s

/-- Takes all members of a collection or none. -/
def take (m : μ) (t : Collection γ) : Except Error Unit × μ :=
  attempt m (do I.insertAll (I.store m) (← t.flatten (I.limit (I.store m)))) (I.update m)

variable {I} {m : μ} {t : Collection γ} {s : σ}

theorem insertAll_eq_map (s : σ) (cs : List γ) :
    I.insertAll s cs = (cs.mapM (I.classify s)).map fun items => items.foldl I.insert s := by
  rw [insertAll]
  cases cs.mapM (I.classify s) <;> rfl

theorem take_of_depth_le (h : t.depth ≤ I.limit (I.store m)) :
    I.take m t = attempt m (I.insertAll (I.store m) t.leaves) (I.update m) := by
  rw [take, Collection.flatten_eq, if_pos h]
  rfl

theorem take_of_lt_depth (h : I.limit (I.store m) < t.depth) :
    I.take m t = (.error (.nestedTooDeep (I.limit (I.store m))), m) := by
  rw [take, Collection.flatten_eq, if_neg (Nat.not_le_of_lt h)]
  rfl

/-- A constraint on its own is taken if it is sorted into a part of the store. -/
theorem take_leaf (m : μ) (c : γ) :
    I.take m (.leaf c) =
      attempt m (I.classify (I.store m) c) fun i => I.update m (I.insert (I.store m) i) := by
  rw [take_of_depth_le (by simp), Collection.leaves_leaf, insertAll_eq_map]
  cases hc : I.classify (I.store m) c with
  | error e => rw [mapM_cons_of_error hc]; rfl
  | ok i => rw [mapM_cons_of_ok hc]; rfl

theorem take_leaf_eq_error_iff (c : γ) (e : Error) :
    (I.take m (.leaf c)).1 = .error e ↔ I.classify (I.store m) c = .error e := by
  rw [take_leaf, fst_attempt_eq_error_iff]

theorem accepts_take_leaf_iff (c : γ) :
    Accepts (fun c => (I.take m (.leaf c)).1) c ↔ Accepts (I.classify (I.store m)) c := by
  simp only [accepts_iff, ne_eq, take_leaf_eq_error_iff]

/-- What is inserted stands behind the others of its part, in order. -/
theorem foldl_insert_eq {cs : List γ} {items : List ι} (h : cs.mapM (I.classify s) = .ok items) :
    items.foldl I.insert s = I.appended s cs := by
  induction cs generalizing s items with
  | nil =>
    cases h
    exact (I.appended_nil s).symm
  | cons c cs ih =>
    rw [List.mapM_cons] at h
    obtain ⟨i, hc, h⟩ := exists_of_bind_eq_ok h
    obtain ⟨is, hcs, h⟩ := exists_of_bind_eq_ok h
    cases h
    rw [← I.classify_insert s i] at hcs
    rw [List.foldl_cons, ih hcs, I.insert_eq hc, I.appended_append]
    rfl

/-- Members that are taken one after another leave the store that they leave together. -/
theorem map_store_foldlM_take (cs : List γ) (m : μ) :
    Except.map I.store (cs.foldlM (fun m c => outcome (I.take m (.leaf c))) m) =
      I.insertAll (I.store m) cs := by
  induction cs generalizing m with
  | nil => rfl
  | cons c cs ih =>
    rw [List.foldlM_cons, take_leaf, outcome_attempt, insertAll_eq_map]
    cases hc : I.classify (I.store m) c with
    | error e =>
      rw [mapM_cons_of_error hc]
      rfl
    | ok i =>
      show Except.map I.store (cs.foldlM _ (I.update m (I.insert (I.store m) i))) = _
      -- the rest is checked against the store with the first, which makes no difference
      rw [ih, insertAll_eq_map, I.store_update, I.classify_insert, mapM_cons_of_ok hc]
      cases cs.mapM (I.classify (I.store m)) <;> rfl

/-- **A model stores a collection as a whole**, as it would its members one by one. -/
theorem allOrNothing (I : Intake μ σ γ ι) (m : μ) (t : Collection γ) :
    AllOrNothing I.take I.store I.appended (I.limit (I.store m)) m t where
  accepted := by
    rcases Nat.lt_or_ge (I.limit (I.store m)) t.depth with h | h
    · rw [take_of_lt_depth h]
      exact iff_of_false (by rintro ⟨⟩) fun hle => Nat.not_le_of_lt h hle.1
    · simp only [accepts_take_leaf_iff, ← exists_mapM_eq_ok_iff]
      rw [take_of_depth_le h, fst_attempt_eq_ok_iff, insertAll_eq_map, exists_map_eq_ok_iff]
      exact (and_iff_right h).symm
  contents := by
    intro m' h
    obtain ⟨s, hs, rfl⟩ := attempt_eq_ok_iff.mp h
    obtain ⟨cs, hflat, hs⟩ := exists_of_bind_eq_ok hs
    obtain ⟨items, hitems, hs⟩ := exists_of_bind_eq_ok hs
    cases hs
    rw [I.store_update, ← Collection.flatten_eq_leaves hflat]
    exact foldl_insert_eq hitems
  oneByOne := by
    intro h
    rw [map_store_foldlM_take, take_of_depth_le h, outcome_attempt]
    cases I.insertAll (I.store m) t.leaves with
    | error e => rfl
    | ok s => exact congrArg Except.ok (I.store_update m s).symm
  tooDeep h := congrArg Prod.fst (take_of_lt_depth h)
  refused := by
    intro h e
    rw [firstRefused_congr take_leaf_eq_error_iff, take_of_depth_le h, fst_attempt_eq_error_iff,
      insertAll_eq_map, map_eq_error_iff, mapM_eq_error_iff]
  kept _ h := snd_attempt_of_error h

end Intake

/-! ## Parts of a store -/

namespace Constraint

variable {α : Type} [Scalar α]

/-- The rows of a linear constraint. -/
def rows? : Constraint α → Option (LinearConstraint α)
  | linear c => some c
  | _ => none

/-- The bounds of a constraint that has nothing else. -/
def bounds? : Constraint α → Option (Bounds α)
  | bounds c => some c
  | _ => none

/-- A constraint on a piecewise-linear function. -/
def piecewise? : Constraint α → Option (ConvexConstraint PiecewiseKind α)
  | convex c =>
    match c.kind with
    | .piecewise k => some { c with kind := k }
    | _ => none
  | _ => none

/-- A constraint on a function that cones describe. -/
def conic? : Constraint α → Option (ConvexConstraint ConicKind α)
  | convex c =>
    match c.kind with
    | .conic k => some { c with kind := k }
    | _ => none
  | _ => none

/-- A direct membership in a second-order cone. -/
def cone? : Constraint α → Option ConeConstraint
  | cone c => some c
  | _ => none

end Constraint

variable {α : Type} [Scalar α]

namespace Store

/-- The store with the constraints of a list behind the others of their parts. -/
def appended (s : Store α) (cs : List (Constraint α)) : Store α :=
  { s with
    rows := s.rows ++ cs.filterMap Constraint.rows?
    bounds := s.bounds ++ cs.filterMap Constraint.bounds?
    piecewise := s.piecewise ++ cs.filterMap Constraint.piecewise? }

theorem appended_nil (s : Store α) : s.appended [] = s := by
  simp [appended]

theorem appended_append (s : Store α) (cs ds : List (Constraint α)) :
    (s.appended cs).appended ds = s.appended (cs ++ ds) := by
  simp [appended]

theorem classify_insert (s : Store α) (i : StoreItem α) : (s.insert i).classify = s.classify := by
  cases i <;> rfl

/-- What belongs to no part of a store leaves it as it is. -/
theorem appended_of_none (s : Store α) {c : Constraint α} (hrows : c.rows? = none)
    (hbounds : c.bounds? = none) (hpiecewise : c.piecewise? = none) : s.appended [c] = s := by
  simp [appended, hrows, hbounds, hpiecewise]

theorem insert_eq_appended {s : Store α} {c : Constraint α} {i : StoreItem α}
    (h : s.classify c = .ok i) : s.insert i = s.appended [c] := by
  cases c with
  | linear r =>
    simp only [classify] at h
    split at h
    · cases h
      simp [insert, appended, Constraint.rows?, Constraint.bounds?, Constraint.piecewise?]
    · cases h
  | bounds b =>
    simp only [classify] at h
    split at h
    · cases h
      simp [insert, appended, Constraint.rows?, Constraint.bounds?, Constraint.piecewise?]
    · cases h
  | convex v =>
    simp only [classify] at h
    split at h
    · split at h
      · next k hk =>
        cases h
        simp [insert, appended, Constraint.rows?, Constraint.bounds?, Constraint.piecewise?, hk]
      · cases h
    · cases h
  | cone k => cases h
  | expCone k => cases h

end Store

namespace ConeStore

/-- The store with the constraints of a list behind the others of their parts. -/
def appended (s : ConeStore α) (cs : List (Constraint α)) : ConeStore α where
  linear := s.linear.appended cs
  conic := s.conic ++ cs.filterMap Constraint.conic?
  cones := s.cones ++ cs.filterMap Constraint.cone?

theorem classify_insert (s : ConeStore α) (i : ConeItem α) :
    (s.insert i).classify = s.classify := by
  cases i with
  | store i =>
    funext c
    cases i <;> cases c <;> rfl
  | conic c => rfl
  | cone c => rfl

theorem insert_eq_appended {s : ConeStore α} {c : Constraint α} {i : ConeItem α}
    (h : s.classify c = .ok i) : s.insert i = s.appended [c] := by
  have hstore : (do return ConeItem.store (← s.linear.classify c)) = .ok i →
      c.conic? = none → c.cone? = none → s.insert i = s.appended [c] := by
    intro h hconic hcone
    obtain ⟨j, hj, h⟩ := exists_of_bind_eq_ok h
    cases h
    simp [insert, appended, Store.insert_eq_appended hj, hconic, hcone]
  cases c with
  | convex v =>
    simp only [classify] at h
    split at h
    · split at h
      · next k hk =>
        cases h
        have hlinear : s.linear.appended [.convex v] = s.linear :=
          s.linear.appended_of_none rfl rfl (by simp [Constraint.piecewise?, hk])
        simp [insert, appended, Constraint.conic?, Constraint.cone?, hk, hlinear]
      · next k hk =>
        have hj : s.linear.classify (.convex v) = .ok (.piecewise { v with kind := k }) := by
          simp [Store.classify, *]
        cases h
        simp [insert, appended, Store.insert_eq_appended hj, Constraint.conic?, Constraint.cone?,
          hk]
      · cases h
    · cases h
  | cone k =>
    simp only [classify] at h
    split at h
    · cases h
      have hlinear : s.linear.appended [.cone k] = s.linear :=
        s.linear.appended_of_none rfl rfl rfl
      simp [insert, appended, Constraint.conic?, Constraint.cone?, hlinear]
    · cases h
  | linear r => exact hstore h rfl rfl
  | bounds b => exact hstore h rfl rfl
  | expCone k => exact hstore h rfl rfl

end ConeStore

/-! ## Models -/

/-- How a linear model takes constraints. -/
def LinearModel.intake : Intake (LinearModel α) (Store α) (Constraint α) (StoreItem α) where
  store := LinearModel.store
  update := LinearModel.update
  limit s := s.settings.maxNesting
  classify := Store.classify
  insert := Store.insert
  appended := Store.appended
  store_update _ _ := rfl
  classify_insert := Store.classify_insert
  insert_eq := Store.insert_eq_appended
  appended_nil := Store.appended_nil
  appended_append := Store.appended_append

/-- How a cone model takes constraints. -/
def ConeModel.intake : Intake (ConeModel α) (ConeStore α) (Constraint α) (ConeItem α) where
  store := ConeModel.store
  update := ConeModel.update
  limit s := s.linear.settings.maxNesting
  classify := ConeStore.classify
  insert := ConeStore.insert
  appended := ConeStore.appended
  store_update _ _ := rfl
  classify_insert := ConeStore.classify_insert
  insert_eq := ConeStore.insert_eq_appended
  appended_nil := by simp [ConeStore.appended, Store.appended_nil]
  appended_append := by simp [ConeStore.appended, Store.appended_append]

/-- **Models store a collection as a whole or not at all**, whatever has been called before. -/
theorem subjectTo_allOrNothing :
    (∀ (m : ConeModel α) (t : Collection (Constraint α)),
      AllOrNothing ConeModel.subjectTo ConeModel.store ConeStore.appended
        m.store.linear.settings.maxNesting m t) ∧
    ∀ (m : LinearModel α) (t : Collection (Constraint α)),
      AllOrNothing LinearModel.subjectTo LinearModel.store Store.appended
        m.store.settings.maxNesting m t :=
  ⟨ConeModel.intake.allOrNothing, LinearModel.intake.allOrNothing⟩

end ConicForm
