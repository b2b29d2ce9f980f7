import ConicForm.Proofs.Canonical.Embedding
import ConicForm.Proofs.Canonical.Exactness
import ConicForm.Proofs.Model.Session

/-!
# Adding constraints

Constraints that a model takes stand behind those that it has, so that what satisfies the new
store satisfies the rows, cones and convex constraints of the old one. Bounds are different: they
are set in order, and a new bound for a side of a column replaces the one in force before. A
feasible point of the new program is one of the old program exactly if it meets the bounds that
were replaced.

## Main definitions

* `Store.boundAt`: the bound in force on a side of a column
* `Constraint.Bounding`: whether constraints bound a side of a column
* `ConeProgram.Extends`: whether an assignment extends to a feasible point
* `AnyModel.program`: the canonical program that a model answers

## Main results

* `ConeStore.Satisfied.of_appended_iff`: what satisfies the store with more constraints
* `AnyModel.Reachable.exists_program`: the canonical program of a model of either sort is exact
* `Session.extends_subjectTo`: the feasible points before and after constraints are added
-/

namespace ConicForm

/-! ## Bounds in force -/

section

variable {α : Type} [Scalar α]

/-- Whether some bounds among constraints are on a side of a column. -/
def Constraint.Bounding (cs : List (Constraint α)) (side : Side) (j : Nat) : Prop :=
  ∃ b, .bounds b ∈ cs ∧ b.side = side ∧ ∃ q ∈ b.items, q.1 = j

theorem Constraint.mem_filterMap_bounds {cs : List (Constraint α)} {b : Bounds α} :
    b ∈ cs.filterMap bounds? ↔ .bounds b ∈ cs := by
  rw [List.mem_filterMap]
  constructor
  · rintro ⟨c, hc, h⟩
    cases c with
    | bounds b' => exact Option.some.inj h ▸ hc
    | linear _ | convex _ | cone _ | expCone _ => cases h
  · intro h
    exact ⟨_, h, rfl⟩

namespace Store

variable {s : Store α} {cs : List (Constraint α)} {side : Side} {j : Nat}

/-- The bound in force on a side of a column: the last one stored, or that of its type. -/
def boundAt (s : Store α) (side : Side) (j : Nat) : Bound α :=
  boundOf side s.bounds ((Block.types s.blocks).getD j .continuous) j

/-- A bound stays in force unless there is a new one on the same side of the column. -/
theorem boundAt_appended (h : ¬Constraint.Bounding cs side j) :
    (s.appended cs).boundAt side j = s.boundAt side j := by
  have hnone : lastBound side (cs.filterMap Constraint.bounds?) j = none := by
    refine lastBound_eq_none_iff.mpr fun b hb hside q hq hj => h ?_
    exact ⟨b, Constraint.mem_filterMap_bounds.mp hb, hside, q, hq, hj⟩
  show boundOf side (s.bounds ++ _) _ j = _
  rw [boundOf, lastBound_append, hnone, Option.none_or]
  rfl

/-- A linear model takes no cones and no constraints that cones describe. -/
theorem none_of_classify {c : Constraint α} {i : StoreItem α}
    (h : s.classify c = .ok i) : c.conic? = none ∧ c.cone? = none := by
  cases c with
  | linear r => exact ⟨rfl, rfl⟩
  | bounds b => exact ⟨rfl, rfl⟩
  | convex v =>
    simp only [classify] at h
    split at h
    · split at h
      · next k hk => exact ⟨by simp [Constraint.conic?, hk], rfl⟩
      · cases h
    · cases h
  | cone k => cases h
  | expCone k => cases h

end Store

end

variable {K : Type} [Field K] [LinearOrder K]

namespace Store

variable {s : Store K} {cs : List (Constraint K)} {x : Nat → K}

theorem boundsHold_iff (hlaid : Block.Laid 0 s.blocks) :
    s.BoundsHold x ↔
      ∀ side : Side, ∀ j < s.columnCount, side.Bounds (s.boundAt side j) (x j) := by
  have hcolumns := Block.forall_types_iff hlaid
    (Q := fun j t => (boundOf .upper s.bounds t j).IsUpper (x j) ∧
      (boundOf .lower s.bounds t j).IsLower (x j))
  rw [BoundsHold, ← hcolumns]
  simp only [Nat.zero_add]
  constructor
  · intro h side j hj
    cases side with
    | upper => exact (h j hj).1
    | lower => exact (h j hj).2
  · intro h j hj
    exact ⟨h .upper j hj, h .lower j hj⟩

/-- Where the bounds with those of more constraints hold, the bounds before do exactly if those
that were replaced do. -/
theorem BoundsHold.of_appended_iff (hlaid : Block.Laid 0 s.blocks)
    (h : (s.appended cs).BoundsHold x) :
    s.BoundsHold x ↔ ∀ side, ∀ j < s.columnCount, Constraint.Bounding cs side j →
      side.Bounds (s.boundAt side j) (x j) := by
  have hafter := (boundsHold_iff (s := s.appended cs) hlaid).mp h
  rw [boundsHold_iff hlaid]
  constructor
  · intro hbefore side j hj _
    exact hbefore side j hj
  · intro hreplaced side j hj
    by_cases hb : Constraint.Bounding cs side j
    · exact hreplaced side j hj hb
    · rw [← boundAt_appended hb]
      exact hafter side j hj

end Store

namespace ConeStore

variable {s : ConeStore K} {cs : List (Constraint K)} {x : Nat → K}

/-- **What satisfies the store with more constraints** satisfies the store exactly if it meets the
bounds that were replaced. -/
theorem Satisfied.of_appended_iff (hlaid : Block.Laid 0 s.linear.blocks)
    (h : (s.appended cs).Satisfied x) :
    s.Satisfied x ↔ ∀ side, ∀ j < s.linear.columnCount, Constraint.Bounding cs side j →
      side.Bounds (s.linear.boundAt side j) (x j) := by
  rw [← Store.BoundsHold.of_appended_iff hlaid h.bounds]
  refine ⟨fun hs => hs.bounds, fun hbounds => ?_⟩
  exact {
    conic := fun c hc => h.conic c (List.mem_append_left _ hc)
    piecewise := fun c hc => h.piecewise c (List.mem_append_left _ hc)
    objective := h.objective
    rows := fun c hc => h.rows c (List.mem_append_left _ hc)
    bounds := hbounds
    cones := fun c hc => h.cones c (List.mem_append_left _ hc) }

end ConeStore

/-! ## Programs of models of either sort -/

/-- Whether an assignment of the first `n` columns extends to a feasible point. -/
def ConeProgram.Extends (p : ConeProgram K) (n : Nat) (v : Nat → K) : Prop :=
  ∃ x, (∀ j < n, x j = v j) ∧ p.Feasible x

namespace AnyModel

section

variable {α : Type} [Scalar α] {m m' : AnyModel α}

/-- The store of a model as that of a cone model. -/
def coneStore : AnyModel α → ConeStore α
  | linear m => m.store.toCone
  | cone m => m.store

/-- The canonical program that a model answers. A linear program has no records. -/
def program : AnyModel α → Except Error (ConeProgram α)
  | linear m => m.primal.1.map fun p => ⟨p.value, []⟩
  | cone m => m.primal.1.map Handle.value

@[simp] theorem linear_coneStore (m : AnyModel α) : m.coneStore.linear = m.store := by
  cases m <;> rfl

theorem Reachable.valid_coneStore (hm : m.Reachable) : m.coneStore.Valid := by
  cases m with
  | linear m => exact (LinearModel.Reachable.valid hm).store.toCone
  | cone m => exact (ConeModel.Reachable.valid hm).store

/-- A model answers the canonical program of its store. -/
theorem Reachable.program_eq (hm : m.Reachable) : m.program = m.coneStore.coneProgram := by
  cases m with
  | linear m =>
    have hvalid := LinearModel.Reachable.valid hm
    show m.primal.1.map _ = m.store.toCone.coneProgram
    rw [Store.coneProgram_toCone hvalid.store.coneless, ← hvalid.primal_spec.1]
    cases m.primal.1 <;> rfl
  | cone m => exact (ConeModel.Reachable.valid hm).primal_spec.1

/-- Constraints that a model takes stand behind those that it has. -/
theorem coneStore_of_subjectTo {t : Collection (Constraint α)} (h : m.subjectTo t = (.ok (), m')) :
    m'.coneStore = m.coneStore.appended t.leaves := by
  cases m with
  | linear m =>
    obtain ⟨k, hk, rfl⟩ := exists_of_map_id_eq h
    have hstore : k.store = m.store.appended t.leaves :=
      (LinearModel.intake.allOrNothing m t).contents k hk
    have hnone : ∀ c ∈ t.leaves, c.conic? = none ∧ c.cone? = none := by
      intro c hc
      obtain ⟨i, hi⟩ := LinearModel.intake.accepts_of_take (congrArg Prod.fst hk) c hc
      exact Store.none_of_classify hi
    have hconic : t.leaves.filterMap Constraint.conic? = [] :=
      List.filterMap_eq_nil_iff.mpr fun c hc => (hnone c hc).1
    have hcones : t.leaves.filterMap Constraint.cone? = [] :=
      List.filterMap_eq_nil_iff.mpr fun c hc => (hnone c hc).2
    show k.store.toCone = m.store.toCone.appended t.leaves
    rw [hstore, ConeStore.appended, hconic, hcones]
    rfl
  | cone m =>
    obtain ⟨k, hk, rfl⟩ := exists_of_map_id_eq h
    exact (ConeModel.intake.allOrNothing m t).contents k hk

/-- A single constraint is inserted into the part of the store that takes it. -/
theorem subjectTo_linear_leaf {m : LinearModel α} {c : Constraint α} {i : StoreItem α}
    (h : m.store.classify c = .ok i) :
    (linear m).subjectTo (.leaf c) = (.ok (), linear (m.update (m.store.insert i))) := by
  have htake : m.subjectTo (.leaf c) = (.ok (), m.update (m.store.insert i)) :=
    (LinearModel.intake.take_leaf m c).trans (attempt_eq_ok_iff.mpr ⟨i, h, rfl⟩)
  rw [subjectTo, htake]
  rfl

end

variable [IsStrictOrderedRing K] {m : AnyModel K}

/-- **The canonical program of a model is exact**, of either sort. -/
theorem Reachable.exists_program (hm : m.Reachable) :
    ∃ p, m.program = .ok p ∧
      ∀ v, p.Extends m.store.columnCount v ↔ m.coneStore.Satisfied v := by
  have hvalid := hm.valid_coneStore
  obtain ⟨e, he, hprogram⟩ := hvalid.exists_coneProgram
  refine ⟨_, hm.program_eq.trans hprogram, fun v => ?_⟩
  rw [← hvalid.exists_feasible_iff he v, linear_coneStore]
  rfl

end AnyModel

/-! ## Adding constraints to a model -/

variable [IsStrictOrderedRing K]

/-- **Adding constraints shrinks the feasible set, up to the bounds that they replace.** What
extends to a feasible point of the program after constraints were added extends to one of the
program before exactly if it meets the bounds that were in force on the sides of columns that the
constraints bound; always if these follow from the bounds that replaced them. -/
theorem Session.extends_subjectTo {ms : List (AnyModel K)} (h : Session ms) {m m' : AnyModel K}
    (hm : m ∈ ms) {t : Collection (Constraint K)}
    (ht : ∀ c ∈ t.leaves, c.Built (ms.flatMap fun k => k.store.blocks))
    (ha : m.subjectTo t = (.ok (), m')) :
    ∃ p p', m.program = .ok p ∧ m'.program = .ok p' ∧
      (∀ v, p'.Extends m.store.columnCount v →
        (p.Extends m.store.columnCount v ↔
          ∀ side, ∀ j < m.store.columnCount, Constraint.Bounding t.leaves side j →
            side.Bounds (m.store.boundAt side j) (v j))) ∧
      ((∀ side, ∀ j < m.store.columnCount, Constraint.Bounding t.leaves side j →
          ∀ a, side.Bounds (m'.store.boundAt side j) a → side.Bounds (m.store.boundAt side j) a) →
        ∀ v, p'.Extends m.store.columnCount v → p.Extends m.store.columnCount v) := by
  have hreachable := h.reachable m hm
  have hreachable' : m'.Reachable :=
    AnyModel.after_subjectTo ha ▸ hreachable.after (h.mem_blocks_of_owner hm) ht
  obtain ⟨p, hp, hiff⟩ := hreachable.exists_program
  obtain ⟨p', hp', hiff'⟩ := hreachable'.exists_program
  have hstore : m'.store = m.store.appended t.leaves := by
    rw [← AnyModel.linear_coneStore, AnyModel.coneStore_of_subjectTo ha]
    exact congrArg (Store.appended · t.leaves) (AnyModel.linear_coneStore m)
  have hcount : m'.store.columnCount = m.store.columnCount := by
    rw [hstore]
    rfl
  rw [hcount] at hiff'
  have hreplaced : ∀ v, p'.Extends m.store.columnCount v →
      (p.Extends m.store.columnCount v ↔
        ∀ side, ∀ j < m.store.columnCount, Constraint.Bounding t.leaves side j →
          side.Bounds (m.store.boundAt side j) (v j)) := by
    intro v hv
    have hsat := (hiff' v).mp hv
    rw [AnyModel.coneStore_of_subjectTo ha] at hsat
    rw [hiff v, hsat.of_appended_iff hreachable.valid_coneStore.linear.laid,
      AnyModel.linear_coneStore]
  refine ⟨p, p', hp, hp', hreplaced, fun hfollow v hv => (hreplaced v hv).mpr ?_⟩
  have hbounds := (Store.boundsHold_iff hreachable'.valid_coneStore.linear.laid).mp
    ((hiff' v).mp hv).bounds
  rw [AnyModel.linear_coneStore, hcount] at hbounds
  intro side j hj hb
  exact hfollow side j hj hb _ (hbounds side j hj)

/-- The block of a column behind the objective column. -/
def dial : Block := ⟨⟨0⟩, 1, .scalar, .continuous, none⟩

/-- An upper bound of the column. -/
def dialUpper (x : ℚ) : Bounds ℚ := .uniform dial .upper (.value x)

/-- A linear model with the column. -/
def dialled : LinearModel ℚ :=
  (LinearModel.empty ⟨0⟩ {} none).after (.declare .scalar .continuous none)

/-- The model with five as a bound. -/
def limited : LinearModel ℚ := dialled.update (dialled.store.insert (.bounds (dialUpper 5)))

/-- The model with ten as a later bound. -/
def raised : LinearModel ℚ := limited.update (limited.store.insert (.bounds (dialUpper 10)))

theorem built_dialUpper {blocks : List Block} (h : dial ∈ blocks) (x : ℚ) :
    ∀ c ∈ (Collection.leaf (Constraint.bounds (dialUpper x))).leaves, c.Built blocks := by
  have hupper : dial.upper [.value x] = .ok (dialUpper x) := rfl
  exact Call.Built.leaf (.upper h hupper)

theorem session_limited : Session [.linear limited] := by
  have hempty : Session [.linear (.empty ⟨0⟩ {} none : LinearModel ℚ)] :=
    .create .nil (.linear ..) (by simp)
  have hdeclared := @Session.call ℚ _ [] _ [] (.declare .scalar .continuous none) hempty trivial
  have hbounded := @Session.call ℚ _ [] _ [] (.subjectTo (.leaf (.bounds (dialUpper 5)))) hdeclared
    (built_dialUpper (by decide) 5)
  have hafter : (AnyModel.linear dialled).after (.subjectTo (.leaf (.bounds (dialUpper 5)))) =
      .linear limited := AnyModel.after_subjectTo (AnyModel.subjectTo_linear_leaf rfl)
  exact hafter ▸ hbounded

theorem subjectTo_limited :
    (AnyModel.linear limited).subjectTo (.leaf (.bounds (dialUpper 10))) =
      (.ok (), .linear raised) :=
  AnyModel.subjectTo_linear_leaf rfl

/-- The later bound is all that there is to meet. -/
theorem exists_program_raised :
    ∃ p', (AnyModel.linear raised).program = .ok p' ∧
      ∀ v, raised.store.BoundsHold v → p'.Extends 2 v := by
  have hm : AnyModel.linear limited ∈ [AnyModel.linear limited] := List.mem_singleton_self _
  have hafter := (session_limited.reachable _ hm).after (session_limited.mem_blocks_of_owner hm)
    (c := .subjectTo (.leaf (.bounds (dialUpper 10)))) (built_dialUpper (by decide) 10)
  rw [AnyModel.after_subjectTo subjectTo_limited] at hafter
  obtain ⟨p', hp', hiff⟩ := hafter.exists_program
  refine ⟨p', hp', fun v hv => (hiff v).mpr ?_⟩
  exact {
    conic := by rintro c ⟨⟩
    piecewise := by rintro c ⟨⟩
    objective := by rintro c ⟨⟩
    rows := by rintro c ⟨⟩
    bounds := hv
    cones := by rintro c ⟨⟩ }

theorem extends_subjectTo_limited : Session [.linear limited] ∧
    AnyModel.linear limited ∈ [AnyModel.linear limited] ∧
    (AnyModel.linear limited).subjectTo (.leaf (.bounds (dialUpper 10))) =
      (.ok (), .linear raised) ∧
    ∃ p p', (AnyModel.linear limited).program = .ok p ∧ (AnyModel.linear raised).program = .ok p' ∧
      p'.Extends 2 ([0, 3].getD · 0) ∧ p.Extends 2 ([0, 3].getD · 0) := by
  have hm : AnyModel.linear limited ∈ [AnyModel.linear limited] := List.mem_singleton_self _
  obtain ⟨p, p', hp, hp', hiff, -⟩ := session_limited.extends_subjectTo hm
    (built_dialUpper (by decide) 10) subjectTo_limited
  obtain ⟨q, hq, hextends⟩ := exists_program_raised
  obtain rfl := Except.ok.inj (hp'.symm.trans hq)
  have hv : p'.Extends 2 ([0, 3].getD · 0) := by
    refine hextends _ ?_
    unfold Store.BoundsHold
    decide +kernel
  refine ⟨session_limited, hm, subjectTo_limited, p, p', hp, hp', hv, (hiff _ hv).mpr ?_⟩
  rintro side j hj ⟨b, hb, rfl, q, hq, rfl⟩
  rw [Collection.leaves_leaf, List.mem_singleton] at hb
  cases hb
  obtain rfl := List.mem_singleton.mp hq
  show (3 : ℚ) ≤ 5
  decide

/-- **A new bound may let points in**: a column at most five with ten as a later bound. -/
theorem exists_extends_subjectTo_not_extends :
    ∃ (ms : List (AnyModel ℚ)) (m m' : AnyModel ℚ) (t : Collection (Constraint ℚ)) (v : Nat → ℚ)
      (p p' : ConeProgram ℚ), Session ms ∧ m ∈ ms ∧
      (∀ c ∈ t.leaves, c.Built (ms.flatMap fun k => k.store.blocks)) ∧
      m.subjectTo t = (.ok (), m') ∧
      m.program = .ok p ∧ m'.program = .ok p' ∧ p'.Extends m.store.columnCount v ∧
      ¬p.Extends m.store.columnCount v := by
  have hm : AnyModel.linear limited ∈ [AnyModel.linear limited] := List.mem_singleton_self _
  obtain ⟨p, hp, hiff⟩ := (session_limited.reachable _ hm).exists_program
  obtain ⟨p', hp', hextends⟩ := exists_program_raised
  refine ⟨_, _, _, _, ([0, 7].getD · 0), p, p', session_limited, hm,
    built_dialUpper (by decide) 10, subjectTo_limited, hp, hp', hextends _ ?_, fun h => ?_⟩
  · unfold Store.BoundsHold
    decide +kernel
  · have hbounds : ¬limited.store.BoundsHold ([0, 7].getD · 0) := by
      unfold Store.BoundsHold
      decide +kernel
    exact hbounds ((hiff _).mp h).bounds

end ConicForm
