import ConicForm.Proofs.Canonical.Exactness
import ConicForm.Proofs.Canonical.Widening
import ConicForm.Proofs.Model.Reachable

/-!
# The base of a cone model

The store of linear constraints of a cone model is that of a linear model, its base. A linear model
has no place for an objective that cones describe, and refuses to build a program with one. With any
other objective, the canonical program of the base is that of the cone model without the rows and
columns that its conic constraints contribute.

## Main results

* `ConeModel.Reachable.base_primal`: the canonical program of the base of a reachable model
* `ConeModel.base_primal_boundedNorm`: a base without a canonical program
-/

namespace ConicForm

variable {α : Type} [Scalar α]

/-- Objectives on the function `k`, which cones describe. -/
def Objective.On (k : ConicKind) : Objective α → Prop
  | affine _ => False
  | convex c => c.kind = .conic k

theorem Objective.coneless_or_exists_on (e : Objective α) : e.Coneless ∨ ∃ k, e.On k := by
  cases e with
  | affine a => exact .inl trivial
  | convex c =>
    by_cases h : ∃ k, c.kind = .conic k
    · exact .inr h
    · exact .inl fun k hk => h ⟨k, hk⟩

namespace Store.Valid

variable {handles : ConvexKind → Bool} {s : Store α}

/-- A linear program has no place for an objective that cones describe. -/
theorem linearProgram_eq_error (hs : s.Valid handles) {p : Objective α × Goal}
    (hp : s.objective = some p) {k : ConicKind} (hk : p.1.On k) :
    s.linearProgram = .error (.inconsistent (.notPiecewiseLinear k)) := by
  obtain ⟨a | c, goal⟩ := p
  · exact hk.elim
  · obtain ⟨d, hd, rfl⟩ := hs.exists_epigraph_conic hp hk
    unfold linearProgram linearPieces
    rw [hd]
    rfl

end Store.Valid

namespace ConeStore.Valid

variable {s : ConeStore α}

/-- Without an objective that cones describe, the linear program of a store is its canonical cone
program without what cones contribute. -/
theorem exists_linearProgram (hs : s.Valid) (hobjective : ∀ p ∈ s.linear.objective, p.1.Coneless) :
    ∃ L : s.Layout, s.linear.linearProgram =
      .ok ((s.assembled L.expansion).linear.cut L.rows L.columns) := by
  obtain ⟨o, ho, -⟩ := hs.linear.exists_epigraph_scoped rfl
  have hne := Store.not_conic_of_epigraph hobjective ho
  obtain ⟨L, hplain⟩ := hs.exists_layout (pieces_eq_ok ho hne) fun p hp c hc =>
    hne c (Option.mem_toList.mp (hc ▸ hp))
  obtain ⟨behind, hbehind, hwidens, hscoped, hbehinds⟩ := L.exists_behind hs
  have hlinear := Store.linearPieces_eq_ok ho hne
  rw [← hplain] at hlinear
  refine ⟨L, (hs.linear.linearProgram_eq_ok hlinear (expandAll_append L.before_eq hbehind)
    ((L.scoped_before hs).append hscoped)).trans ?_⟩
  exact congrArg Except.ok (L.cut_assembled hs hwidens hscoped hbehinds).symm

end ConeStore.Valid

namespace ConeModel

variable {m : ConeModel α}

/-- The base answers the linear program of the store. -/
theorem primal_base (m : ConeModel α) :
    m.base.primal.1.map Handle.value = m.store.linear.linearProgram := by
  have hcurrent : m.base.Current := ⟨Cache.holds_empty _, Cache.holds_empty _⟩
  exact hcurrent.primal_spec.1

/-- **The canonical program of the base of a cone model.** With an objective that cones describe
there is none, and the error names the function. With any other objective, or none, there is one: it
is the canonical program of the model without the rows and columns that its conic constraints
contribute. -/
theorem Reachable.base_primal (hm : m.Reachable) :
    (∀ k, m.base.primal.1 = .error (.inconsistent (.notPiecewiseLinear k)) ↔
      ∃ p ∈ m.store.linear.objective, p.1.On k) ∧
    ((∀ p ∈ m.store.linear.objective, ∀ k, ¬p.1.On k) →
      ∃ (L : m.store.Layout) (p : Handle (ConeProgram α)) (q : Handle (LinearProgram α)),
        m.primal.1 = .ok p ∧ m.base.primal.1 = .ok q ∧
          q.value = p.value.linear.cut L.rows L.columns) := by
  have hvalid := hm.valid
  have hconeless (h : ∀ p ∈ m.store.linear.objective, ∀ k, ¬p.1.On k) :
      ∀ p ∈ m.store.linear.objective, p.1.Coneless := by
    intro p hp
    rcases p.1.coneless_or_exists_on with hp' | ⟨k, hk⟩
    · exact hp'
    · exact absurd hk (h p hp k)
  constructor
  · intro k
    rw [← map_eq_error_iff Handle.value, m.primal_base]
    constructor
    · intro herror
      by_contra hnone
      obtain ⟨p, hp, k', hk'⟩ : ∃ p ∈ m.store.linear.objective, ∃ k', p.1.On k' := by
        by_contra hall
        push Not at hall
        obtain ⟨L, hL⟩ := hvalid.store.exists_linearProgram (hconeless hall)
        cases hL.symm.trans herror
      cases (hvalid.store.linear.linearProgram_eq_error hp hk').symm.trans herror
      exact hnone ⟨p, hp, hk'⟩
    · rintro ⟨p, hp, hk⟩
      exact hvalid.store.linear.linearProgram_eq_error hp hk
  · intro h
    obtain ⟨L, hL⟩ := hvalid.store.exists_linearProgram (hconeless h)
    obtain ⟨p, hp, hpv⟩ := Handle.exists_of_map_eq_ok
      (hvalid.primal_spec.1.trans (L.coneProgram_eq_ok hvalid.store))
    obtain ⟨q, hq, hqv⟩ := Handle.exists_of_map_eq_ok (m.primal_base.trans hL)
    refine ⟨L, p, q, hp, hq, ?_⟩
    rw [hpv, hqv]

/-- Maximize the sum of two columns under two further constraints. -/
def rounded (v w : ConvexConstraint ConvexKind ℚ) : ConeModel ℚ :=
  (((empty ⟨0⟩ {} none).after (.declare (.vector 2) .continuous none)).after
    (.setObjective (.affine (Affine.ofBlock pair).sum) .maximize)).after
    (.subjectTo (.group [.leaf (.convex v), .leaf (.convex w)]))

theorem store_rounded {v w : ConvexConstraint ConvexKind ℚ}
    (hv : v.owner = some ⟨0⟩ ∧ v.kind = .conic .norm2)
    (hw : w.owner = some ⟨0⟩ ∧ w.kind = .piecewise .norm1) : (rounded v w).store =
      ⟨⟨⟨0⟩, none, {}, [pair], [], [], [⟨some ⟨0⟩, w.input, w.output, .norm1⟩],
        some (.affine (Affine.ofBlock pair).sum, .maximize)⟩,
        [⟨some ⟨0⟩, v.input, v.output, .norm2⟩], []⟩ := by
  obtain ⟨owner, input, output, kind⟩ := v
  obtain ⟨rfl, rfl⟩ : owner = some ⟨0⟩ ∧ kind = .conic .norm2 := hv
  obtain ⟨owner, input, output, kind⟩ := w
  obtain ⟨rfl, rfl⟩ : owner = some ⟨0⟩ ∧ kind = .piecewise .norm1 := hw
  unfold rounded
  simp only [after, subjectTo, Collection.flatten, Collection.walk, Collection.within,
    List.map_cons, List.map_nil, List.cons_append, List.nil_append]
  rfl

theorem reachable_rounded {v w : ConvexConstraint ConvexKind ℚ}
    (hv : (ConvexExpression.apply (.conic .norm2) (.ofBlock pair)).le (.number 5) = .ok v)
    (hw : (ConvexExpression.apply (.piecewise .norm1) (.ofBlock pair)).le (.number 6) = .ok w) :
    (rounded v w).Reachable := by
  have hpair : pair ∈ [Store.objectiveBlock (.empty ⟨0⟩ {} none : Store ℚ), pair] := by simp
  refine .after (.after (.after (.empty ..) trivial) (.affine (.sum (.block hpair)))) ?_
  show ∀ c ∈ Collection.leaves _, Constraint.Built _ c
  simp only [Collection.leaves_group, Collection.leaves_leaf, List.flatMap_cons, List.flatMap_nil,
    List.cons_append, List.nil_append, List.forall_mem_cons]
  exact ⟨.convexLe (.apply _ (.block hpair)) (.number 5) hv,
    .convexLe (.apply _ (.block hpair)) (.number 6) hw, by simp⟩

theorem exists_rounded : ∃ v w, (rounded v w).Reachable ∧
    (rounded v w).store.linear.objective = some (.affine (Affine.ofBlock pair).sum, .maximize) ∧
    (rounded v w).store.linear.declared = [pair] ∧ (rounded v w).store.cones = [] ∧
    ∃ p q l d, (rounded v w).store.coneProgram = .ok p ∧
      (rounded v w).store.linear.linearProgram = .ok q ∧
      p.linear.dualize = .ok l ∧ p.deriveDual l = .ok d ∧
      p.linear.linear.nrows = 9 ∧ q.linear.nrows = 6 ∧
      p.records = [[5, 3, 4]] ∧ d.records = [[3, 1, 2]] := by
  have hcheck : (do
      let v ← (ConvexExpression.apply (.conic .norm2) (.ofBlock pair)).le (.number (5 : ℚ))
      let w ← (ConvexExpression.apply (.piecewise .norm1) (.ofBlock pair)).le (.number (6 : ℚ))
      let s : ConeStore ℚ := ⟨⟨⟨0⟩, none, {}, [pair], [], [],
        [⟨some ⟨0⟩, w.input, w.output, .norm1⟩],
        some (.affine (Affine.ofBlock pair).sum, .maximize)⟩,
        [⟨some ⟨0⟩, v.input, v.output, .norm2⟩], []⟩
      let p ← s.coneProgram
      let q ← s.linear.linearProgram
      let l ← p.linear.dualize
      let d ← p.deriveDual l
      return decide ((v.owner = some ⟨0⟩ ∧ v.kind = .conic .norm2) ∧
        (w.owner = some ⟨0⟩ ∧ w.kind = .piecewise .norm1) ∧
        p.linear.linear.nrows = 9 ∧ q.linear.nrows = 6 ∧
        p.records = [[5, 3, 4]] ∧ d.records = [[3, 1, 2]])) = Except.ok true := by
    decide +kernel
  obtain ⟨v, hv, h⟩ := exists_of_bind_eq_ok hcheck
  obtain ⟨w, hw, h⟩ := exists_of_bind_eq_ok h
  obtain ⟨p, hp, h⟩ := exists_of_bind_eq_ok h
  obtain ⟨q, hq, h⟩ := exists_of_bind_eq_ok h
  obtain ⟨l, hl, h⟩ := exists_of_bind_eq_ok h
  obtain ⟨d, hd, h⟩ := exists_of_bind_eq_ok h
  obtain ⟨hkind, hkind', hfacts⟩ := of_decide_eq_true (Except.ok.inj h)
  have hstore := store_rounded hkind hkind'
  refine ⟨v, w, reachable_rounded hv hw, ?_, ?_, ?_, p, q, l, d, ?_, ?_, hl, hd, hfacts⟩
  all_goals rw [hstore]
  · exact hp
  · exact hq

/-- The three rows that bound a norm by cones are missing from the program of the base. -/
theorem base_primal_rounded : ∃ v w, (rounded v w).Reachable ∧
    (∀ p ∈ (rounded v w).store.linear.objective, ∀ k, ¬p.1.On k) ∧
    ∃ (L : (rounded v w).store.Layout) (p : Handle (ConeProgram ℚ)) (q : Handle (LinearProgram ℚ)),
      (rounded v w).primal.1 = .ok p ∧ (rounded v w).base.primal.1 = .ok q ∧
        q.value = p.value.linear.cut L.rows L.columns ∧
        p.value.linear.linear.nrows = 9 ∧ q.value.linear.nrows = 6 := by
  obtain ⟨v, w, hm, hobjective, -, -, p, q, l, d, hp, hq, -, -, hp9, hq6, -⟩ := exists_rounded
  have hplain : ∀ p ∈ (rounded v w).store.linear.objective, ∀ k, ¬p.1.On k := by
    rw [hobjective]
    rintro _ ⟨⟩ k hk
    exact hk
  obtain ⟨L, p₁, q₁, hp₁, hq₁, hcut⟩ := hm.base_primal.2 hplain
  obtain ⟨p₂, hp₂, rfl⟩ := Handle.exists_of_map_eq_ok (hm.valid.primal_spec.1.trans hp)
  obtain ⟨q₂, hq₂, rfl⟩ := Handle.exists_of_map_eq_ok ((primal_base _).trans hq)
  obtain rfl := Except.ok.inj (hp₂.symm.trans hp₁)
  obtain rfl := Except.ok.inj (hq₂.symm.trans hq₁)
  exact ⟨v, w, hm, hplain, L, _, _, hp₁, hq₁, hcut, hp9, hq6⟩

/-- A reachable model with a canonical program, whose base has none. -/
theorem base_primal_boundedNorm : boundedNorm.Reachable ∧ (∃ p, boundedNorm.primal.1 = .ok p) ∧
    boundedNorm.base.primal.1 = .error (.inconsistent (.notPiecewiseLinear .sumSquares)) := by
  have hm := reachable_boundedNorm
  obtain ⟨L⟩ := hm.valid.store.nonempty_layout
  obtain ⟨p, hp, -⟩ := Handle.exists_of_map_eq_ok
    (hm.valid.primal_spec.1.trans (L.coneProgram_eq_ok hm.valid.store))
  refine ⟨hm, ⟨p, hp⟩, ?_⟩
  rw [← map_eq_error_iff Handle.value, primal_base]
  have hobjective : boundedNorm.store.linear.objective =
      some (.convex (.apply (.conic .sumSquares) (.ofBlock pair)), .minimize) := by
    rw [store_boundedNorm]
  exact hm.valid.store.linear.linearProgram_eq_error hobjective rfl

end ConeModel

end ConicForm
