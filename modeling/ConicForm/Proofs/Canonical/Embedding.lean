import ConicForm.Proofs.Canonical.Existence
import ConicForm.Proofs.Convex.Comparison

/-!
# Linear models as cone models

The store of a linear model is that of a cone model without conic constraints. Its pieces are the
same, none of them is conic, and only conic pieces have records: the canonical cone program of the
store is its canonical linear program, without records.

## Main definitions

* `Store.toCone`: a store as that of a cone model
* `Expansion.Plain`: expansions without bounds and records
* `Objective.Coneless`: objectives on functions that cones do not describe

## Main results

* `Store.Valid.toCone`: the store of a linear model is valid as that of a cone model
* `Store.coneProgram_toCone`: a store without a conic objective has the same canonical program
-/

namespace ConicForm

variable {α : Type} [Scalar α]

/-! ## Expansions without records -/

/-- Expansions that have rows, and columns for them, only. -/
structure Expansion.Plain (e : Expansion α) : Prop where
  bounds : e.bounds = []
  records : e.records = []

theorem ConvexConstraint.plain_expandPiecewise {owner : ModelId} {next : Nat}
    {c : ConvexConstraint PiecewiseKind α} {e : Expansion α}
    (h : c.expandPiecewise owner next = .ok e) : e.Plain := by
  unfold expandPiecewise at h
  split at h
  all_goals
    obtain ⟨_, -, h⟩ := exists_of_bind_eq_ok h
    obtain ⟨_, -, h⟩ := exists_of_bind_eq_ok h
    obtain ⟨_, -, h⟩ := exists_of_bind_eq_ok h
    obtain ⟨_, -, h⟩ := exists_of_bind_eq_ok h
  · cases h
    exact ⟨rfl, rfl⟩
  · cases h
    exact ⟨rfl, rfl⟩
  · obtain ⟨_, -, h⟩ := exists_of_bind_eq_ok h
    obtain ⟨_, -, h⟩ := exists_of_bind_eq_ok h
    cases h
    exact ⟨rfl, rfl⟩

theorem Piece.plain_expand {owner : ModelId} {next : Nat} {p : Piece α} {e : Expansion α}
    (hp : ∀ c, p ≠ .conic c) (h : p.expand owner next = .ok e) : e.Plain := by
  cases p with
  | rows c =>
    cases h
    exact ⟨rfl, rfl⟩
  | piecewise c => exact ConvexConstraint.plain_expandPiecewise h
  | conic c => exact absurd rfl (hp c)

/-- Pieces without cones have an expansion without bounds and records. -/
theorem plain_expandAll {owner : ModelId} {next : Nat} {ps : List (Piece α)} {e : Expansion α}
    (hps : ∀ p ∈ ps, ∀ c, p ≠ .conic c) (h : expandAll owner next ps = .ok e) : e.Plain := by
  induction ps generalizing next e with
  | nil =>
    cases h
    exact ⟨rfl, rfl⟩
  | cons p ps ih =>
    obtain ⟨hp, hps⟩ := List.forall_mem_cons.mp hps
    obtain ⟨f, g, hf, hg, rfl⟩ := of_expandAll_cons_eq_ok h
    have hfirst := Piece.plain_expand hp hf
    have hrest := ih hps hg
    constructor
    · show f.bounds ++ g.bounds = []
      rw [hfirst.bounds, hrest.bounds, List.append_nil]
    · show f.records ++ g.records = []
      rw [hfirst.records, hrest.records, List.append_nil]

/-! ## Stores -/

/-- Objectives on functions that cones do not describe. -/
def Objective.Coneless : Objective α → Prop
  | affine _ => True
  | convex c => ∀ k, c.kind ≠ .conic k

/-- The pieces of a cone model, unless its objective is conic. -/
theorem ConeStore.pieces_eq_ok {s : ConeStore α} {o : Option (Piece α)}
    (ho : s.linear.epigraph = .ok o) (hconic : ∀ c, o ≠ some (.conic c)) :
    s.pieces = .ok (o.toList ++ (s.conic.map .conic ++ s.linear.piecewise.map .piecewise)) := by
  unfold pieces
  rw [ho]
  rcases o with _ | (c | c | c)
  · rfl
  · rfl
  · rfl
  · exact absurd rfl (hconic c)

namespace Store

/-- A store as that of a cone model, without conic constraints. -/
def toCone (s : Store α) : ConeStore α := ⟨s, [], []⟩

variable {s : Store α}

theorem handles_of_handles {k : ConvexKind} (h : LinearModel.handles k = true) :
    ConeModel.handles k = true := by
  cases k with
  | piecewise k => rfl
  | conic k => cases h
  | exp => cases h

theorem Valid.toCone (hs : s.Valid LinearModel.handles) : s.toCone.Valid where
  linear := { hs with
    objective := by
      rintro ⟨e, goal⟩ hp
      obtain ⟨hscoped, hsuits⟩ := hs.objective _ hp
      refine ⟨hscoped, ?_⟩
      cases e with
      | affine a => exact hsuits
      | convex c => exact ⟨hsuits.1, handles_of_handles hsuits.2.1, hsuits.2.2⟩ }
  conic := by simp [Store.toCone]
  cones := by simp [Store.toCone]

/-- Only a conic objective has a conic piece. -/
theorem not_conic_of_epigraph (hs : ∀ p ∈ s.objective, p.1.Coneless) {o : Option (Piece α)}
    (ho : s.epigraph = .ok o) : ∀ c, o ≠ some (.conic c) := by
  intro k hk
  subst hk
  unfold epigraph at ho
  rcases hsome : s.objective with _ | ⟨a | c, goal⟩
  all_goals rw [hsome] at ho
  · cases ho
  · obtain ⟨r, -, ho⟩ := exists_of_bind_eq_ok ho
    cases ho
  · obtain ⟨v, hv, ho⟩ := exists_of_bind_eq_ok ho
    obtain ⟨p, hp, ho⟩ := exists_of_bind_eq_ok ho
    cases ho
    obtain ⟨-, -, -, -, -, -, -, hkind, -⟩ := ConvexExpression.of_le_eq_ok hv
    rw [Goal.kind_orient] at hkind
    have hne := hs _ hsome
    unfold Piece.ofConvex at hp
    split at hp
    · cases hp
    · next j hj => exact hne j (hkind.symm.trans hj)
    · cases hp

/-- **The canonical cone program of a store without a conic objective**, as that of a cone model, is
its canonical linear program, without records. Where one does not exist, the other fails for the
same reason. -/
theorem coneProgram_toCone (hs : ∀ p ∈ s.objective, p.1.Coneless) :
    s.toCone.coneProgram = s.linearProgram.map (⟨·, []⟩) := by
  unfold ConeStore.coneProgram linearProgram
  cases ho : s.epigraph with
  | error e =>
    simp only [ConeStore.pieces, linearPieces, toCone, ho, bind, Except.bind]
    rfl
  | ok o =>
    have hne := not_conic_of_epigraph hs ho
    have hpieces : s.toCone.pieces = .ok (o.toList ++ s.piecewise.map .piecewise) :=
      ConeStore.pieces_eq_ok (s := s.toCone) ho hne
    rw [hpieces, linearPieces_eq_ok ho hne]
    show (expandAll s.id s.columnCount _ >>= _) =
      Except.map _ (expandAll s.id s.columnCount _ >>= _)
    cases he : expandAll s.id s.columnCount (o.toList ++ s.piecewise.map .piecewise) with
    | error e => rfl
    | ok e =>
      have hrecords : e.records = [] := by
        refine (plain_expandAll (fun p hp c hc => ?_) he).records
        subst hc
        rcases List.mem_append.mp hp with hp | hp
        · exact hne c (Option.mem_toList.mp hp)
        · obtain ⟨d, -, hd⟩ := List.mem_map.mp hp
          cases hd
      show (s.assemble e >>= fun p => ConeProgram.ofRecords p (e.records ++ [])) =
        Except.map _ (s.assemble e)
      rw [hrecords]
      cases s.assemble e <;> rfl

/-- What a linear model handles is not conic. -/
theorem Valid.coneless (hs : s.Valid LinearModel.handles) :
    ∀ p ∈ s.objective, p.1.Coneless := by
  rintro ⟨e, goal⟩ hp
  obtain ⟨-, hsuits⟩ := hs.objective _ hp
  cases e with
  | affine a => trivial
  | convex c =>
    intro k hk
    have hhandles := hsuits.2.1
    rw [hk] at hhandles
    cases hhandles

end Store

end ConicForm
