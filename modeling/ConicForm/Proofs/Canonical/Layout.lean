import ConicForm.Proofs.Canonical.Embedding

/-!
# The layout of a canonical program

The pieces of a cone model come in three parts: an objective without cones, the conic constraints
with a conic objective, and the piecewise-linear constraints. Their expansions stand one after
another, so that what cones contribute to the canonical program, its rows as well as its columns, is
in one place.

## Main definitions

* `ConeStore.Layout`: the three parts with their expansions

## Main results

* `expandAll_append`: pieces one after another
* `ConeStore.Valid.nonempty_layout`, `ConeStore.Layout.coneProgram_eq_ok`: the canonical program of
  a valid store is laid out so
-/

namespace ConicForm

variable {α : Type} [Scalar α]

/-! ## Expansions one after another -/

theorem Expansion.append_assoc (e f g : Expansion α) :
    (e.append f).append g = e.append (f.append g) := by
  simp [append]

/-- Lists of pieces one after another are expanded one after another. -/
theorem expandAll_append {id : ModelId} {next : Nat} {ps qs : List (Piece α)} {e f : Expansion α}
    (he : expandAll id next ps = .ok e) (hf : expandAll id (next + e.width) qs = .ok f) :
    expandAll id next (ps ++ qs) = .ok (e.append f) := by
  induction ps generalizing next e with
  | nil =>
    cases he
    exact hf
  | cons p ps ih =>
    obtain ⟨g, k, hg, hk, rfl⟩ := of_expandAll_cons_eq_ok he
    rw [Expansion.width_append, ← Nat.add_assoc] at hf
    rw [List.cons_append, expandAll, hg, Expansion.append_assoc]
    show (expandAll id (next + g.width) (ps ++ qs) >>= fun k => .ok (g.append k)) = _
    rw [ih hk hf]
    rfl

/-- The expansion of pieces over the first columns stays behind these. -/
theorem scoped_expandAll {id : ModelId} {n next : Nat} (hn : n ≤ next) {ps : List (Piece α)}
    (hps : ∀ p ∈ ps, p.Scoped id n) {e : Expansion α} (he : expandAll id next ps = .ok e) :
    e.Scoped next := by
  obtain ⟨f, hf, hscoped⟩ := exists_expandAll_scoped hn hps
  obtain rfl := Except.ok.inj (hf.symm.trans he)
  exact hscoped

namespace ConeStore

/-- The parts of the pieces of a store, with their expansions one after another. -/
structure Layout (s : ConeStore α) where
  /-- The piece of an objective that is not conic. -/
  plain : List (Piece α)
  /-- The conic constraints, and that of a conic objective. -/
  conic : List (ConvexConstraint ConicKind α)
  pieces_eq : s.pieces =
    .ok (plain ++ (conic.map .conic ++ s.linear.piecewise.map .piecewise))
  not_conic : ∀ p ∈ plain, ∀ c, p ≠ .conic c
  /-- The expansion of the objective that is not conic. -/
  before : Expansion α
  before_eq : expandAll s.linear.id s.linear.columnCount plain = .ok before
  /-- The expansion of the conic constraints and of a conic objective. -/
  cones : Expansion α
  cones_eq : expandAll s.linear.id (s.linear.columnCount + before.width) (conic.map .conic) =
    .ok cones
  /-- The expansion of the piecewise-linear constraints. -/
  behind : Expansion α
  behind_eq : expandAll s.linear.id (s.linear.columnCount + before.width + cones.width)
    (s.linear.piecewise.map .piecewise) = .ok behind

namespace Layout

variable {s : ConeStore α}

/-- All expansions, one after another. -/
def expansion (L : s.Layout) : Expansion α := L.before.append (L.cones.append L.behind)

/-- The column behind the declared ones and those of an objective without cones. -/
def next (L : s.Layout) : Nat := s.linear.columnCount + L.before.width

variable (L : s.Layout)

theorem expandAll_eq : expandAll s.linear.id s.linear.columnCount
    (L.plain ++ (L.conic.map .conic ++ s.linear.piecewise.map .piecewise)) = .ok L.expansion :=
  expandAll_append L.before_eq (expandAll_append L.cones_eq L.behind_eq)

variable (hs : s.Valid)

include hs

/-- All parts are over the declared columns. -/
theorem scoped_pieces :
    (∀ p ∈ L.plain, p.Scoped s.linear.id s.linear.columnCount) ∧
      (∀ c ∈ L.conic, c.Scoped ConicKind.elementwise s.linear.id s.linear.columnCount) ∧
      ∀ c ∈ s.linear.piecewise, c.Scoped PiecewiseKind.elementwise s.linear.id
        s.linear.columnCount := by
  obtain ⟨hplain, hrest⟩ := List.forall_mem_append.mp (hs.scoped_pieces L.pieces_eq)
  obtain ⟨hconic, hpiecewise⟩ := List.forall_mem_append.mp hrest
  exact ⟨hplain, fun c hc => hconic _ (List.mem_map_of_mem hc),
    fun c hc => hpiecewise _ (List.mem_map_of_mem hc)⟩

theorem scoped_before : L.before.Scoped s.linear.columnCount :=
  scoped_expandAll le_rfl (L.scoped_pieces hs).1 L.before_eq

theorem scoped_cones : L.cones.Scoped L.next :=
  scoped_expandAll (Nat.le_add_right _ _) (List.forall_mem_map.mpr (L.scoped_pieces hs).2.1)
    L.cones_eq

theorem scoped_behind : L.behind.Scoped (L.next + L.cones.width) := by
  refine scoped_expandAll ?_ (List.forall_mem_map.mpr (L.scoped_pieces hs).2.2) L.behind_eq
  unfold next
  omega

theorem scoped_expansion : L.expansion.Scoped s.linear.columnCount :=
  (L.scoped_before hs).append ((L.scoped_cones hs).append (L.scoped_behind hs))

/-- **The canonical program of a valid store is laid out in three parts.** -/
theorem coneProgram_eq_ok : s.coneProgram = .ok (s.assembled L.expansion) :=
  hs.coneProgram_eq_ok L.pieces_eq L.expandAll_eq (L.scoped_expansion hs)

omit hs in
theorem plain_before : L.before.Plain := plain_expandAll L.not_conic L.before_eq

omit hs in
theorem plain_behind : L.behind.Plain := by
  refine plain_expandAll (fun p hp c hc => ?_) L.behind_eq
  obtain ⟨d, -, hd⟩ := List.mem_map.mp hp
  cases hd.trans hc

omit hs in
/-- The bounds of auxiliary columns are those of cones. -/
theorem bounds_expansion : L.expansion.bounds = L.cones.bounds := by
  simp [expansion, Expansion.append, L.plain_before.bounds, L.plain_behind.bounds]

omit hs in
/-- The records of expansions are those of cones. -/
theorem records_expansion : L.expansion.records = L.cones.records := by
  simp [expansion, Expansion.append, L.plain_before.records, L.plain_behind.records]

end Layout

/-- Parts that the pieces of a valid store have can be expanded one after another. -/
theorem Valid.exists_layout {s : ConeStore α} (hs : s.Valid) {plain : List (Piece α)}
    {conic : List (ConvexConstraint ConicKind α)}
    (hpieces : s.pieces =
      .ok (plain ++ (conic.map .conic ++ s.linear.piecewise.map .piecewise)))
    (hplain : ∀ p ∈ plain, ∀ c, p ≠ .conic c) : ∃ L : s.Layout, L.plain = plain := by
  obtain ⟨hscoped, hrest⟩ := List.forall_mem_append.mp (hs.scoped_pieces hpieces)
  obtain ⟨hconic, hpiecewise⟩ := List.forall_mem_append.mp hrest
  obtain ⟨before, hbefore, -⟩ := exists_expandAll_scoped le_rfl hscoped
  obtain ⟨cones, hcones, -⟩ :=
    exists_expandAll_scoped (Nat.le_add_right s.linear.columnCount before.width) hconic
  obtain ⟨behind, hbehind, -⟩ := exists_expandAll_scoped
    ((Nat.le_add_right s.linear.columnCount before.width).trans (Nat.le_add_right _ cones.width))
    hpiecewise
  exact ⟨⟨plain, conic, hpieces, hplain, before, hbefore, cones, hcones, behind, hbehind⟩, rfl⟩

/-- **Every valid store has a layout.** -/
theorem Valid.nonempty_layout {s : ConeStore α} (hs : s.Valid) : Nonempty s.Layout := by
  obtain ⟨o, ho, -⟩ := hs.linear.exists_epigraph_scoped rfl
  by_cases hconic : ∃ c, o = some (.conic c)
  · obtain ⟨c, rfl⟩ := hconic
    have hpieces : s.pieces = .ok ([] ++ ((s.conic ++ [c]).map .conic ++
        s.linear.piecewise.map .piecewise)) := by
      unfold pieces
      rw [ho, List.map_append]
      rfl
    obtain ⟨L, -⟩ := hs.exists_layout hpieces (by simp)
    exact ⟨L⟩
  · have hne : ∀ c, o ≠ some (.conic c) := fun c hc => hconic ⟨c, hc⟩
    obtain ⟨L, -⟩ := hs.exists_layout (pieces_eq_ok ho hne) fun p hp c hc =>
      hne c (Option.mem_toList.mp (hc ▸ hp))
    exact ⟨L⟩

end ConeStore

end ConicForm
