import ConicForm.Proofs.Canonical.Existence
import ConicForm.Proofs.Model.Copies

/-!
# The parts of a canonical program

What a canonical program is made of, read off the program that a store has, whatever columns the
store is over: the expansion of its pieces behind its own columns, with all rows within the program.
The expansion of each piece is part of it, so that a feasible point satisfies the rows and records
of each of them. A copy may have put pieces over further columns into the store; they only have to
be over finitely many.

## Main results

* `exists_expand_of_mem`, `exists_expand_of_mem_records`: the expansions of single pieces
* `ConeStore.of_coneProgram_eq_ok`: what a canonical program is
* `ConeStore.Over.scoped_pieces`: the pieces of a store are over the columns that it is over
* `ConeStore.exists_holds_of_feasible`: a feasible point satisfies what each piece expands to
-/

namespace ConicForm

variable {α : Type} [Scalar α]

/-! ## Expansions of single pieces -/

section Expand

variable {id : ModelId} {next : Nat} {ps : List (Piece α)} {e : Expansion α}

/-- Each piece has its rows and records in the expansion of all. -/
theorem exists_expand_of_mem (h : expandAll id next ps = .ok e) {p : Piece α} (hp : p ∈ ps) :
    ∃ k f, p.expand id k = .ok f ∧ f.rows ⊆ e.rows ∧ f.records ⊆ e.records := by
  induction ps generalizing next e with
  | nil => cases hp
  | cons q qs ih =>
    obtain ⟨first, rest, hfirst, hrest, rfl⟩ := of_expandAll_cons_eq_ok h
    rcases List.mem_cons.mp hp with rfl | hp
    · exact ⟨next, first, hfirst, List.subset_append_left _ _, List.subset_append_left _ _⟩
    · obtain ⟨k, f, hf, hrows, hrecords⟩ := ih hrest hp
      exact ⟨k, f, hf, List.Subset.trans hrows (List.subset_append_right _ _),
        List.Subset.trans hrecords (List.subset_append_right _ _)⟩

/-- Each record is from the expansion of one piece. -/
theorem exists_expand_of_mem_records (h : expandAll id next ps = .ok e) {r : List Nat}
    (hr : r ∈ e.records) : ∃ p ∈ ps, ∃ k f, p.expand id k = .ok f ∧ r ∈ f.records := by
  induction ps generalizing next e with
  | nil =>
    cases h
    cases hr
  | cons q qs ih =>
    obtain ⟨first, rest, hfirst, hrest, rfl⟩ := of_expandAll_cons_eq_ok h
    rcases List.mem_append.mp hr with hr | hr
    · exact ⟨q, List.mem_cons_self, next, first, hfirst, hr⟩
    · obtain ⟨p, hp, hf⟩ := ih hrest hr
      exact ⟨p, List.mem_cons_of_mem _ hp, hf⟩

end Expand

/-! ## Assembled programs -/

/-- An assembled program has passed the check that its rows are over its columns. -/
theorem Store.of_assemble_eq_ok {s : Store α} {e : Expansion α} {l : LinearProgram α}
    (h : s.assemble e = .ok l) : l = s.assembled e ∧
      ∀ c ∈ s.rows ++ e.rows, c.linear.ncols ≤ s.columnCount + e.width := by
  unfold assemble at h
  dsimp only at h
  split at h
  · cases h
  · next hrows =>
    split at h
    · cases h
    · cases h
      refine ⟨rfl, fun c hc => ?_⟩
      simpa using List.find?_eq_none.mp hrows c hc

/-- **What a canonical program is**: the assembled one of an expansion of the pieces, with rows and
records that are over its columns. -/
theorem ConeStore.of_coneProgram_eq_ok {s : ConeStore α} {p : ConeProgram α}
    (h : s.coneProgram = .ok p) : ∃ ps e, s.pieces = .ok ps ∧
      expandAll s.linear.id s.linear.columnCount ps = .ok e ∧ p = s.assembled e ∧
      (∀ c ∈ s.linear.rows ++ e.rows, c.linear.ncols ≤ s.linear.columnCount + e.width) ∧
      ∀ r ∈ p.records, r ≠ [] ∧ ∀ j ∈ r, j < p.linear.ncols := by
  obtain ⟨ps, hps, h⟩ := exists_of_bind_eq_ok h
  obtain ⟨e, he, h⟩ := exists_of_bind_eq_ok h
  obtain ⟨l, hl, h⟩ := exists_of_bind_eq_ok h
  obtain ⟨rfl, hrows⟩ := Store.of_assemble_eq_ok hl
  unfold ConeProgram.ofRecords at h
  split at h
  · cases h
  · next hempty =>
    obtain ⟨hlt, rfl⟩ := ConeProgram.withRecords_eq_ok_iff.mp h
    refine ⟨ps, e, hps, he, rfl, hrows, fun r hr => ⟨?_, hlt r hr⟩⟩
    rintro rfl
    exact hempty (List.any_eq_true.mpr ⟨[], hr, rfl⟩)

/-! ## The pieces of a store -/

theorem Piece.scoped_of_ofConvex {id : ModelId} {n : Nat} {v : ConvexConstraint ConvexKind α}
    (hv : v.Scoped ConvexKind.elementwise id n) {p : Piece α} (h : ofConvex v = .ok p) :
    p.Scoped id n := by
  unfold ofConvex at h
  split at h
  · next k hk =>
    cases h
    exact hv.withKind (congrArg ConvexKind.elementwise hk)
  · next k hk =>
    cases h
    exact hv.withKind (congrArg ConvexKind.elementwise hk)
  · cases h

/-- The piece of an objective is over the columns of the objective, and the objective column. -/
theorem Store.scoped_of_epigraph {s : Store α} {n : Nat} (hn : s.columnCount ≤ n)
    (hs : ∀ p ∈ s.objective, p.1.Scoped s.id n) {o : Option (Piece α)} (ho : s.epigraph = .ok o) :
    ∀ p ∈ o, p.Scoped s.id n := by
  have ht : (Affine.ofBlock s.objectiveBlock : Affine α).Within s.id n :=
    Affine.within_ofBlock rfl (s.columnCount_pos.trans_le hn)
  unfold epigraph at ho
  rcases hsome : s.objective with _ | ⟨a | c, goal⟩
  all_goals rw [hsome] at ho
  · cases ho
    simp
  · obtain ⟨r, hr, ho⟩ := exists_of_bind_eq_ok ho
    cases ho
    rintro p ⟨⟩
    have ha : a.Within s.id n := hs _ hsome
    exact (ha.scale goal.factor).le ht hr
  · obtain ⟨v, hv, ho⟩ := exists_of_bind_eq_ok ho
    obtain ⟨q, hq, ho⟩ := exists_of_bind_eq_ok ho
    cases ho
    rintro p ⟨⟩
    have hc : c.Scoped s.id n := hs _ hsome
    exact Piece.scoped_of_ofConvex ((goal.scoped_orient hc).le ht hv) hq

namespace ConeStore

variable {s : ConeStore α} {n : Nat} {ps : List (Piece α)}

/-- The pieces are there only if the objective has one. -/
theorem exists_epigraph_of_pieces (hps : s.pieces = .ok ps) : ∃ o, s.linear.epigraph = .ok o ∧
    ∀ p, p ∈ ps ↔ (∃ c ∈ s.conic, .conic c = p) ∨ (∃ c ∈ s.linear.piecewise, .piecewise c = p) ∨
      p ∈ o.toList := by
  obtain ⟨o, ho, -⟩ := exists_of_bind_eq_ok hps
  obtain ⟨qs, hqs, hmem⟩ := exists_pieces_of_epigraph ho
  obtain rfl := Except.ok.inj (hqs.symm.trans hps)
  exact ⟨o, ho, hmem⟩

/-- **The pieces of a store are over the columns that everything in it is over.** -/
theorem Over.scoped_pieces (hs : s.Over n) (hn : s.linear.columnCount ≤ n)
    (hps : s.pieces = .ok ps) : ∀ p ∈ ps, p.Scoped s.linear.id n := by
  obtain ⟨o, ho, hmem⟩ := exists_epigraph_of_pieces hps
  intro p hp
  rcases (hmem p).mp hp with ⟨c, hc, rfl⟩ | ⟨c, hc, rfl⟩ | hp
  · exact hs.conic c hc
  · exact hs.piecewise c hc
  · exact Store.scoped_of_epigraph hn hs.objective ho p (Option.mem_toList.mp hp)

/-- So are the pieces of a store for a linear program. -/
theorem Over.scoped_linearPieces {s : Store α} (hs : s.toCone.Over s.columnCount)
    (hps : s.linearPieces = .ok ps) : ∀ p ∈ ps, p.Scoped s.id s.columnCount := by
  obtain ⟨o, ho, h⟩ := exists_of_bind_eq_ok hps
  have hne : ∀ c, o ≠ some (.conic c) := by
    rintro c rfl
    cases h
  obtain rfl := Except.ok.inj ((Store.linearPieces_eq_ok ho hne).symm.trans hps)
  refine List.forall_mem_append.mpr ⟨fun p hp => ?_, List.forall_mem_map.mpr hs.piecewise⟩
  exact Store.scoped_of_epigraph le_rfl hs.objective ho p (Option.mem_toList.mp hp)

end ConeStore

/-! ## Feasible points -/

variable {K : Type} [Field K] [LinearOrder K]

/-- The rows of all pieces hold at a feasible point of an assembled program. -/
theorem Store.rows_hold_of_feasible {s : Store K} {e : Expansion K}
    (hrows : ∀ c ∈ s.rows ++ e.rows, c.linear.ncols ≤ s.columnCount + e.width) {x : Nat → K}
    (hx : (s.assembled e).Feasible x) : ∀ c ∈ s.rows ++ e.rows, c.Holds x :=
  (LinearConstraint.holds_stack_iff hrows x).mp hx.rows

/-- **A feasible point satisfies what each piece expands to.** -/
theorem ConeStore.exists_holds_of_feasible {s : ConeStore K} {p : ConeProgram K}
    (h : s.coneProgram = .ok p) {x : Nat → K} (hx : p.Feasible x) :
    ∃ ps, s.pieces = .ok ps ∧ ∀ q ∈ ps, ∃ k f, q.expand s.linear.id k = .ok f ∧
      (∀ c ∈ f.rows, c.Holds x) ∧ ∀ r ∈ f.records, RecordHolds x r := by
  obtain ⟨ps, e, hps, he, rfl, hrows, -⟩ := of_coneProgram_eq_ok h
  refine ⟨ps, hps, fun q hq => ?_⟩
  obtain ⟨k, f, hf, hsub, hrecords⟩ := exists_expand_of_mem he hq
  refine ⟨k, f, hf, fun c hc => ?_, fun r hr => ?_⟩
  · exact Store.rows_hold_of_feasible hrows hx.linear c (List.mem_append_right _ (hsub hc))
  · exact hx.records r (List.mem_append_left _ (hrecords hr))

end ConicForm
