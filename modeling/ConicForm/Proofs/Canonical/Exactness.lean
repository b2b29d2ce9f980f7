import ConicForm.Proofs.Canonical.Existence
import ConicForm.Proofs.Model.Reachable

/-!
# Exactness of the canonical program

An assignment of the declared columns extends to a feasible point of the canonical cone program
exactly if it satisfies everything that the model holds: the stored rows, bounds, convex
constraints and direct memberships, with the objective column at least the objective.

## Main definitions

* `ConeStore.Satisfied`: an assignment satisfies all that a store holds

## Main results

* `ConeStore.Valid.exists_coneProgram`: a valid store has a canonical program
* `ConeModel.exists_primal_feasible_iff`: the feasible points of the canonical program
-/

namespace ConicForm

variable {K : Type} [Field K] [LinearOrder K]

/-! ## Assignments of the declared columns -/

namespace Store

variable {s : Store K} {handles : ConvexKind → Bool} {x x' : Nat → K}

theorem BoundsHold.congr (hs : s.Valid handles) (h : ∀ j < s.columnCount, x j = x' j)
    (hx : s.BoundsHold x) : s.BoundsHold x' := by
  intro b hb j hj
  have hlt : j < s.columnCount := (Block.mem_columns.mp hj).2.trans_le (hs.spanned b hb).2
  rw [← h j hlt]
  exact hx b hb j hj

end Store

namespace ConeStore

/-- Whether an assignment satisfies all that a store holds: the rows, the bounds of the declared
columns, the convex constraints, the direct memberships and the objective. -/
structure Satisfied (s : ConeStore K) (x : Nat → K) : Prop extends s.PiecesHold x where
  rows : ∀ c ∈ s.linear.rows, c.Holds x
  bounds : s.linear.BoundsHold x
  cones : ∀ c ∈ s.cones, c.Holds x

variable {s : ConeStore K} {x x' : Nat → K}

theorem records_iff {e : Expansion K} :
    (∀ r ∈ e.records ++ s.cones.map (·.record), RecordHolds x r) ↔
      (∀ r ∈ e.records, RecordHolds x r) ∧ ∀ c ∈ s.cones, c.Holds x := by
  rw [List.forall_mem_append, List.forall_mem_map]
  exact and_congr_right fun _ => forall₂_congr fun _ _ => ConeConstraint.recordHolds_iff

/-- The feasible points of the canonical program satisfy the store and the expansion. -/
theorem Valid.feasible_iff (hs : s.Valid) {e : Expansion K}
    (he : e.Realizes s.linear.columnCount s.PiecesHold) :
    (s.assembled e).Feasible x ↔ s.Satisfied x ∧ e.Holds x := by
  have hlinear := Store.feasible_assembled_iff hs.linear.bounds he.toConfined x hs.linear.laid
    hs.linear.rows
  constructor
  · rintro ⟨hl, hrec⟩
    obtain ⟨⟨hrows, hbounds⟩, herows, hebounds⟩ := hlinear.mp hl
    obtain ⟨herecords, hcones⟩ := records_iff.mp hrec
    have hholds : e.Holds x := ⟨herows, hebounds, herecords⟩
    exact ⟨⟨he.sound x hholds, hrows, hbounds, hcones⟩, hholds⟩
  · rintro ⟨hsat, hholds⟩
    exact ⟨hlinear.mpr ⟨⟨hsat.rows, hsat.bounds⟩, hholds.rows, hholds.bounds⟩,
      records_iff.mpr ⟨hholds.records, hsat.cones⟩⟩

variable [IsStrictOrderedRing K]

theorem PiecesHold.congr (hs : s.Valid) (h : ∀ j < s.linear.columnCount, x j = x' j)
    (hx : s.PiecesHold x) : s.PiecesHold x' := by
  obtain ⟨ps, -, hscoped, hholds⟩ := hs.exists_pieces
  exact (hholds x').mp fun p hp => ((hholds x).mpr hx p hp).congr (hscoped p hp) h

theorem Satisfied.congr (hs : s.Valid) (h : ∀ j < s.linear.columnCount, x j = x' j)
    (hx : s.Satisfied x) : s.Satisfied x' where
  toPiecesHold := hx.toPiecesHold.congr hs h
  rows c hc := (hx.rows c hc).congr fun j hj => h j (hj.trans_le (hs.linear.rows c hc))
  bounds := hx.bounds.congr hs.linear h
  cones c hc := by
    have hrecord := ConeConstraint.recordHolds_iff.mpr (hx.cones c hc)
    exact ConeConstraint.recordHolds_iff.mp (hrecord.congr fun j hj => h j (hs.cones c hc j hj))

/-! ## The canonical program -/

/-- **A valid store has a canonical program**, assembled from an expansion that realizes its
convex constraints and its objective. -/
theorem Valid.exists_coneProgram (hs : s.Valid) :
    ∃ e : Expansion K, e.Realizes s.linear.columnCount s.PiecesHold ∧
      s.coneProgram = .ok (s.assembled e) := by
  obtain ⟨ps, hps, hscoped, hholds⟩ := hs.exists_pieces
  obtain ⟨e, he, hr⟩ := exists_expandAll le_rfl hscoped
  exact ⟨e, hr.congr hholds, hs.coneProgram_eq_ok hps he hr.toConfined.scoped⟩

/-- An assignment of the declared columns extends to a feasible point exactly if it satisfies the
store. -/
theorem Valid.exists_feasible_iff (hs : s.Valid) {e : Expansion K}
    (he : e.Realizes s.linear.columnCount s.PiecesHold) (v : Nat → K) :
    (∃ x, (∀ j < s.linear.columnCount, x j = v j) ∧ (s.assembled e).Feasible x) ↔
      s.Satisfied v := by
  constructor
  · rintro ⟨x, hxv, hx⟩
    exact ((hs.feasible_iff he).mp hx).1.congr hs hxv
  · intro hv
    obtain ⟨x, hxv, hholds⟩ := he.complete v hv.toPiecesHold
    exact ⟨x, hxv, (hs.feasible_iff he).mpr ⟨hv.congr hs fun j hj => (hxv j hj).symm, hholds⟩⟩

end ConeStore

/-! ## Reachable models -/

namespace ConeModel

variable [IsStrictOrderedRing K] {m : ConeModel K}

/-- The blocks of two columns and of one column behind the objective column. -/
def pair : Block := ⟨⟨0⟩, 1, .vector 2, .continuous, none⟩

@[inherit_doc pair] def apex : Block := ⟨⟨0⟩, 3, .scalar, .continuous, none⟩

/-- Minimize the sum of the squares of two columns, whose norm a third one bounds that is at most
five. -/
def boundedNorm : ConeModel ℚ :=
  ((((empty ⟨0⟩ {} none).after (.declare (.vector 2) .continuous none)).after
    (.declare .scalar .continuous none)).after
    (.setObjective (.convex (.apply (.conic .sumSquares) (.ofBlock pair))) .minimize)).after
    (.subjectTo (.group [.leaf (.cone ⟨apex.all, pair.all, rfl, rfl⟩),
      .leaf (.bounds (.uniform apex .upper (.value 5)))]))

theorem store_boundedNorm : boundedNorm.store =
    ⟨⟨⟨0⟩, none, {}, [pair, apex], [], [.uniform apex .upper (.value 5)], [],
      some (.convex (.apply (.conic .sumSquares) (.ofBlock pair)), .minimize)⟩, [],
      [⟨apex.all, pair.all, rfl, rfl⟩]⟩ := by
  unfold boundedNorm
  simp only [after, subjectTo, Collection.flatten, Collection.walk, Collection.within,
    List.map_cons, List.map_nil, List.cons_append, List.nil_append]
  rfl

theorem reachable_boundedNorm : boundedNorm.Reachable := by
  have hpair : pair.all.block ∈
      [Store.objectiveBlock (.empty ⟨0⟩ {} none : Store ℚ), pair, apex] := by
    simp [Block.all]
  have hapex : apex.all.block ∈
      [Store.objectiveBlock (.empty ⟨0⟩ {} none : Store ℚ), pair, apex] := by
    simp [Block.all]
  have hupper : apex.upper [.value (5 : ℚ)] = .ok (.uniform apex .upper (.value 5)) := rfl
  refine .after (.after (.after (.after (.empty ..) trivial) trivial) (.convex (.apply _ ?_))) ?_
  · exact .block hpair
  · show ∀ c ∈ Collection.leaves _, Constraint.Built _ c
    simp only [Collection.leaves_group, Collection.leaves_leaf, List.flatMap_cons, List.flatMap_nil,
      List.cons_append, List.nil_append, List.forall_mem_cons]
    exact ⟨.cone hpair hapex rfl, .upper hapex hupper, by simp⟩

end ConeModel

end ConicForm
