import ConicForm.Program.Report
import ConicForm.Proofs.Canonical.Parts
import ConicForm.Proofs.Duality.Records
import ConicForm.Proofs.Model.Workspace

/-!
# The table of records

The table of a program's records has a row for each record, with minus one at the head of the record
and one at its other members. The cells of a row are written member by member, and what is written
last stays: a head that is a member once more shows as one of the others, and nothing in the row
tells that there is a head. Records that functions expand to have their head once, and so have the
duals of these in a model without copies. A direct membership may have its apex among its vector,
and the rows of its columns may refer to one multiplier.

## Main definitions

* `Scalar.DistinctSigns`: scalars whose signs differ
* `ConeProgram.HeadOnce`: records whose head is not among the others
* `ConeProgram.apexSign`: the sign that tells the head from the others
* `ConeProgram.Tabulated`: what the table of a program shows

## Main results

* `ConeProgram.tabulated`: the table of any program
* `Piece.Scoped.headOnce_of_expand`: records that functions expand to
* `Workspace.recordTable_shows`: the tables of models
* `exists_apex_not_shown`: a record whose apex the table does not show
-/

namespace ConicForm

variable {α : Type} [Scalar α]

/-! ## The table of a program -/

/-- Signs are different from each other and from zero. -/
def Scalar.DistinctSigns (α : Type) [Scalar α] : Prop := [-1, 0, (1 : α)].Nodup

theorem Scalar.distinctSigns {K : Type} [Field K] [LinearOrder K] [IsStrictOrderedRing K] :
    DistinctSigns K := by
  have hneg : (-1 : K) < 0 := neg_one_lt_zero
  have hone : (0 : K) < 1 := one_pos
  simp [DistinctSigns, (hneg.trans hone).ne]

namespace ConeProgram

/-- A record whose head is not among the others. -/
def HeadOnce (r : List Nat) : Prop := ∀ j ∈ r.head?, j ∉ r.tail

@[simp] theorem headOnce_cons {head : Nat} {rest : List Nat} :
    HeadOnce (head :: rest) ↔ head ∉ rest := by
  simp [HeadOnce]

theorem headOnce_of_nodup {r : List Nat} (h : r.Nodup) : HeadOnce r := by
  cases r with
  | nil => simp [HeadOnce]
  | cons head rest => exact headOnce_cons.mpr (List.nodup_cons.mp h).1

/-- The sign of a column in a record: minus one at the head, one at the others. -/
def apexSign (j : Nat) : List Nat → α
  | [] => 0
  | head :: rest => if j = head then -1 else if j ∈ rest then 1 else 0

/-- What is written at some places stands there, and nothing else has changed. -/
theorem getD_foldl_set (js : List Nat) (x : α) {row : List α} {j : Nat} (hj : j < row.length) :
    (js.foldl (fun row i => row.set i x) row).getD j 0 = if j ∈ js then x else row.getD j 0 := by
  induction js generalizing row with
  | nil => simp
  | cons i js ih =>
    rw [List.foldl_cons, ih (by simpa using hj)]
    by_cases hmem : j ∈ js
    · simp [hmem]
    · by_cases hij : j = i
      · simp [hij, hij ▸ hj]
      · simp [hmem, hij, Ne.symm hij]

/-- **A row after its writes**: the others stand over the head. -/
theorem getD_recordRow {n j : Nat} (hj : j < n) (r : List Nat) : (recordRow n r : List α).getD j 0 =
    if j ∈ r.tail then 1 else if r.head? = some j then -1 else 0 := by
  cases r with
  | nil => simp [recordRow]
  | cons head rest =>
    rw [recordRow, getD_foldl_set _ _ (by simpa using hj), List.tail_cons, List.head?_cons]
    by_cases hhead : head = j
    · simp [hhead, hj]
    · simp [hhead]

section Signs

variable (hsigns : Scalar.DistinctSigns α) {n j : Nat} {r : List Nat}

include hsigns

/-- A cell shows a head exactly if the head is not among the others. -/
theorem getD_recordRow_eq_neg_one_iff (hj : j < n) :
    (recordRow n r : List α).getD j 0 = -1 ↔ r.head? = some j ∧ j ∉ r.tail := by
  simp only [Scalar.DistinctSigns, List.nodup_cons, List.mem_cons, List.not_mem_nil, or_false,
    not_or] at hsigns
  obtain ⟨⟨hzero, hone⟩, -⟩ := hsigns
  rw [getD_recordRow hj]
  split
  · next hmem => simp [hmem, Ne.symm hone]
  · next hmem =>
    split
    · next hhead => simp [hmem, hhead]
    · next hhead => simp [hhead, Ne.symm hzero]

/-- A row shows its record exactly if the head is not among the others. -/
theorem forall_getD_recordRow_eq_iff (hr : ∀ j ∈ r, j < n) :
    (∀ j < n, (recordRow n r : List α).getD j 0 = apexSign j r) ↔ HeadOnce r := by
  cases r with
  | nil => simp +contextual [recordRow, apexSign, HeadOnce]
  | cons head rest =>
    rw [headOnce_cons]
    constructor
    · intro h hhead
      have hlt := hr head List.mem_cons_self
      have hcell := h head hlt
      rw [apexSign, if_pos rfl, getD_recordRow_eq_neg_one_iff hsigns hlt] at hcell
      exact hcell.2 hhead
    · intro hhead j hj
      rw [getD_recordRow hj, apexSign, List.tail_cons, List.head?_cons]
      by_cases hjh : j = head
      · simp [hjh, hhead]
      · simp [hjh, Ne.symm hjh]

end Signs

/-- What the table of records shows: a row for each record, in which the others stand over the head.
The row is as the record says exactly if its head is not among the others, and exactly then a record
with members has its apex in the row. -/
structure Tabulated (p : ConeProgram α) : Prop where
  nrows : p.recordTable.coefficients.nrows = p.records.length
  ncols : p.recordTable.coefficients.ncols = p.linear.ncols
  cell : ∀ k r, p.records[k]? = some r → ∀ j < p.linear.ncols,
    p.recordTable.coefficients.get k j =
      if j ∈ r.tail then 1 else if r.head? = some j then -1 else 0
  row_iff : ∀ k r, p.records[k]? = some r →
    ((∀ j < p.linear.ncols, p.recordTable.coefficients.get k j = apexSign j r) ↔ HeadOnce r)
  apex_iff : ∀ k r, p.records[k]? = some r → ∀ j < p.linear.ncols,
    (p.recordTable.coefficients.get k j = -1 ↔ r.head? = some j ∧ HeadOnce r)

/-- **The table of records** of any program whose records are over its columns. -/
theorem tabulated (hsigns : Scalar.DistinctSigns α) {p : ConeProgram α}
    (hp : ∀ r ∈ p.records, ∀ j ∈ r, j < p.linear.ncols) : p.Tabulated := by
  have hcell : ∀ k r, p.records[k]? = some r → ∀ j,
      p.recordTable.coefficients.get k j = (recordRow p.linear.ncols r).getD j 0 := by
    intro k r hr j
    have hrow : p.recordTable.coefficients.rows.getD k [] = recordRow p.linear.ncols r := by
      show (p.records.map (recordRow p.linear.ncols)).getD k [] = _
      rw [List.getD_eq_getElem?_getD, List.getElem?_map, hr]
      rfl
    rw [DenseMatrix.get, hrow]
  refine ⟨List.length_map _, rfl, ?_, ?_, ?_⟩
  · intro k r hr j hj
    rw [hcell k r hr j, getD_recordRow hj]
  · intro k r hr
    rw [← forall_getD_recordRow_eq_iff hsigns (hp r (List.mem_of_getElem? hr))]
    exact forall₂_congr fun j _ => by rw [hcell k r hr j]
  · intro k r hr j hj
    rw [hcell k r hr j, getD_recordRow_eq_neg_one_iff hsigns hj]
    refine and_congr_right fun hhead => ?_
    rw [HeadOnce, hhead]
    simp

end ConeProgram

/-! ## Records of expansions -/

namespace ConvexConstraint

open ConeProgram

variable {id : ModelId} {next : Nat} {e : Expansion α}

/-- The copy of the bound is behind those of the input. -/
theorem headOnce_of_expandNorm {input output : Affine α}
    (h : expandNorm id next input output = .ok e) : ∀ r ∈ e.records, HeadOnce r := by
  obtain ⟨left, right, _, _, _, _, rfl, rfl, -, -, rfl⟩ := of_expandNorm_eq_ok h
  simp [Block.columns]

/-- The half difference is behind the half sum and the input. -/
theorem records_of_expandSquares {input output : Affine α}
    {records : Block → Block → Block → List (List Nat)}
    (h : expandSquares id next input output records = .ok e) :
    ∃ a₁ a₂ a₃ : Block, e.records = records a₁ a₂ a₃ ∧ a₁.size = output.size ∧
      a₁.first + a₁.size = a₂.first ∧ a₂.first + a₂.size = a₃.first := by
  obtain ⟨a₁, a₂, a₃, _, _, _, _, _, _, rfl, rfl, rfl, -, -, -, rfl⟩ := of_expandSquares_eq_ok h
  exact ⟨_, _, _, rfl, rfl, rfl, rfl⟩

theorem Scoped.headOnce_of_expandConic {n : Nat} {c : ConvexConstraint ConicKind α}
    (hc : c.Scoped ConicKind.elementwise id n) (h : c.expandConic id next = .ok e) :
    ∀ r ∈ e.records, HeadOnce r := by
  have hsize := hc.size
  unfold expandConic at h
  split at h
  · exact headOnce_of_expandNorm h
  · obtain ⟨a₁, a₂, a₃, hrecords, -, h₁, h₂⟩ := records_of_expandSquares h
    rw [hrecords]
    intro r hr
    obtain ⟨i, hi, rfl⟩ := List.mem_map.mp hr
    rw [List.mem_range] at hi
    simp only [headOnce_cons, List.mem_cons, List.not_mem_nil, or_false]
    omega
  · next hkind =>
    rw [hkind] at hsize
    obtain ⟨a₁, a₂, a₃, hrecords, hout, h₁, h₂⟩ := records_of_expandSquares h
    have hone : a₁.size = 1 := hout.trans hsize
    rw [hrecords, jointRecord, List.forall_mem_singleton, headOnce_cons, List.mem_cons,
      Block.columns, List.mem_range'_1]
    omega

end ConvexConstraint

/-- **Records that functions expand to have their head once.** -/
theorem Piece.Scoped.headOnce_of_expand {id : ModelId} {n next : Nat} {p : Piece α}
    (hp : p.Scoped id n) {e : Expansion α} (h : p.expand id next = .ok e) :
    ∀ r ∈ e.records, ConeProgram.HeadOnce r := by
  cases p with
  | rows c =>
    cases h
    simp
  | piecewise c =>
    rw [(ConvexConstraint.plain_expandPiecewise h).records]
    simp
  | conic c => exact ConvexConstraint.Scoped.headOnce_of_expandConic hp h

/-! ## The tables of models -/

namespace ConeStore

open ConeProgram

variable {s : ConeStore α} {n : Nat} {p : ConeProgram α}

/-- The records of a canonical program have their heads once exactly if no direct membership has its
apex among its vector. -/
theorem Over.headOnce_iff (hs : s.Over n) (hn : s.linear.columnCount ≤ n)
    (hp : s.coneProgram = .ok p) :
    (∀ r ∈ p.records, HeadOnce r) ↔ ∀ c ∈ s.cones, c.apexColumn ∉ c.vectorColumns := by
  obtain ⟨ps, e, hps, he, rfl, -, -⟩ := of_coneProgram_eq_ok hp
  have hexpansion : ∀ r ∈ e.records, HeadOnce r := by
    intro r hr
    obtain ⟨q, hq, k, f, hf, hrf⟩ := exists_expand_of_mem_records he hr
    exact (hs.scoped_pieces hn hps q hq).headOnce_of_expand hf r hrf
  rw [assembled, List.forall_mem_append, List.forall_mem_map, and_iff_right hexpansion]
  exact forall₂_congr fun c _ => headOnce_cons

/-- The records of canonical programs and of their duals are over the columns of these. -/
theorem lt_ncols_of_program (hp : s.coneProgram = .ok p ∨ s.dualProgram = .ok p) :
    ∀ r ∈ p.records, ∀ j ∈ r, j < p.linear.ncols := by
  rcases hp with hp | hp
  · obtain ⟨ps, e, -, -, -, -, hrecords⟩ := of_coneProgram_eq_ok hp
    exact fun r hr => (hrecords r hr).2
  · obtain ⟨q, -, hp⟩ := exists_of_bind_eq_ok hp
    obtain ⟨l, -, hp⟩ := exists_of_bind_eq_ok hp
    exact lt_ncols_of_mem_records hp

/-- In the dual of a valid store, the records that functions have expanded to have their heads once:
their members are the multipliers of different rows. -/
theorem Valid.headOnce_dual [Scalar.Units α] (hs : s.Valid) {d : ConeProgram α}
    (hp : s.coneProgram = .ok p) (hd : s.dualProgram = .ok d) {k : Nat} {r : List Nat}
    (hr : d.records[k]? = some r) (hk : k + s.cones.length < p.records.length) : HeadOnce r := by
  obtain ⟨L⟩ := hs.nonempty_layout
  obtain rfl := Except.ok.inj ((L.coneProgram_eq_ok hs).symm.trans hp)
  rw [dualProgram_of_ok hp, linearDualProgram_of_ok hp] at hd
  obtain ⟨l, hl, hd⟩ := exists_of_bind_eq_ok hd
  obtain rfl := LinearProgram.eq_of_dualize_eq_ok hl
  have hrecords : (s.assembled L.expansion).records =
      L.cones.records ++ s.cones.map (·.record) := by
    rw [assembled, L.records_expansion]
  rw [hrecords, List.length_append, List.length_map, Nat.add_lt_add_iff_right] at hk
  rw [(eq_of_deriveDual_eq_ok hd).1, hrecords, List.getElem?_map, List.getElem?_append_left hk,
    List.getElem?_eq_getElem hk] at hr
  obtain rfl := Option.some.inj hr
  have hmem := List.getElem_mem hk
  rw [L.dualRecord_eq hs hmem]
  refine headOnce_of_nodup ((L.nodup_map_row hs).sublist ?_)
  exact List.sublist_flatten_of_mem (List.mem_map_of_mem hmem)

end ConeStore

/-- **The tables of canonical programs and of their duals.** A row shows its record exactly if the
head of the record is not among the others, and exactly then its apex. In a canonical program that
is so for all records but those of direct memberships whose apex is among their vector; in the dual
of a reachable model it is so for all records that functions have expanded to. -/
theorem Workspace.recordTable_shows [Scalar.Units α] (hsigns : Scalar.DistinctSigns α)
    {ms : List (AnyModel α)} (h : Workspace ms) {m : ConeModel α} (hm : .cone m ∈ ms) :
    (∀ q, m.primal.1 = .ok q ∨ m.dual.1 = .ok q → q.value.Tabulated) ∧
      (∀ p, m.primal.1 = .ok p → ((∀ r ∈ p.value.records, ConeProgram.HeadOnce r) ↔
        ∀ c ∈ m.store.cones, c.apexColumn ∉ c.vectorColumns)) ∧
      (m.Reachable → ∀ p d, m.primal.1 = .ok p → m.dual.1 = .ok d → ∀ k r,
        d.value.records[k]? = some r → k + m.store.cones.length < p.value.records.length →
          ConeProgram.HeadOnce r) := by
  obtain ⟨n, hms⟩ := h.exists_within
  obtain ⟨hcurrent, hover, hcount⟩ := hms _ hm
  have hprimal : ∀ p, m.primal.1 = .ok p → m.store.coneProgram = .ok p.value := fun p =>
    Handle.eq_ok_of_map_eq (ConeModel.Current.primal_spec hcurrent).1
  have hdual : ∀ d, m.dual.1 = .ok d → m.store.dualProgram = .ok d.value := fun d =>
    Handle.eq_ok_of_map_eq (ConeModel.Current.dual_spec hcurrent).1
  refine ⟨fun q hq => ?_, fun p hp => ?_, fun hreachable p d hp hd k r hr hk => ?_⟩
  · have hlt := ConeStore.lt_ncols_of_program (hq.imp (hprimal q) (hdual q))
    exact ConeProgram.tabulated hsigns hlt
  · exact ConeStore.Over.headOnce_iff hover hcount (hprimal p hp)
  · exact hreachable.valid.store.headOnce_dual (hprimal p hp) (hdual d hd) hr hk

theorem Workspace.recordTable_shows_boundedNorm : Scalar.DistinctSigns ℚ ∧
    Workspace [.cone ConeModel.boundedNorm] ∧
    AnyModel.cone ConeModel.boundedNorm ∈ [AnyModel.cone ConeModel.boundedNorm] ∧
    ∃ p, ConeModel.boundedNorm.primal.1 = .ok p ∧ p.value.Tabulated ∧
      ∀ r ∈ p.value.records, ConeProgram.HeadOnce r := by
  have hm := ConeModel.reachable_boundedNorm
  have hworkspace :=
    (AnyModel.Reachable.session (m := .cone ConeModel.boundedNorm) hm).workspace
  obtain ⟨htabulated, hheads, -⟩ :=
    hworkspace.recordTable_shows Scalar.distinctSigns (List.mem_singleton_self _)
  obtain ⟨e, -, hprogram⟩ := hm.valid.store.exists_coneProgram
  obtain ⟨p, hp, -⟩ := Handle.exists_of_map_eq_ok (hm.valid.primal_spec.1.trans hprogram)
  refine ⟨Scalar.distinctSigns, hworkspace, List.mem_singleton_self _, p, hp,
    htabulated p (.inl hp), (hheads p hp).mpr ?_⟩
  rw [ConeModel.store_boundedNorm]
  decide

/-! ### A model of a membership -/

/-- A membership of a block under one of its own elements. -/
def ConeConstraint.ofElement (b : Block) (i : Nat) (h : i < b.size) : ConeConstraint :=
  ⟨⟨b, [i], by simpa using h⟩, b.all, rfl, rfl⟩

/-- The membership of two columns under the first of them. -/
def loop : ConeConstraint := .ofElement ConeModel.pair 0 (by decide)

/-- A model that holds the membership. -/
def looped : ConeModel ℚ :=
  ((ConeModel.empty ⟨0⟩ {} none).after (.declare (.vector 2) .continuous none)).after
    (.subjectTo (.leaf (.cone loop)))

theorem store_looped : looped.store =
    ⟨⟨⟨0⟩, none, {}, [ConeModel.pair], [], [], [], none⟩, [], [loop]⟩ := by
  unfold looped
  simp only [ConeModel.after, ConeModel.subjectTo, Collection.flatten, Collection.walk]
  rfl

theorem reachable_looped : looped.Reachable := by
  have hpair : ConeModel.pair ∈
      [Store.objectiveBlock (.empty ⟨0⟩ {} none : Store ℚ), ConeModel.pair] := by simp
  have hloop : ConeConstraint.ofSelections loop.vector loop.apex = .ok loop := rfl
  exact .after (.after (.empty ..) trivial) (.leaf (.cone hpair hpair hloop))

/-- **An apex that the table does not show.** The row of a direct membership has a one at the apex,
which is among the vector, and no minus one. -/
theorem exists_apex_not_shown : ∃ (m : ConeModel ℚ) (p : Handle (ConeProgram ℚ)), m.Reachable ∧
    m.primal.1 = .ok p ∧ p.value.records[0]? = some [1, 1, 2] ∧
    p.value.recordTable.coefficients.get 0 1 = 1 ∧
    ∀ j < p.value.linear.ncols, p.value.recordTable.coefficients.get 0 j ≠ -1 := by
  have hcheck : (do
      let s : ConeStore ℚ := ⟨⟨⟨0⟩, none, {}, [ConeModel.pair], [], [], [], none⟩, [], [loop]⟩
      let p ← s.coneProgram
      return decide (p.records[0]? = some [1, 1, 2] ∧ p.recordTable.coefficients.get 0 1 = 1 ∧
        ∀ j < p.linear.ncols, p.recordTable.coefficients.get 0 j ≠ -1)) = Except.ok true := by
    decide +kernel
  obtain ⟨p, hp, h⟩ := exists_of_bind_eq_ok hcheck
  obtain ⟨hrecord, hcell, hnone⟩ := of_decide_eq_true (Except.ok.inj h)
  rw [← store_looped] at hp
  obtain ⟨q, hq, rfl⟩ := Handle.exists_of_map_eq_ok
    (reachable_looped.valid.primal_spec.1.trans hp)
  exact ⟨looped, q, reachable_looped, hq, hrecord, hcell, hnone⟩

end ConicForm
