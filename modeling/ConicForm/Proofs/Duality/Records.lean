import ConicForm.Proofs.Canonical.Pivot
import ConicForm.Proofs.Duality.Cone
import ConicForm.Proofs.Model.Base

/-!
# Records of the dual

A column that stands for a row is mentioned by no other row, and its bounds give no further row. In
the linear dual its row has one coefficient, that of the multiplier of its row, so that the records
of cones become records of these multipliers, member by member.

## Main results

* `LinearProgram.mem_entries_dualProgram`: the coefficients of the linear dual
* `ConeStore.Layout.dualRecord_eq`: the dual of a record of a cone
* `ConeModel.Reachable.pivot_records`: the columns of cones and their records, and those of the dual
-/

namespace ConicForm

variable {α : Type} [Scalar α]

/-! ## Coefficients of the linear dual -/

/-- A column without an upper bound is not nonpositive. -/
theorem ColumnSign.factor_ofBounds_plusInf (l : Bound α) :
    (ColumnSign.ofBounds l .plusInf).factor = (1 : α) := by
  unfold ofBounds
  by_cases hl : l.isZero
  · rw [if_pos hl]
    rfl
  · rw [if_neg hl]
    rfl

namespace LinearProgram

variable {p : LinearProgram α} (hp : p.Consistent)

include hp

/-- No two coefficients of the dual are put into one cell. -/
theorem distinctCells_dualTriplets : DistinctCells p.dualTriplets := by
  refine .append ?_ ?_ ?_
  · refine p.linear.distinctCells_entries.map _ ?_
    intro e _ f _ hrow hcol
    exact ⟨hcol, hrow⟩
  · refine List.pairwise_map.mpr (List.pairwise_iff_getElem.mpr ?_)
    intro i k hi hk hik _ hcol
    simp only [List.getElem_zipIdx] at hcol
    omega
  · intro e he f hf _ hcol
    obtain ⟨e', he', rfl⟩ := List.mem_map.mp he
    obtain ⟨⟨r, k⟩, -, rfl⟩ := List.mem_map.mp hf
    have hrow := (p.linear.in_range e' he').1
    have hlen := hp.constants
    unfold nrows at hlen
    dsimp only at hcol
    omega

/-- **The coefficients of the linear dual** are the transposed ones, each times the sign of its
column. -/
theorem mem_entries_dualProgram {e : Entry α} : e ∈ p.dualProgram.linear.entries ↔
    (∃ t ∈ p.dualTriplets, e = { t with value := (p.sign t.row).factor * t.value }) ∧
      Scalar.isZero e.value = false := by
  have hdistinct : DistinctCells (p.dualTriplets.map fun t =>
      { t with value := (p.sign t.row).factor * t.value }) :=
    (distinctCells_dualTriplets hp).map _ fun _ _ _ _ hrow hcol => ⟨hrow, hcol⟩
  show e ∈ (SparseMatrix.ofTriplets _ _ _).entries ↔ _
  rw [SparseMatrix.mem_entries_ofTriplets hdistinct]
  constructor
  · rintro ⟨he, -, hne⟩
    obtain ⟨t, ht, rfl⟩ := List.mem_map.mp he
    exact ⟨⟨t, ht, rfl⟩, hne⟩
  · rintro ⟨⟨t, ht, rfl⟩, hne⟩
    have hin := dualTriplets_inRange hp ht
    exact ⟨List.mem_map_of_mem ht, hin, hne⟩

/-- The row of a column that one row mentions, with a sign for its coefficient. -/
theorem rowPattern_dualProgram_eq [Scalar.Units α] {i j : Nat} {x : α} (hx : Scalar.IsSign x)
    (hentry : ∀ k y, (⟨k, j, y⟩ : Entry α) ∈ p.linear.entries ↔ k = i ∧ y = x)
    (hfactor : (p.sign j).factor = (1 : α)) (hbounds : ∀ r ∈ p.boundRows, r.column ≠ j) :
    p.dualProgram.linear.rowPattern j = [i] := by
  have hmem : ∀ k, k ∈ p.dualProgram.linear.rowPattern j ↔ k ∈ [i] := by
    intro k
    rw [SparseMatrix.mem_rowPattern, List.mem_singleton]
    constructor
    · rintro ⟨e, he, rfl, rfl⟩
      obtain ⟨⟨t, ht, rfl⟩, -⟩ := (mem_entries_dualProgram hp).mp he
      rcases List.mem_append.mp ht with ht | ht
      · obtain ⟨f, hf, rfl⟩ := List.mem_map.mp ht
        exact ((hentry f.row f.value).mp hf).1
      · obtain ⟨⟨r, k⟩, hr, rfl⟩ := List.mem_map.mp ht
        exact absurd rfl (hbounds r (List.fst_mem_of_mem_zipIdx hr))
    · rintro rfl
      have ht : (⟨j, k, x⟩ : Entry α) ∈ p.dualTriplets :=
        List.mem_append_left _ (List.mem_map.mpr ⟨_, (hentry k x).mpr ⟨rfl, rfl⟩, rfl⟩)
      refine ⟨⟨j, k, x⟩, (mem_entries_dualProgram hp).mpr ⟨⟨_, ht, ?_⟩, ?_⟩, rfl, rfl⟩
      · rw [hfactor, hx.one_mul]
      · exact hx.isZero_eq_false
  have hnodup : (p.dualProgram.linear.rowPattern j).Nodup :=
    (p.dualProgram.linear.sorted_rowPattern j).imp Nat.ne_of_lt
  have hperm := (List.perm_ext_iff_of_nodup hnodup (List.nodup_singleton i)).mpr hmem
  exact List.perm_singleton.mp hperm

end LinearProgram

/-! ## Duals of records -/

namespace ConeProgram

variable {p d : ConeProgram α} {dual : LinearProgram α}

/-- The upper bounds of the dual are zero at inequalities and at heads of records, if the dual of
the first member of a record has one member. -/
theorem getElem?_upper_deriveDual_iff (hp : p.linear.Consistent)
    (hd : p.deriveDual p.linear.dualProgram = .ok d) {row : Nat → Nat}
    (hpattern : ∀ r ∈ p.records, ∀ j ∈ r, p.linear.dualProgram.linear.rowPattern j = [row j])
    (i : Nat) : d.linear.upper[i]? = some (.value 0) ↔
      p.linear.allSenses[i]? = some .le ∨ ∃ r ∈ d.records, r.head? = some i := by
  have hdual := LinearProgram.dualProgram_consistent hp
  have hrecords := (eq_of_deriveDual_eq_ok hd).1
  have hhead : (∃ r ∈ p.records, i ∈ headPattern p.linear.dualProgram.linear r) ↔
      ∃ r ∈ d.records, r.head? = some i := by
    rw [hrecords]
    simp only [List.mem_map, exists_exists_and_eq_and]
    refine exists_congr fun r => and_congr_right fun hr => ?_
    cases r with
    | nil => simp [headPattern, dualRecord]
    | cons j rest =>
      have hj := hpattern _ hr j List.mem_cons_self
      simp [headPattern, dualRecord, hj, eq_comm]
  have hlen : d.linear.upper.length = p.linear.allSenses.length := by
    rw [(consistent_deriveDual hdual hd).upper, ncols_deriveDual hd,
      LinearProgram.length_allSenses hp]
  by_cases hi : i < p.linear.allSenses.length
  · have hupper : i < p.linear.dualProgram.upper.length := by
      rwa [hdual.upper, ← LinearProgram.length_allSenses hp]
    have hget : d.linear.upper[i]? = some (d.linear.upper.getD i .plusInf) := by
      rw [List.getD_eq_getElem _ _ (hlen ▸ hi), List.getElem?_eq_getElem (hlen ▸ hi)]
    have hlinear : p.linear.dualProgram.upper.getD i .plusInf = .value 0 ↔
        p.linear.allSenses[i]? = some .le := by
      rw [List.getElem?_eq_getElem hi]
      simp [LinearProgram.dualProgram, hi]
    rw [hget, getD_upper_deriveDual hd hupper, Option.some_inj, ← hhead, ← hlinear]
    split
    · next h => simp [h]
    · next h => simp [h]
  · rw [List.getElem?_eq_none (by omega), List.getElem?_eq_none (by omega)]
    refine iff_of_false (by simp) ?_
    rintro (h | ⟨r, hr, h⟩)
    · cases h
    · have hlt := lt_ncols_of_mem_records hd r hr i (List.mem_of_head? h)
      rw [ncols_deriveDual hd, ← LinearProgram.length_allSenses hp] at hlt
      exact hi hlt

end ConeProgram

namespace ConeStore.Layout

variable {s : ConeStore α} (L : s.Layout) [Scalar.Units α] (hs : s.Valid)

include hs

omit [Scalar.Units α] in
/-- A column of a cone is free or nonnegative. -/
theorem bounds_column {t : Nat} (ht : t < L.cones.width) :
    (s.linear.assembled L.expansion).upper.getD (L.next + t) .plusInf = .plusInf ∧
      ((s.linear.assembled L.expansion).lower.getD (L.next + t) .minusInf = .minusInf ∨
        (s.linear.assembled L.expansion).lower.getD (L.next + t) .minusInf = .value 0) := by
  have hexpansion : ∀ b ∈ L.expansion.bounds, b.side = .lower ∧ ∀ q ∈ b.items, q.2 = .value 0 := by
    intro b hb
    rw [L.bounds_expansion] at hb
    obtain ⟨hside, hitems⟩ := bounds_expandAll_conic L.cones_eq b hb
    exact ⟨hside, fun q hq => (hitems q hq).2⟩
  have hlt : L.before.width + t < L.expansion.width := by
    have hwidth := L.width_expansion
    unfold next at hwidth
    omega
  rw [next, Nat.add_assoc]
  exact Store.bounds_assembled_add hs.linear.bounds (L.scoped_expansion hs).types hexpansion hlt

/-- The row of a column of a cone in the linear dual mentions the multiplier of the row that the
column stands for, and no other. -/
theorem rowPattern_dual {j : Nat} (hj : j ∈ L.cones.blocks.flatMap Block.columns) :
    (s.assembled L.expansion).linear.dualProgram.linear.rowPattern j = [L.row j] := by
  obtain ⟨t, ht, rfl⟩ := (L.mem_columns_iff hs).mp hj
  obtain ⟨x, hx, hentry⟩ := L.exists_sign_assembled hs ht
  obtain ⟨hupper, hlower⟩ := L.bounds_column hs ht
  rw [row_next_add]
  refine LinearProgram.rowPattern_dualProgram_eq Store.assembled_consistent hx hentry ?_ ?_
  · unfold LinearProgram.sign
    rw [hupper]
    exact ColumnSign.factor_ofBounds_plusInf _
  · intro r hr hcolumn
    obtain ⟨k, -, hr⟩ := LinearProgram.mem_boundRows.mp hr
    obtain rfl : k = L.next + t :=
      (LinearProgram.column_of_mem_boundRowsOf hr).symm.trans hcolumn
    rw [LinearProgram.sign, hupper, LinearProgram.boundRowsOf_eq_nil hlower] at hr
    cases hr

/-- **The dual of a record of a cone** lists the multipliers of the rows of its members. -/
theorem dualRecord_eq {r : List Nat} (hr : r ∈ L.cones.records) :
    ConeProgram.dualRecord (s.assembled L.expansion).linear.dualProgram.linear r = r.map L.row := by
  have hpattern : ∀ j ∈ r,
      (s.assembled L.expansion).linear.dualProgram.linear.rowPattern j = [L.row j] := by
    intro j hj
    refine L.rowPattern_dual hs ((L.pivotal_cones hs).records.mem_iff.mp ?_)
    exact List.mem_flatten_of_mem hr hj
  unfold ConeProgram.dualRecord
  rw [List.flatMap_congr hpattern, List.map_eq_flatMap]

/-- No two members of records of cones stand for one row. -/
theorem nodup_map_row : (L.cones.records.map (·.map L.row)).flatten.Nodup := by
  have hpivotal := L.pivotal_cones hs
  rw [← List.map_flatten]
  refine hpivotal.nodup_records.map_on ?_
  intro j hj k hk hrow
  obtain ⟨t, -, rfl⟩ := (L.mem_columns_iff hs).mp (hpivotal.records.mem_iff.mp hj)
  obtain ⟨u, -, rfl⟩ := (L.mem_columns_iff hs).mp (hpivotal.records.mem_iff.mp hk)
  rw [row_next_add, row_next_add] at hrow
  rw [Nat.add_left_cancel hrow]

end ConeStore.Layout

/-! ## Reachable models -/

namespace ConeModel

variable {m : ConeModel α}

/-- **Cones own their columns, and their records become records of the dual.** Each auxiliary column
of a cone stands for a row of its own and is in one place of one record. The records of the dual
list these rows, member by member, if the columns are continuous. Without direct cones, the upper
bounds of the dual are zero at inequalities and at heads of records, and nowhere else. -/
theorem Reachable.pivot_records [Scalar.Units α] (hm : m.Reachable) :
    ∃ (L : m.store.Layout) (p : Handle (ConeProgram α)), m.primal.1 = .ok p ∧
      p.value = m.store.assembled L.expansion ∧
      (∀ b ∈ L.cones.blocks, ∀ j ∈ b.columns, p.value.Pivot (L.row j) j) ∧
      p.value.records = L.cones.records ++ m.store.cones.map (·.record) ∧
      L.cones.records.flatten.Perm (L.cones.blocks.flatMap Block.columns) ∧
      L.cones.records.flatten.Nodup ∧
      ((∀ b ∈ m.store.linear.declared, b.type = .continuous) →
        ∃ d : Handle (ConeProgram α), m.dual.1 = .ok d ∧
          d.value.records.take L.cones.records.length = L.cones.records.map (·.map L.row) ∧
          (L.cones.records.map (·.map L.row)).flatten.Nodup ∧
          (m.store.cones = [] → ∀ i, d.value.linear.upper[i]? = some (.value 0) ↔
            p.value.linear.allSenses[i]? = some .le ∨
              ∃ r ∈ d.value.records, r.head? = some i)) := by
  have hvalid := hm.valid
  obtain ⟨L⟩ := hvalid.store.nonempty_layout
  have hprogram := L.coneProgram_eq_ok hvalid.store
  have hpivotal := L.pivotal_cones hvalid.store
  obtain ⟨p, hp, hpv⟩ := Handle.exists_of_map_eq_ok (hvalid.primal_spec.1.trans hprogram)
  have hrecords : (m.store.assembled L.expansion).records =
      L.cones.records ++ m.store.cones.map (·.record) := by
    show L.expansion.records ++ _ = _
    rw [L.records_expansion]
  refine ⟨L, p, hp, hpv, ?_, ?_, hpivotal.records, hpivotal.nodup_records, ?_⟩
  · intro b hb j hj
    rw [hpv]
    exact L.pivot hvalid.store (List.mem_flatMap.mpr ⟨b, hb, hj⟩)
  · rw [hpv, hrecords]
  · intro hcontinuous
    have hdualize := LinearProgram.dualize_eq_ok _
      (Store.types_assembled hcontinuous (L.scoped_expansion hvalid.store).types)
    obtain ⟨d, hd⟩ := (m.store.assembled L.expansion).exists_deriveDual
      (m.store.assembled L.expansion).linear.dualProgram
    obtain ⟨p', l, d', -, -, hd', -, -, hdv⟩ := hvalid.exists_programs hprogram hdualize hd
    have hdrecords := (ConeProgram.eq_of_deriveDual_eq_ok hd).1
    refine ⟨d', hd', ?_, L.nodup_map_row hvalid.store, ?_⟩
    · rw [hdv, hdrecords, hrecords, List.map_append,
        List.take_left' (by rw [List.length_map])]
      exact List.map_congr_left fun r hr => L.dualRecord_eq hvalid.store hr
    · intro hcones
      have hpattern : ∀ r ∈ (m.store.assembled L.expansion).records, ∀ j ∈ r,
          (m.store.assembled L.expansion).linear.dualProgram.linear.rowPattern j = [L.row j] := by
        rw [hrecords, hcones, List.map_nil, List.append_nil]
        intro r hr j hj
        refine L.rowPattern_dual hvalid.store (hpivotal.records.mem_iff.mp ?_)
        exact List.mem_flatten_of_mem hr hj
      rw [hdv, hpv]
      exact ConeProgram.getElem?_upper_deriveDual_iff Store.assembled_consistent hd hpattern

/-- The copies of a norm's bound and input, in the columns 5, 3 and 4, stand for the rows 3, 1
and 2. -/
theorem pivot_records_rounded : ∃ v w, (rounded v w).Reachable ∧
    (∀ b ∈ (rounded v w).store.linear.declared, b.type = .continuous) ∧
    (rounded v w).store.cones = [] ∧
    ∃ p d, (rounded v w).primal.1 = .ok p ∧ (rounded v w).dual.1 = .ok d ∧
      p.value.records = [[5, 3, 4]] ∧ d.value.records = [[3, 1, 2]] ∧
      p.value.Pivot 3 5 ∧ p.value.Pivot 1 3 ∧ p.value.Pivot 2 4 ∧
      d.value.linear.upper[3]? = some (.value 0) := by
  obtain ⟨v, w, hm, -, hdeclared, hcones, p, q, l, d, hp, -, hl, hd, -, -, hrecords, hdual⟩ :=
    exists_rounded
  have hcontinuous : ∀ b ∈ (rounded v w).store.linear.declared, b.type = .continuous := by
    rw [hdeclared]
    simp [pair]
  obtain ⟨L, p₁, hp₁, -, hpivot, hp₁records, hperm, -, hdual₁⟩ := hm.pivot_records
  obtain ⟨d₁, hd₁, hd₁records, -, hupper⟩ := hdual₁ hcontinuous
  obtain ⟨p₂, l₂, d₂, hp₂, -, hd₂, rfl, -, rfl⟩ := hm.valid.exists_programs hp hl hd
  obtain rfl := Except.ok.inj (hp₂.symm.trans hp₁)
  obtain rfl := Except.ok.inj (hd₂.symm.trans hd₁)
  have hcone : L.cones.records = [[5, 3, 4]] := by
    rw [← hrecords, hp₁records, hcones, List.map_nil, List.append_nil]
  rw [hcone, hdual] at hd₁records
  obtain ⟨h₅, h₃, h₄⟩ : 3 = L.row 5 ∧ 1 = L.row 3 ∧ 2 = L.row 4 := by simpa using hd₁records
  have hrow : ∀ j ∈ [5, 3, 4], p₂.value.Pivot (L.row j) j := by
    intro j hj
    have hmem : j ∈ L.cones.records.flatten := by
      rw [hcone]
      simpa using hj
    obtain ⟨b, hb, hjb⟩ := List.mem_flatMap.mp (hperm.mem_iff.mp hmem)
    exact hpivot b hb j hjb
  refine ⟨v, w, hm, hcontinuous, hcones, p₂, d₂, hp₂, hd₂, hrecords, hdual, ?_, ?_, ?_, ?_⟩
  · rw [h₅]
    exact hrow 5 (by simp)
  · rw [h₃]
    exact hrow 3 (by simp)
  · rw [h₄]
    exact hrow 4 (by simp)
  · refine (hupper hcones 3).mpr (.inr ⟨[3, 1, 2], ?_, rfl⟩)
    rw [hdual]
    exact List.mem_singleton_self _

end ConeModel

end ConicForm
