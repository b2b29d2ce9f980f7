import ConicForm.Proofs.Canonical.Existence
import ConicForm.Proofs.Canonical.Expansion
import ConicForm.Proofs.Duality.Gap

/-!
# Identity rows

Each member of a record of an expansion is an auxiliary column with one row, which sets it from the
columns of the model. No other row of the expansion has a coefficient of it, nor has one of the
pieces before or behind, and no finite bound of it stands as a further row.

## Main definitions

* `MentionedOnce`: columns with a coefficient in at most one row
* `Expansion.Identified`: expansions whose records are over such columns

## Main results

* `mentionedOnce_of_ties`: rows that tie blocks one after another mention their columns once
* `Piece.Scoped.identified`, `identified_expandAll`: the expansions of pieces
* `Store.Valid.eq_of_rowValue_assembled_ne_zero`: the assembled program has one row for each of them
* `Store.Valid.column_lt_of_mem_boundRows_assembled`: further rows are for declared columns
* `ConeStore.Valid.exists_coneProgram_identified`: the canonical program of a valid store
-/

namespace ConicForm

variable {K : Type} [Field K] [LinearOrder K]

/-! ## Columns with one row -/

/-- Whether a column has a coefficient in at most one of all rows. -/
structure MentionedOnce (cs : List (LinearConstraint K)) (j : Nat) : Prop where
  blocks : cs.Pairwise fun c d => c.Mentions j → ¬d.Mentions j
  rows : ∀ c ∈ cs, ∀ i < c.length, ∀ k < c.length, c.linear.rowValue (Pi.single j 1) i ≠ 0 →
    c.linear.rowValue (Pi.single j 1) k ≠ 0 → i = k

section MentionedOnce

variable {cs ds : List (LinearConstraint K)} {c : LinearConstraint K} {j n next : Nat}

theorem mentionedOnce_of_not_mentions (h : ∀ c ∈ cs, ¬c.Mentions j) : MentionedOnce cs j where
  blocks := List.pairwise_of_forall_mem_list fun c hc _ _ hm => absurd hm (h c hc)
  rows c hc i hi _ _ hne _ := absurd ⟨i, hi, hne⟩ (h c hc)

theorem MentionedOnce.append (hc : MentionedOnce cs j) (hd : MentionedOnce ds j)
    (h : (∀ c ∈ cs, ¬c.Mentions j) ∨ ∀ d ∈ ds, ¬d.Mentions j) : MentionedOnce (cs ++ ds) j where
  blocks := by
    refine List.pairwise_append.mpr ⟨hc.blocks, hd.blocks, ?_⟩
    intro c hc d hd hmc hmd
    rcases h with h | h
    · exact h c hc hmc
    · exact h d hd hmd
  rows := List.forall_mem_append.mpr ⟨hc.rows, hd.rows⟩

/-- Rows that tie blocks one after another, each its own, mention the columns of these once. -/
theorem mentionedOnce_of_ties (hn : n ≤ next) {bs : List Block} (hlaid : Block.Laid next bs)
    (h : List.Forall₂ (LinearConstraint.Ties n) bs cs) (hj : n ≤ j) :
    MentionedOnce cs j ∧ ∀ c ∈ cs, c.Mentions j → next ≤ j := by
  induction h generalizing next with
  | nil => exact ⟨mentionedOnce_of_not_mentions (by simp), by simp⟩
  | @cons b c bs cs htie _ ih =>
    obtain ⟨rfl, hlaid⟩ := hlaid
    have hstop : b.first ≤ b.stop := Nat.le_add_right _ _
    obtain ⟨honce, hbehind⟩ := ih (hn.trans hstop) hlaid
    refine ⟨⟨List.pairwise_cons.mpr ⟨?_, honce.blocks⟩, ?_⟩, ?_⟩
    · intro d hd hmc hmd
      have hlt := (Block.mem_columns.mp (htie.mem_columns hj hmc)).2
      have hle := hbehind d hd hmd
      omega
    · refine List.forall_mem_cons.mpr ⟨?_, honce.rows⟩
      intro i hi k hk hnei hnek
      have hi := (htie i hi j hj hnei).2
      have hk := (htie k hk j hj hnek).2
      omega
    · refine List.forall_mem_cons.mpr ⟨fun hm => ?_, fun d hd hm => ?_⟩
      · exact (Block.mem_columns.mp (htie.mem_columns hj hm)).1
      · exact hstop.trans (hbehind d hd hm)

/-! ## Stacked rows -/

/-- A coefficient of a stack is one of its first block, or one of the stack of the others. -/
theorem rowValue_stack_cons_cases (h : ∀ d ∈ c :: cs, d.linear.ncols ≤ n) {i : Nat}
    (hne : (SparseMatrix.stack ((c :: cs).map (·.linear)) n).rowValue (Pi.single j 1) i ≠ 0) :
    (i < c.length ∧ c.linear.rowValue (Pi.single j 1) i ≠ 0) ∨
      ∃ k, i = c.length + k ∧
        (SparseMatrix.stack (cs.map (·.linear)) n).rowValue (Pi.single j 1) k ≠ 0 := by
  have hms : ∀ m ∈ c.linear :: cs.map (·.linear), m.ncols ≤ n := by simpa using h
  by_cases hi : i < c.length
  · rw [List.map_cons, SparseMatrix.rowValue_stack_of_lt _ hms i hi] at hne
    exact .inl ⟨hi, hne⟩
  · obtain ⟨k, rfl⟩ := Nat.exists_eq_add_of_le (Nat.not_lt.mp hi)
    rw [List.map_cons, LinearConstraint.length, SparseMatrix.rowValue_stack_add _ hms] at hne
    exact .inr ⟨k, rfl, hne⟩

theorem exists_mentions_of_stack (h : ∀ c ∈ cs, c.linear.ncols ≤ n) {i : Nat}
    (hne : (SparseMatrix.stack (cs.map (·.linear)) n).rowValue (Pi.single j 1) i ≠ 0) :
    ∃ c ∈ cs, c.Mentions j := by
  induction cs generalizing i with
  | nil => exact absurd (SparseMatrix.rowValue_of_nrows_le (Nat.zero_le _) _) hne
  | cons c cs ih =>
    rcases rowValue_stack_cons_cases h hne with ⟨hi, hrow⟩ | ⟨k, rfl, hrow⟩
    · exact ⟨c, List.mem_cons_self, i, hi, hrow⟩
    · obtain ⟨d, hd, hm⟩ := ih (fun d hd => h d (List.mem_cons_of_mem _ hd)) hrow
      exact ⟨d, List.mem_cons_of_mem _ hd, hm⟩

/-- The rows of a stack in which a column that is mentioned once has a coefficient are one. -/
theorem MentionedOnce.eq_of_stack (honce : MentionedOnce cs j) (h : ∀ c ∈ cs, c.linear.ncols ≤ n)
    {i k : Nat}
    (hi : (SparseMatrix.stack (cs.map (·.linear)) n).rowValue (Pi.single j 1) i ≠ 0)
    (hk : (SparseMatrix.stack (cs.map (·.linear)) n).rowValue (Pi.single j 1) k ≠ 0) : i = k := by
  induction cs generalizing i k with
  | nil => exact absurd (SparseMatrix.rowValue_of_nrows_le (Nat.zero_le _) _) hi
  | cons c cs ih =>
    have hcs : ∀ d ∈ cs, d.linear.ncols ≤ n := fun d hd => h d (List.mem_cons_of_mem _ hd)
    obtain ⟨hc, hblocks⟩ := List.pairwise_cons.mp honce.blocks
    obtain ⟨hrows, hrest⟩ := List.forall_mem_cons.mp honce.rows
    rcases rowValue_stack_cons_cases h hi with ⟨hilt, hine⟩ | ⟨i', rfl, hine⟩ <;>
      rcases rowValue_stack_cons_cases h hk with ⟨hklt, hkne⟩ | ⟨k', rfl, hkne⟩
    · exact hrows i hilt k hklt hine hkne
    · obtain ⟨d, hd, hm⟩ := exists_mentions_of_stack hcs hkne
      exact absurd hm (hc d hd ⟨i, hilt, hine⟩)
    · obtain ⟨d, hd, hm⟩ := exists_mentions_of_stack hcs hine
      exact absurd hm (hc d hd ⟨k, hklt, hkne⟩)
    · rw [ih ⟨hblocks, hrest⟩ hcs hine hkne]

end MentionedOnce

/-! ## Expansions -/

/-- Behind the first `n` columns, rows use the columns from `next` on only, and the members of
records have a coefficient in one row at most. -/
structure Expansion.Identified (e : Expansion K) (n next : Nat) : Prop
    extends e.Confined next where
  own : ∀ c ∈ e.rows, ∀ j, n ≤ j → c.Mentions j → next ≤ j
  once : ∀ r ∈ e.records, ∀ j ∈ r, MentionedOnce e.rows j

namespace Expansion

variable {e f : Expansion K} {n next : Nat}

theorem Identified.append (hn : n ≤ next) (he : e.Identified n next)
    (hf : f.Identified n (next + e.width)) : (e.append f).Identified n next where
  toConfined := he.toConfined.append hf.toConfined
  own := by
    refine List.forall_mem_append.mpr ⟨he.own, ?_⟩
    intro c hc j hj hm
    exact (Nat.le_add_right _ _).trans (hf.own c hc j hj hm)
  once := by
    refine List.forall_mem_append.mpr ⟨?_, ?_⟩
    · intro r hr j hj
      obtain ⟨hlo, hhi⟩ := (he.records r hr).2 j hj
      have hnot : ∀ c ∈ f.rows, ¬c.Mentions j := by
        intro c hc hm
        have hle := hf.own c hc j (hn.trans hlo) hm
        omega
      exact (he.once r hr j hj).append (mentionedOnce_of_not_mentions hnot) (.inr hnot)
    · intro r hr j hj
      have hlo := ((hf.records r hr).2 j hj).1
      have hnot : ∀ c ∈ e.rows, ¬c.Mentions j := fun c hc =>
        LinearConstraint.not_mentions_of_ncols_le ((he.rows c hc).trans hlo)
      exact (mentionedOnce_of_not_mentions hnot).append (hf.once r hr j hj) (.inl hnot)

/-- Rows over the first columns are an expansion without records. -/
theorem identified_of_ncols_le (he : e.Confined next) (hrecords : e.records = [])
    (h : ∀ c ∈ e.rows, c.linear.ncols ≤ n) : e.Identified n next where
  toConfined := he
  own c hc _ hj hm := absurd hm (LinearConstraint.not_mentions_of_ncols_le ((h c hc).trans hj))
  once := by simp [hrecords]

/-- An expansion whose rows tie its blocks one after another. -/
theorem identified_of_ties (hn : n ≤ next) (he : e.Confined next) {bs : List Block}
    (hlaid : Block.Laid next bs) (h : List.Forall₂ (LinearConstraint.Ties n) bs e.rows) :
    e.Identified n next where
  toConfined := he
  own c hc _ hj hm := (mentionedOnce_of_ties hn hlaid h hj).2 c hc hm
  once r hr j hj := (mentionedOnce_of_ties hn hlaid h (hn.trans ((he.records r hr).2 j hj).1)).1

end Expansion

namespace ConvexConstraint

variable [IsStrictOrderedRing K] {id : ModelId} {n next : Nat} {e : Expansion K}

/-- The rows of functions of elements are over the columns of the model, those of a sum of absolute
values over its auxiliary columns as well, and there are no records. -/
theorem Scoped.identified_expandPiecewise {c : ConvexConstraint PiecewiseKind K} (hn : n ≤ next)
    (hc : c.Scoped PiecewiseKind.elementwise id n) (he : e.Confined next)
    (h : c.expandPiecewise id next = .ok e) : e.Identified n next := by
  by_cases hk : c.kind = .norm1
  · obtain ⟨rows, h', -, hown, -⟩ := exists_norm1Rows
      (hn.trans (Nat.le_add_right _ _)) le_rfl hc hk rfl
    obtain rfl := Except.ok.inj (h'.symm.trans h)
    exact ⟨he, hown, by simp⟩
  · obtain ⟨rows, h', hw, -⟩ := exists_elementRows hc hk
    obtain rfl := Except.ok.inj ((h' next).symm.trans h)
    exact Expansion.identified_of_ncols_le he rfl hw

/-- Each row of a function that cones describe ties an auxiliary column to columns of the model. -/
theorem Scoped.identified_expandConic {c : ConvexConstraint ConicKind K} (hn : n ≤ next)
    (hc : c.Scoped ConicKind.elementwise id n) (he : e.Confined next)
    (h : c.expandConic id next = .ok e) : e.Identified n next := by
  obtain ⟨hin, hout, hsize⟩ := hc
  have hsquares : ∀ records, expandSquares id next c.input c.output records = .ok e →
      e.Identified n next := by
    intro records h
    obtain ⟨a₁, a₂, a₃, rows, h', -, hblocks, -, -, hties, -⟩ :=
      exists_squareRows records hn hin hout
    obtain rfl := Except.ok.inj (h'.symm.trans h)
    obtain ⟨hfirst₁, hsize₁, hfirst₂, hsize₂, hfirst₃, -⟩ := hblocks
    refine Expansion.identified_of_ties hn he ?_ hties
    simp only [Block.Laid, Block.stop, and_true]
    omega
  unfold expandConic at h
  split at h
  · next hk =>
    rw [hk] at hsize
    obtain ⟨rows, h', -, -, -, hties⟩ := exists_normRows hn hin hout hsize rfl rfl
    obtain rfl := Except.ok.inj (h'.symm.trans h)
    refine Expansion.identified_of_ties hn he ?_ hties
    exact ⟨rfl, rfl, trivial⟩
  · exact hsquares _ h
  · exact hsquares _ h

end ConvexConstraint

section Pieces

variable [IsStrictOrderedRing K] {id : ModelId} {n next : Nat} {e : Expansion K}

/-- The expansion of a piece over the first columns of a model has one row for each member of its
records. -/
theorem Piece.Scoped.identified {p : Piece K} (hn : n ≤ next) (hp : p.Scoped id n)
    (h : p.expand id next = .ok e) : e.Identified n next := by
  obtain ⟨f, hf, hreal⟩ := p.exists_expand (hp.mono hn)
  obtain rfl := Except.ok.inj (hf.symm.trans h)
  have he := hreal.toConfined
  cases p with
  | rows c =>
    obtain rfl := Except.ok.inj h
    exact Expansion.identified_of_ncols_le he rfl (List.forall_mem_singleton.mpr hp)
  | piecewise c => exact ConvexConstraint.Scoped.identified_expandPiecewise hn hp he h
  | conic c => exact ConvexConstraint.Scoped.identified_expandConic hn hp he h

/-- **The expansion of pieces has one row for each member of its records.** -/
theorem identified_expandAll (hn : n ≤ next) {ps : List (Piece K)} (hps : ∀ p ∈ ps, p.Scoped id n)
    (h : expandAll id next ps = .ok e) : e.Identified n next := by
  induction ps generalizing next e with
  | nil =>
    obtain rfl := Except.ok.inj h
    exact ⟨⟨by simp, by simp, by simp, by simp, by simp⟩, by simp, by simp⟩
  | cons p ps ih =>
    obtain ⟨hp, hps⟩ := List.forall_mem_cons.mp hps
    obtain ⟨f, g, hf, hg, rfl⟩ := of_expandAll_cons_eq_ok h
    exact (hp.identified hn hf).append hn (ih (hn.trans (Nat.le_add_right _ _)) hps hg)

end Pieces

/-! ## Assembled programs -/

namespace Store

variable {s : Store K} {handles : ConvexKind → Bool} {e : Expansion K} {r : List Nat} {j : Nat}

/-- A member of a record of an expansion has a coefficient in one row of the program at most. -/
theorem Valid.eq_of_rowValue_assembled_ne_zero (hs : s.Valid handles)
    (he : e.Identified s.columnCount s.columnCount) (hr : r ∈ e.records) (hj : j ∈ r) {i k : Nat}
    (hi : (s.assembled e).linear.rowValue (Pi.single j 1) i ≠ 0)
    (hk : (s.assembled e).linear.rowValue (Pi.single j 1) k ≠ 0) : i = k := by
  have hlo := ((he.records r hr).2 j hj).1
  have hstored : ∀ c ∈ s.rows, ¬c.Mentions j := fun c hc =>
    LinearConstraint.not_mentions_of_ncols_le ((hs.rows c hc).trans hlo)
  have honce : MentionedOnce (s.rows ++ e.rows) j :=
    (mentionedOnce_of_not_mentions hstored).append (he.once r hr j hj) (.inl hstored)
  refine honce.eq_of_stack ?_ hi hk
  exact List.forall_mem_append.mpr
    ⟨fun c hc => (hs.rows c hc).trans (Nat.le_add_right _ _), he.rows⟩

/-- The finite bounds that stand as further rows are those of declared columns: an auxiliary column
has no bound, or it is at least zero, which is its sign. -/
theorem Valid.column_lt_of_mem_boundRows_assembled (hs : s.Valid handles)
    (he : e.Confined s.columnCount) {b : BoundRow K} (hb : b ∈ (s.assembled e).boundRows) :
    b.column < s.columnCount := by
  obtain ⟨j, hj, hb⟩ := LinearProgram.mem_boundRows.mp hb
  rw [LinearProgram.column_of_mem_boundRowsOf hb]
  by_contra hle
  obtain ⟨i, rfl⟩ := Nat.exists_eq_add_of_le (Nat.not_lt.mp hle)
  have hi : i < e.width := Nat.lt_of_add_lt_add_left hj
  obtain ⟨hupper, hlower⟩ := bounds_assembled_add hs.bounds he.types
    (fun b hb => ⟨(he.bounds b hb).1, fun q hq => ((he.bounds b hb).2 q hq).2⟩) hi
  rw [LinearProgram.sign, hupper, LinearProgram.boundRowsOf_eq_nil hlower] at hb
  cases hb

end Store

/-- **A valid store has a canonical program** in which each member of a record of the expansion has
one row. -/
theorem ConeStore.Valid.exists_coneProgram_identified [IsStrictOrderedRing K] {s : ConeStore K}
    (hs : s.Valid) : ∃ e : Expansion K,
      e.Identified s.linear.columnCount s.linear.columnCount ∧
        s.coneProgram = .ok (s.assembled e) := by
  obtain ⟨ps, hps, hscoped, -⟩ := hs.exists_pieces
  obtain ⟨e, he, hreal⟩ := exists_expandAll le_rfl hscoped
  exact ⟨e, identified_expandAll le_rfl hscoped he,
    hs.coneProgram_eq_ok hps he hreal.toConfined.scoped⟩

end ConicForm
