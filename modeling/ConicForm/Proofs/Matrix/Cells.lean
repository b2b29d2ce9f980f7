import Mathlib.Data.List.Nodup
import ConicForm.Matrix.Operations

/-!
# Entries of matrix operations

Triplets that all lie in different cells are never added up: a matrix built from them stores them as
they are, apart from zeros and those out of range. Whatever the scalars are, the entries of an
operation can then be read off from those of its operands, and two matrices with the same entries
are equal.

## Main definitions

* `DistinctCells`: entries of which no two lie in one cell

## Main results

* `SparseMatrix.mem_entries_ofTriplets`: the entries of a matrix of triplets in different cells
* `SparseMatrix.eq_of_mem_entries_iff`: a matrix is known by its size and its entries
* `SparseMatrix.mem_entries_add`, `SparseMatrix.mem_entries_scale`,
  `SparseMatrix.mem_entries_sumRows`, `SparseMatrix.mem_entries_selectRows`,
  `SparseMatrix.mem_entries_stack`: operations
-/

namespace ConicForm

variable {α : Type}

/-! ## Distinct cells -/

/-- Entries of which no two lie in one cell. -/
def DistinctCells (es : List (Entry α)) : Prop :=
  es.Pairwise fun e f => e.row = f.row → e.col ≠ f.col

namespace DistinctCells

theorem of_perm {es fs : List (Entry α)} (h : es.Perm fs) (hes : DistinctCells es) :
    DistinctCells fs :=
  (h.pairwise_iff fun hef hrow hcol => hef hrow.symm hcol.symm).mp hes

theorem of_sorted {es : List (Entry α)} (h : es.Pairwise Entry.Before) : DistinctCells es := by
  refine h.imp ?_
  intro e f hef hrow hcol
  unfold Entry.Before at hef
  omega

theorem append {es fs : List (Entry α)} (hes : DistinctCells es) (hfs : DistinctCells fs)
    (h : ∀ e ∈ es, ∀ f ∈ fs, e.row = f.row → e.col ≠ f.col) : DistinctCells (es ++ fs) :=
  List.pairwise_append.mpr ⟨hes, hfs, h⟩

/-- Entries that are moved stay in different cells if no two cells become one. -/
theorem map {β : Type} {es : List (Entry α)} (hes : DistinctCells es) (g : Entry α → Entry β)
    (h : ∀ e ∈ es, ∀ f ∈ es, (g e).row = (g f).row → (g e).col = (g f).col →
      e.row = f.row ∧ e.col = f.col) : DistinctCells (es.map g) := by
  refine List.pairwise_map.mpr (hes.imp_of_mem ?_)
  intro e f he hf hef hrow hcol
  obtain ⟨hrow', hcol'⟩ := h e he f hf hrow hcol
  exact hef hrow' hcol'

end DistinctCells

section Gather

variable [Add α]

/-- A triplet of a new cell is an entry of its own. -/
theorem accumulate_perm {e : Entry α} {es : List (Entry α)}
    (h : ∀ f ∈ es, e.row = f.row → e.col ≠ f.col) : (accumulate e es).Perm (e :: es) := by
  induction es with
  | nil => exact .refl _
  | cons f fs ih =>
    obtain ⟨hf, hfs⟩ := List.forall_mem_cons.mp h
    unfold accumulate
    split
    · exact .refl _
    · next hbefore =>
      split
      · exact ((ih hfs).cons f).trans (.swap e f fs)
      · next hbehind =>
        obtain ⟨hrow, hcol⟩ := Entry.cell_eq_of_not_before hbefore hbehind
        exact absurd hcol (hf hrow)

/-- **Triplets in different cells are gathered as they are.** -/
theorem gather_perm {ts : List (Entry α)} (h : DistinctCells ts) : (gather ts).Perm ts := by
  suffices hs : ∀ es : List (Entry α), DistinctCells (es ++ ts) →
      (ts.foldl (fun es e => accumulate e es) es).Perm (es ++ ts) from hs [] h
  clear h
  induction ts with
  | nil =>
    intro es _
    rw [List.append_nil]
    exact .refl _
  | cons e ts ih =>
    intro es h
    obtain ⟨-, -, hdiffer⟩ := List.pairwise_append.mp h
    have hnew : ∀ f ∈ es, e.row = f.row → e.col ≠ f.col := by
      intro f hf hrow hcol
      exact hdiffer f hf e List.mem_cons_self hrow.symm hcol.symm
    have hstep : (accumulate e es ++ ts).Perm (es ++ e :: ts) :=
      ((accumulate_perm hnew).append_right ts).trans List.perm_middle.symm
    exact (ih _ (h.of_perm hstep.symm)).trans hstep

end Gather

variable [Scalar α]

namespace SparseMatrix

variable {m n : SparseMatrix α} {e : Entry α} {nrows ncols : Nat} {ts : List (Entry α)}

/-! ## Matrices of triplets -/

theorem exists_cell_of_mem_ofTriplets (h : e ∈ (ofTriplets nrows ncols ts).entries) :
    ∃ t ∈ ts, e.row = t.row ∧ e.col = t.col := by
  obtain ⟨t, ht, hcell⟩ := exists_cell_of_mem_gather (List.mem_filter.mp h).1
  exact ⟨t, (List.mem_filter.mp (mem_summationOrder.mp ht)).1, hcell⟩

theorem entries_ofTriplets_nil : (ofTriplets nrows ncols ([] : List (Entry α))).entries = [] := by
  refine List.eq_nil_iff_forall_not_mem.mpr ?_
  intro e he
  obtain ⟨t, ht, -⟩ := exists_cell_of_mem_ofTriplets he
  cases ht

/-- **The entries of a matrix of triplets in different cells** are the triplets in range that are
not zero. -/
theorem mem_entries_ofTriplets (h : DistinctCells ts) :
    e ∈ (ofTriplets nrows ncols ts).entries ↔
      e ∈ ts ∧ e.InRange nrows ncols ∧ Scalar.isZero e.value = false := by
  have hdistinct : DistinctCells (summationOrder (ts.filter fun e => e.InRange nrows ncols)) :=
    .of_perm (summationOrder_perm _).symm (h.filter _)
  unfold ofTriplets
  rw [List.mem_filter, (gather_perm hdistinct).mem_iff, mem_summationOrder, List.mem_filter]
  simp [and_assoc]

theorem distinctCells_entries (m : SparseMatrix α) : DistinctCells m.entries := .of_sorted m.sorted

theorem nodup_entries (m : SparseMatrix α) : m.entries.Nodup := by
  refine m.sorted.imp ?_
  rintro e f hef rfl
  unfold Entry.Before at hef
  omega

/-- Matrices of one size with the same entries are equal. -/
theorem eq_of_mem_entries_iff (hrows : m.nrows = n.nrows) (hcols : m.ncols = n.ncols)
    (h : ∀ e, e ∈ m.entries ↔ e ∈ n.entries) : m = n := by
  have hperm : m.entries.Perm n.entries :=
    (List.perm_ext_iff_of_nodup m.nodup_entries n.nodup_entries).mpr h
  refine ext hrows hcols (hperm.eq_of_pairwise ?_ m.sorted n.sorted)
  intro e f _ _ hef hfe
  unfold Entry.Before at hef hfe
  omega

/-! ## Operations -/

theorem mem_entries_scale {a : α} : e ∈ (m.scale a).entries ↔
    ∃ f ∈ m.entries, e = { f with value := f.value * a } ∧ Scalar.isZero (f.value * a) = false := by
  have hdistinct : DistinctCells (m.entries.map fun f => { f with value := f.value * a }) :=
    m.distinctCells_entries.map _ fun _ _ _ _ hrow hcol => ⟨hrow, hcol⟩
  unfold scale StoredMatrix.scale
  rw [mem_entries_ofTriplets hdistinct]
  constructor
  · rintro ⟨he, -, hne⟩
    obtain ⟨f, hf, rfl⟩ := List.mem_map.mp he
    exact ⟨f, hf, rfl, hne⟩
  · rintro ⟨f, hf, rfl, hne⟩
    exact ⟨List.mem_map_of_mem hf, m.in_range f hf, hne⟩

/-- Matrices without a common cell have the entries of both as those of their sum. -/
theorem mem_entries_add (hrows : n.nrows ≤ m.nrows)
    (h : ∀ e ∈ m.entries, ∀ f ∈ n.entries, e.row = f.row → e.col ≠ f.col) :
    e ∈ (m.add n).entries ↔ e ∈ m.entries ∨ e ∈ n.entries := by
  unfold add StoredMatrix.add
  rw [mem_entries_ofTriplets (m.distinctCells_entries.append n.distinctCells_entries h),
    List.mem_append]
  constructor
  · exact And.left
  · intro he
    refine ⟨he, ?_⟩
    rcases he with he | he
    · obtain ⟨hrow, hcol⟩ := m.in_range e he
      exact ⟨⟨hrow, Nat.lt_of_lt_of_le hcol (Nat.le_max_left ..)⟩, m.nonzero e he⟩
    · obtain ⟨hrow, hcol⟩ := n.in_range e he
      exact ⟨⟨Nat.lt_of_lt_of_le hrow hrows,
        Nat.lt_of_lt_of_le hcol (Nat.le_max_right ..)⟩, n.nonzero e he⟩

/-- Rows with no common column have the entries of all as those of their sum. -/
theorem mem_entries_sumRows (h : ∀ e ∈ m.entries, ∀ f ∈ m.entries, e.col = f.col → e.row = f.row) :
    e ∈ m.sumRows.entries ↔ ∃ f ∈ m.entries, e = { f with row := 0 } := by
  have hdistinct : DistinctCells (m.entries.map fun f => { f with row := 0 }) :=
    m.distinctCells_entries.map _ fun f hf g hg _ hcol => ⟨h f hf g hg hcol, hcol⟩
  unfold sumRows StoredMatrix.sumRows
  rw [mem_entries_ofTriplets hdistinct]
  constructor
  · rintro ⟨he, -⟩
    obtain ⟨f, hf, rfl⟩ := List.mem_map.mp he
    exact ⟨f, hf, rfl⟩
  · rintro ⟨f, hf, rfl⟩
    exact ⟨List.mem_map_of_mem hf, ⟨Nat.one_pos, (m.in_range f hf).2⟩, m.nonzero f hf⟩

/-- The copies of an entry in the rows that select its own. -/
def copies (selected : List Nat) (f : Entry α) : List (Entry α) :=
  selected.zipIdx.filterMap fun (i, k) => if i = f.row then some { f with row := k } else none

omit [Scalar α] in
theorem mem_copies {selected : List Nat} {f : Entry α} :
    e ∈ copies selected f ↔ selected[e.row]? = some f.row ∧ e = { f with row := e.row } := by
  simp only [copies, List.mem_filterMap, Prod.exists, List.mem_zipIdx_iff_getElem?,
    Option.ite_none_right_eq_some, Option.some.injEq]
  constructor
  · rintro ⟨i, k, hk, rfl, rfl⟩
    exact ⟨hk, rfl⟩
  · rintro ⟨hk, he⟩
    exact ⟨f.row, e.row, hk, rfl, he.symm⟩

omit [Scalar α] in
theorem distinctCells_copies (selected : List Nat) (f : Entry α) :
    DistinctCells (copies selected f) := by
  have hpositions : selected.zipIdx.Pairwise fun a b => a.2 ≠ b.2 := by
    refine List.pairwise_map.mp ?_
    rw [List.zipIdx_map_snd]
    exact List.nodup_range'
  refine List.pairwise_filterMap.mpr (hpositions.imp ?_)
  intro a b hab g hg k hk hrow
  obtain ⟨-, hg⟩ := Option.ite_none_right_eq_some.mp hg
  obtain ⟨-, hk⟩ := Option.ite_none_right_eq_some.mp hk
  rw [← Option.some.inj hg, ← Option.some.inj hk] at hrow
  exact absurd hrow hab

theorem distinctCells_selected (selected : List Nat) :
    DistinctCells (m.entries.flatMap (copies selected)) := by
  refine List.pairwise_flatMap.mpr ⟨fun f _ => distinctCells_copies selected f, ?_⟩
  refine m.distinctCells_entries.imp ?_
  intro f g hfg a ha b hb hrow hcol
  obtain ⟨hf, hfa⟩ := mem_copies.mp ha
  obtain ⟨hg, hgb⟩ := mem_copies.mp hb
  rw [hrow, hg] at hf
  rw [hfa, hgb] at hcol
  exact hfg (Option.some.inj hf).symm hcol

/-- The entries of a selection are those of the selected rows, each as often as its row is
selected. -/
theorem mem_entries_selectRows {selected : List Nat} : e ∈ (m.selectRows selected).entries ↔
    ∃ i, selected[e.row]? = some i ∧ { e with row := i } ∈ m.entries := by
  show e ∈ (ofTriplets _ _ (m.entries.flatMap (copies selected))).entries ↔ _
  rw [mem_entries_ofTriplets (distinctCells_selected selected), List.mem_flatMap]
  constructor
  · rintro ⟨⟨f, hf, he⟩, -⟩
    obtain ⟨hrow, he⟩ := mem_copies.mp he
    refine ⟨f.row, hrow, ?_⟩
    rw [he]
    exact hf
  · rintro ⟨i, hi, he⟩
    obtain ⟨hlt, -⟩ := List.getElem?_eq_some_iff.mp hi
    refine ⟨⟨_, he, mem_copies.mpr ⟨hi, rfl⟩⟩, ⟨hlt, (m.in_range _ he).2⟩, ?_⟩
    exact m.nonzero { e with row := i } he

/-! ## Stacks -/

variable {ms ks : List (SparseMatrix α)}

theorem totalRows_append : totalRows (ms ++ ks) = totalRows ms + totalRows ks := by
  induction ms with
  | nil => simp
  | cons m ms ih => simp only [List.cons_append, totalRows_cons, ih, Nat.add_assoc]

theorem row_of_mem_stackEntries {offset : Nat} (h : e ∈ stackEntries offset ms) :
    offset ≤ e.row ∧ e.row < offset + totalRows ms := by
  induction ms generalizing offset with
  | nil => cases h
  | cons m ms ih =>
    simp only [totalRows_cons]
    rcases List.mem_append.mp h with h | h
    · obtain ⟨f, hf, rfl⟩ := List.mem_map.mp h
      have hrow := (m.in_range f hf).1
      dsimp only
      omega
    · have hrow := ih h
      omega

/-- What stands in a stack stands in one of its blocks. -/
theorem exists_of_mem_stackEntries {offset : Nat} (h : e ∈ stackEntries offset ms) :
    ∃ m ∈ ms, ∃ f ∈ m.entries, e.col = f.col ∧ e.value = f.value := by
  induction ms generalizing offset with
  | nil => cases h
  | cons m ms ih =>
    rcases List.mem_append.mp h with h | h
    · obtain ⟨f, hf, rfl⟩ := List.mem_map.mp h
      exact ⟨m, List.mem_cons_self, f, hf, rfl, rfl⟩
    · obtain ⟨k, hk, hf⟩ := ih h
      exact ⟨k, List.mem_cons_of_mem _ hk, hf⟩

theorem stackEntries_inRange (h : ∀ m ∈ ms, m.ncols ≤ ncols) (offset : Nat) :
    ∀ e ∈ stackEntries offset ms, offset ≤ e.row ∧ e.InRange (offset + totalRows ms) ncols := by
  intro e he
  obtain ⟨hlo, hhi⟩ := row_of_mem_stackEntries he
  obtain ⟨m, hm, f, hf, hcol, -⟩ := exists_of_mem_stackEntries he
  refine ⟨hlo, hhi, ?_⟩
  rw [hcol]
  exact Nat.lt_of_lt_of_le (m.in_range f hf).2 (h m hm)

theorem stackEntries_add (a b : Nat) :
    stackEntries (a + b) ms = (stackEntries b ms).map fun e => { e with row := a + e.row } := by
  induction ms generalizing b with
  | nil => rfl
  | cons m ms ih =>
    rw [stackEntries_cons, stackEntries_cons, List.map_append, List.map_map, Nat.add_assoc, ih]
    congr 1
    refine List.map_congr_left fun e _ => ?_
    simp [Nat.add_assoc]

theorem mem_stackEntries_cons : e ∈ stackEntries 0 (m :: ms) ↔
    e ∈ m.entries ∨ ∃ f ∈ stackEntries 0 ms, e = { f with row := m.nrows + f.row } := by
  rw [stackEntries_cons, List.mem_append, Nat.zero_add, ← Nat.add_zero m.nrows, stackEntries_add]
  simp only [Nat.zero_add, List.map_id', Nat.add_zero, List.mem_map, eq_comm]

theorem mem_stackEntries_append : e ∈ stackEntries 0 (ms ++ ks) ↔
    e ∈ stackEntries 0 ms ∨
      ∃ f ∈ stackEntries 0 ks, e = { f with row := totalRows ms + f.row } := by
  induction ms generalizing e with
  | nil => simp
  | cons m ms ih =>
    rw [List.cons_append, mem_stackEntries_cons, mem_stackEntries_cons, or_assoc]
    refine or_congr_right ⟨?_, ?_⟩
    · rintro ⟨f, hf, rfl⟩
      rcases ih.mp hf with hf | ⟨g, hg, rfl⟩
      · exact .inl ⟨f, hf, rfl⟩
      · exact .inr ⟨g, hg, by simp [Nat.add_assoc]⟩
    · rintro (⟨f, hf, rfl⟩ | ⟨g, hg, rfl⟩)
      · exact ⟨f, ih.mpr (.inl hf), rfl⟩
      · exact ⟨_, ih.mpr (.inr ⟨g, hg, rfl⟩), by simp [Nat.add_assoc]⟩

theorem distinctCells_stackEntries (offset : Nat) : DistinctCells (stackEntries offset ms) := by
  induction ms generalizing offset with
  | nil => exact .nil
  | cons m ms ih =>
    refine .append ?_ (ih _) ?_
    · refine m.distinctCells_entries.map _ ?_
      intro e _ f _ hrow hcol
      exact ⟨Nat.add_left_cancel hrow, hcol⟩
    · intro e he f hf hrow
      obtain ⟨g, hg, rfl⟩ := List.mem_map.mp he
      have hg := (m.in_range g hg).1
      have hf := (row_of_mem_stackEntries hf).1
      dsimp only at hrow
      omega

/-- The entries of a stack that is wide enough are those of its blocks. -/
theorem mem_entries_stack (h : ∀ m ∈ ms, m.ncols ≤ ncols) :
    e ∈ (stack ms ncols).entries ↔ e ∈ stackEntries 0 ms := by
  rw [stack_eq, mem_entries_ofTriplets (distinctCells_stackEntries 0)]
  refine ⟨And.left, fun he => ⟨he, ?_, ?_⟩⟩
  · have := (stackEntries_inRange h 0 e he).2
    rwa [Nat.zero_add] at this
  · obtain ⟨m, -, f, hf, -, hvalue⟩ := exists_of_mem_stackEntries he
    rw [hvalue]
    exact m.nonzero f hf

end SparseMatrix

end ConicForm
