import Mathlib.Tactic.SplitIfs
import ConicForm.Proofs.Matrix.Cells

/-!
# Taking out rows and columns

Consecutive positions are taken out of a list, or consecutive rows and columns out of a matrix, and
what is behind them moves up. A position of what remains is read at the position where it was
before, so that statements about what remains are statements about the whole.

## Main definitions

* `Gap`: consecutive positions
* `Gap.close`, `Gap.widen`: where a position is with the gap closed, and where it was before
* `Gap.cut`, `SparseMatrix.cut`: a list or a matrix without the positions of gaps
* `SparseMatrix.Widens`: matrices that differ in a gap between columns

## Main results

* `Gap.getElem?_cut`, `SparseMatrix.mem_entries_cut`: what remains, read where it was before
* `SparseMatrix.Widens.add`, `SparseMatrix.Widens.stackEntries`: operations on matrices with a gap
-/

namespace ConicForm

/-- Consecutive positions. -/
structure Gap where
  start : Nat
  length : Nat
  deriving DecidableEq, Repr

namespace Gap

variable {g : Gap} {i j : Nat}

/-- The position behind the last one. -/
def stop (g : Gap) : Nat := g.start + g.length

/-- Positions before or behind a gap. -/
def Outside (g : Gap) (i : Nat) : Prop := i < g.start ∨ g.stop ≤ i

instance (g : Gap) (i : Nat) : Decidable (g.Outside i) := inferInstanceAs (Decidable (_ ∨ _))

/-- Where a position outside a gap is once the gap is closed. -/
def close (g : Gap) (i : Nat) : Nat := if i < g.start then i else i - g.length

/-- Where a position was before the gap was closed. -/
def widen (g : Gap) (i : Nat) : Nat := if i < g.start then i else i + g.length

theorem widen_of_lt (h : i < g.start) : g.widen i = i := if_pos h

theorem widen_of_le (h : g.start ≤ i) : g.widen i = i + g.length := if_neg (Nat.not_lt.mpr h)

theorem outside_widen (g : Gap) (i : Nat) : g.Outside (g.widen i) := by
  unfold Outside widen stop
  split <;> omega

theorem close_widen (g : Gap) (i : Nat) : g.close (g.widen i) = i := by
  unfold close widen
  split_ifs <;> omega

theorem widen_close (h : g.Outside i) : g.widen (g.close i) = i := by
  unfold Outside stop at h
  unfold widen close
  split_ifs <;> omega

theorem widen_lt_iff {n : Nat} (h : g.start ≤ n) : g.widen i < n + g.length ↔ i < n := by
  unfold widen
  split <;> omega

/-- A position that was before the gap is where it was. -/
theorem widen_eq_self (h : g.widen i < g.start) : g.widen i = i := by
  unfold widen at h ⊢
  split_ifs at h ⊢ <;> omega

/-- What was below the end is below it once the gap is closed. -/
theorem lt_sub_of_widen_lt {n : Nat} (hn : g.stop ≤ n) (h : g.widen i < n) : i < n - g.length := by
  unfold stop at hn
  unfold widen at h
  split at h <;> omega

/-- A list without the positions of a gap. -/
def cut {τ : Type} (g : Gap) (xs : List τ) : List τ := xs.take g.start ++ xs.drop g.stop

section Cut

variable {τ : Type} {xs ys zs : List τ}

/-- What remains of a list, read where it was before. -/
theorem getElem?_cut (h : g.start ≤ xs.length) : (g.cut xs)[i]? = xs[g.widen i]? := by
  have hlen : (xs.take g.start).length = g.start := by rw [List.length_take, Nat.min_eq_left h]
  unfold cut
  rcases Nat.lt_or_ge i g.start with hi | hi
  · rw [List.getElem?_append_left (by omega), List.getElem?_take_of_lt hi, widen_of_lt hi]
  · rw [List.getElem?_append_right (by omega), List.getElem?_drop, widen_of_le hi, hlen, stop]
    congr 1
    omega

theorem cut_append (hx : xs.length = g.start) (hy : ys.length = g.length) :
    g.cut (xs ++ (ys ++ zs)) = xs ++ zs := by
  unfold cut stop
  rw [← hx, ← hy, List.take_left, ← List.append_assoc, ← List.length_append, List.drop_left]

theorem cut_map {σ : Type} (f : τ → σ) : g.cut (xs.map f) = (g.cut xs).map f := by
  simp [cut]

/-- A position before the gap is set in what remains as well. -/
theorem cut_set_of_lt (hg : g.start ≤ xs.length) (hi : i < g.start) (x : τ) :
    g.cut (xs.set i x) = (g.cut xs).set i x := by
  have hset : ∀ j, g.widen j = i ↔ j = i := by
    intro j
    unfold widen
    split <;> omega
  refine List.ext_getElem? fun j => ?_
  rw [getElem?_cut (by rwa [List.length_set]), List.getElem?_set', List.getElem?_set',
    getElem?_cut hg]
  simp only [eq_comm (a := i), hset]

/-- A position in the gap does not remain. -/
theorem cut_set_of_not_outside (hg : g.start ≤ xs.length) (hi : ¬g.Outside i) (x : τ) :
    g.cut (xs.set i x) = g.cut xs := by
  refine List.ext_getElem? fun j => ?_
  have hne : i ≠ g.widen j := by
    rintro rfl
    exact hi (g.outside_widen j)
  rw [getElem?_cut (by rwa [List.length_set]), getElem?_cut hg, List.getElem?_set_ne hne]

/-- Positions before the gap that are set one after another. -/
theorem cut_foldl_set_of_lt {items : List (Nat × τ)} (hg : g.start ≤ xs.length)
    (h : ∀ q ∈ items, q.1 < g.start) :
    g.cut (items.foldl (fun xs (k, x) => xs.set k x) xs) =
      items.foldl (fun xs (k, x) => xs.set k x) (g.cut xs) := by
  induction items generalizing xs with
  | nil => rfl
  | cons q items ih =>
    obtain ⟨hq, hitems⟩ := List.forall_mem_cons.mp h
    rw [List.foldl_cons, List.foldl_cons, ih (by rwa [List.length_set]) hitems,
      cut_set_of_lt hg hq]

/-- Positions in the gap that are set one after another. -/
theorem cut_foldl_set_of_not_outside {items : List (Nat × τ)} (hg : g.start ≤ xs.length)
    (h : ∀ q ∈ items, ¬g.Outside q.1) :
    g.cut (items.foldl (fun xs (k, x) => xs.set k x) xs) = g.cut xs := by
  induction items generalizing xs with
  | nil => rfl
  | cons q items ih =>
    obtain ⟨hq, hitems⟩ := List.forall_mem_cons.mp h
    rw [List.foldl_cons, ih (by rwa [List.length_set]) hitems, cut_set_of_not_outside hg hq]

end Cut

end Gap

variable {α : Type} [Scalar α]

namespace SparseMatrix

variable {m n m' n' : SparseMatrix α} {g : Gap} {e : Entry α}

/-! ## Matrices without some rows and columns -/

/-- A matrix without the rows and columns of two gaps. -/
def cut (m : SparseMatrix α) (rows cols : Gap) : SparseMatrix α :=
  ofTriplets (m.nrows - rows.length) (m.ncols - cols.length) <|
    (m.entries.filter fun e => rows.Outside e.row ∧ cols.Outside e.col).map fun e =>
      { e with row := rows.close e.row, col := cols.close e.col }

/-- What remains of a matrix, read where it was before. -/
theorem mem_entries_cut {rows cols : Gap} (hrows : rows.stop ≤ m.nrows)
    (hcols : cols.stop ≤ m.ncols) : e ∈ (m.cut rows cols).entries ↔
      { e with row := rows.widen e.row, col := cols.widen e.col } ∈ m.entries := by
  have hdistinct : DistinctCells
      ((m.entries.filter fun e => rows.Outside e.row ∧ cols.Outside e.col).map fun e =>
        { e with row := rows.close e.row, col := cols.close e.col }) := by
    refine .map (m.distinctCells_entries.filter _) _ ?_
    intro e he f hf hrow hcol
    have he := of_decide_eq_true (List.mem_filter.mp he).2
    have hf := of_decide_eq_true (List.mem_filter.mp hf).2
    have hrow' := congrArg rows.widen hrow
    have hcol' := congrArg cols.widen hcol
    rw [Gap.widen_close he.1, Gap.widen_close hf.1] at hrow'
    rw [Gap.widen_close he.2, Gap.widen_close hf.2] at hcol'
    exact ⟨hrow', hcol'⟩
  unfold cut
  rw [mem_entries_ofTriplets hdistinct]
  constructor
  · rintro ⟨he, -, -⟩
    obtain ⟨f, hf, rfl⟩ := List.mem_map.mp he
    obtain ⟨hf, hout⟩ := List.mem_filter.mp hf
    have hout := of_decide_eq_true hout
    dsimp only
    rwa [Gap.widen_close hout.1, Gap.widen_close hout.2]
  · intro he
    obtain ⟨hrow, hcol⟩ := m.in_range _ he
    have hne := m.nonzero _ he
    refine ⟨List.mem_map.mpr ⟨_, List.mem_filter.mpr ⟨he, ?_⟩, ?_⟩, ⟨?_, ?_⟩, hne⟩
    · exact decide_eq_true ⟨rows.outside_widen _, cols.outside_widen _⟩
    · simp only [Gap.close_widen]
    · exact Gap.lt_sub_of_widen_lt hrows hrow
    · exact Gap.lt_sub_of_widen_lt hcols hcol

/-! ## Matrices with a gap between columns -/

/-- Matrices with the same entries, those of the second one moved behind a gap. -/
structure Widens (g : Gap) (m m' : SparseMatrix α) : Prop where
  nrows : m'.nrows = m.nrows
  mem_iff : ∀ e : Entry α, e ∈ m.entries ↔ { e with col := g.widen e.col } ∈ m'.entries
  outside : ∀ e ∈ m'.entries, g.Outside e.col

/-- The entries of a matrix in front of a gap stay where they are. -/
theorem widens_of_ncols_le (h : m.ncols ≤ g.start) : m.Widens g m where
  nrows := rfl
  mem_iff e := by
    constructor
    · intro he
      rwa [Gap.widen_of_lt (Nat.lt_of_lt_of_le (m.in_range e he).2 h)]
    · intro he
      have hlt : g.widen e.col < g.start := Nat.lt_of_lt_of_le (m.in_range _ he).2 h
      rwa [Gap.widen_eq_self hlt] at he
  outside e he := .inl (Nat.lt_of_lt_of_le (m.in_range e he).2 h)

namespace Widens

theorem scale (h : m.Widens g m') (a : α) : (m.scale a).Widens g (m'.scale a) where
  nrows := h.nrows
  mem_iff e := by
    rw [mem_entries_scale, mem_entries_scale]
    constructor
    · rintro ⟨f, hf, rfl, hne⟩
      exact ⟨_, (h.mem_iff f).mp hf, rfl, hne⟩
    · rintro ⟨f, hf, he, hne⟩
      obtain ⟨hrow, hcol, hvalue⟩ := Entry.mk.inj he
      refine ⟨⟨e.row, e.col, f.value⟩, (h.mem_iff _).mpr ?_, ?_, hne⟩
      · dsimp only
        rw [hcol, hrow]
        exact hf
      · rw [← hvalue]
  outside e he := by
    obtain ⟨f, hf, rfl, -⟩ := mem_entries_scale.mp he
    exact h.outside f hf

/-- Sums of matrices of which one has its entries in front of those of the other. -/
theorem add (hm : m.Widens g m') (hn : n.Widens g n') (hrows : n.nrows ≤ m.nrows)
    (h : ∀ e ∈ m.entries, ∀ f ∈ n.entries, e.col ≠ f.col)
    (h' : ∀ e ∈ m'.entries, ∀ f ∈ n'.entries, e.col ≠ f.col) :
    (m.add n).Widens g (m'.add n') where
  nrows := hm.nrows
  mem_iff e := by
    have hrows' : n'.nrows ≤ m'.nrows := by rwa [hm.nrows, hn.nrows]
    rw [mem_entries_add hrows fun e he f hf _ => h e he f hf,
      mem_entries_add hrows' fun e he f hf _ => h' e he f hf, hm.mem_iff, hn.mem_iff]
  outside e he := by
    have hrows' : n'.nrows ≤ m'.nrows := by rwa [hm.nrows, hn.nrows]
    rcases (mem_entries_add hrows' fun e he f hf _ => h' e he f hf).mp he with he | he
    · exact hm.outside e he
    · exact hn.outside e he

theorem sumRows (hm : m.Widens g m')
    (h : ∀ e ∈ m.entries, ∀ f ∈ m.entries, e.col = f.col → e.row = f.row)
    (h' : ∀ e ∈ m'.entries, ∀ f ∈ m'.entries, e.col = f.col → e.row = f.row) :
    m.sumRows.Widens g m'.sumRows where
  nrows := rfl
  mem_iff e := by
    rw [mem_entries_sumRows h, mem_entries_sumRows h']
    constructor
    · rintro ⟨f, hf, rfl⟩
      exact ⟨_, (hm.mem_iff f).mp hf, rfl⟩
    · rintro ⟨f, hf, he⟩
      obtain ⟨hrow, hcol, hvalue⟩ := Entry.mk.inj he
      refine ⟨⟨f.row, e.col, e.value⟩, (hm.mem_iff _).mpr ?_, ?_⟩
      · dsimp only
        rw [hcol, hvalue]
        exact hf
      · rw [← hrow]
  outside e he := by
    obtain ⟨f, hf, rfl⟩ := (mem_entries_sumRows h').mp he
    exact hm.outside f hf

/-- Moving columns keeps the number of rows. -/
theorem totalRows_eq {ms ms' : List (SparseMatrix α)} (h : List.Forall₂ (Widens g) ms ms') :
    totalRows ms' = totalRows ms := by
  induction h with
  | nil => rfl
  | cons hm _ ih => rw [totalRows_cons, totalRows_cons, hm.nrows, ih]

/-- Stacks of matrices with a gap between columns, one by one. -/
theorem stackEntries {ms ms' : List (SparseMatrix α)} (h : List.Forall₂ (Widens g) ms ms')
    (e : Entry α) : e ∈ SparseMatrix.stackEntries 0 ms ↔
      { e with col := g.widen e.col } ∈ SparseMatrix.stackEntries 0 ms' := by
  induction h generalizing e with
  | nil => exact iff_of_false List.not_mem_nil List.not_mem_nil
  | @cons m m' ms ms' hm _ ih =>
    rw [mem_stackEntries_cons, mem_stackEntries_cons, hm.mem_iff]
    refine or_congr_right ⟨?_, ?_⟩
    · rintro ⟨f, hf, rfl⟩
      exact ⟨_, (ih f).mp hf, by rw [hm.nrows]⟩
    · rintro ⟨f, hf, he⟩
      obtain ⟨hrow, hcol, hvalue⟩ := Entry.mk.inj he
      refine ⟨⟨f.row, e.col, e.value⟩, (ih _).mpr ?_, ?_⟩
      · dsimp only
        rw [hcol, hvalue]
        exact hf
      · rw [← hm.nrows, ← hrow]

theorem forall_outside {ms ms' : List (SparseMatrix α)} (h : List.Forall₂ (Widens g) ms ms') :
    ∀ m' ∈ ms', ∀ f ∈ m'.entries, g.Outside f.col := by
  induction h with
  | nil => simp
  | cons hm _ ih => exact List.forall_mem_cons.mpr ⟨hm.outside, ih⟩

theorem outside_of_mem_stackEntries {ms ms' : List (SparseMatrix α)}
    (h : List.Forall₂ (Widens g) ms ms') (he : e ∈ SparseMatrix.stackEntries 0 ms') :
    g.Outside e.col := by
  obtain ⟨m', hm', f, hf, hcol, -⟩ := exists_of_mem_stackEntries he
  rw [hcol]
  exact forall_outside h m' hm' f hf

end Widens

/-! ## Stacks without some blocks -/

section Cut

variable {ms ks ls ls' : List (SparseMatrix α)} {rows cols : Gap}
  (hstart : rows.start = totalRows ms) (hlength : rows.length = totalRows ks)
  (hms : ∀ m ∈ ms, m.ncols ≤ cols.start)
  (hls : List.Forall₂ (Widens cols) ls ls')

include hstart hlength hms hls

/-- The entries of a stack without the blocks in the middle, read where they were before. -/
theorem mem_stackEntries_gap (e : Entry α) : e ∈ stackEntries 0 (ms ++ ls) ↔
    { e with row := rows.widen e.row, col := cols.widen e.col } ∈
      stackEntries 0 (ms ++ (ks ++ ls')) := by
  rw [mem_stackEntries_append, mem_stackEntries_append]
  constructor
  · rintro (he | ⟨f, hf, rfl⟩)
    · obtain ⟨-, hrow, hcol⟩ := stackEntries_inRange hms 0 e he
      rw [Nat.zero_add, ← hstart] at hrow
      rw [Gap.widen_of_lt hrow, Gap.widen_of_lt hcol]
      exact .inl he
    · have hmoved : { f with col := cols.widen f.col, row := totalRows ks + f.row } ∈
          stackEntries 0 (ks ++ ls') :=
        mem_stackEntries_append.mpr (.inr ⟨_, (Widens.stackEntries hls f).mp hf, rfl⟩)
      have hrow : rows.widen (totalRows ms + f.row) = totalRows ms + (totalRows ks + f.row) := by
        rw [Gap.widen_of_le (hstart ▸ Nat.le_add_right _ _), hlength]
        omega
      exact .inr ⟨_, hmoved, by rw [hrow]⟩
  · rintro (he | ⟨f, hf, he⟩)
    · obtain ⟨-, hrow, hcol⟩ := stackEntries_inRange hms 0 _ he
      rw [Nat.zero_add, ← hstart] at hrow
      rw [Gap.widen_eq_self hrow, Gap.widen_eq_self hcol] at he
      exact .inl he
    · obtain ⟨hrow, hcol, hvalue⟩ := Entry.mk.inj he
      rcases mem_stackEntries_append.mp hf with hf | ⟨k, hk, rfl⟩
      · have hlt := (row_of_mem_stackEntries hf).2
        have hout := rows.outside_widen e.row
        unfold Gap.Outside Gap.stop at hout
        omega
      · have hrow' : e.row = totalRows ms + k.row := by
          dsimp only at hrow
          unfold Gap.widen at hrow
          split at hrow <;> omega
        refine .inr ⟨⟨k.row, e.col, e.value⟩, (Widens.stackEntries hls _).mpr ?_, ?_⟩
        · dsimp only at hcol hvalue ⊢
          rw [hcol, hvalue]
          exact hk
        · rw [← hrow']

/-- **A stack without the blocks in the middle** and the columns that only they use is the stack of
the others. -/
theorem cut_stack {n n' : Nat} (hn : ∀ m ∈ ms ++ ls, m.ncols ≤ n)
    (hn' : ∀ m ∈ ms ++ (ks ++ ls'), m.ncols ≤ n') (hwidth : n' = n + cols.length)
    (hcols : cols.start ≤ n) :
    (stack (ms ++ (ks ++ ls')) n').cut rows cols = stack (ms ++ ls) n := by
  have htotal : totalRows ls' = totalRows ls := Widens.totalRows_eq hls
  have hrows : rows.stop ≤ (stack (ms ++ (ks ++ ls')) n').nrows := by
    rw [nrows_stack, totalRows_append, totalRows_append, Gap.stop]
    omega
  have hstop : cols.stop ≤ (stack (ms ++ (ks ++ ls')) n').ncols := by
    rw [ncols_stack, Gap.stop]
    omega
  refine eq_of_mem_entries_iff ?_ ?_ fun e => ?_
  · show totalRows (ms ++ (ks ++ ls')) - rows.length = totalRows (ms ++ ls)
    rw [totalRows_append, totalRows_append, totalRows_append, htotal]
    omega
  · show n' - cols.length = n
    omega
  · rw [mem_entries_cut hrows hstop, mem_entries_stack hn', mem_entries_stack hn]
    exact (mem_stackEntries_gap hstart hlength hms hls e).symm

end Cut

end SparseMatrix

end ConicForm
