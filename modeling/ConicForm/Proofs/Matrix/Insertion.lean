import ConicForm.Proofs.Matrix.Gap

/-!
# Inserting columns

A gap is filled: in a list with one value at all of its positions, in a matrix with columns that
have no entries. What is behind the gap moves up, and is found at the position to which it has
moved.

## Main definitions

* `Gap.fill`: a list with a value at each position of a gap
* `SparseMatrix.insertColumns`: a matrix with columns in a gap

## Main results

* `Gap.getElem?_fill_widen`, `Gap.getElem?_fill_of_not_outside`: the elements of a list with a gap
  filled
* `Gap.foldl_set_fill`: elements that are set before and after a gap is filled
* `SparseMatrix.stack_eq_insertColumns`: a stack of matrices with a gap between columns
-/

namespace ConicForm

namespace Gap

variable {g : Gap} {i j : Nat}

theorem widen_inj : g.widen i = g.widen j ↔ i = j :=
  ⟨fun h => by rw [← g.close_widen i, h, g.close_widen], congrArg g.widen⟩

theorem widen_lt_widen (h : i < j) : g.widen i < g.widen j := by
  unfold widen
  split_ifs <;> omega

/-- A list with a value at each position of a gap. -/
def fill {τ : Type} (g : Gap) (x : τ) (xs : List τ) : List τ :=
  xs.take g.start ++ (List.replicate g.length x ++ xs.drop g.start)

section Fill

variable {τ : Type} {x : τ} {xs ys : List τ}

theorem fill_append (h : xs.length = g.start) :
    g.fill x (xs ++ ys) = xs ++ (List.replicate g.length x ++ ys) := by
  unfold fill
  rw [← h, List.take_left, List.drop_left]

theorem map_fill {σ : Type} (f : τ → σ) : (g.fill x xs).map f = g.fill (f x) (xs.map f) := by
  simp [fill]

/-- An element is found where it has moved to. -/
theorem getElem?_fill_widen (h : g.start ≤ xs.length) : (g.fill x xs)[g.widen i]? = xs[i]? := by
  have hlen : (xs.take g.start).length = g.start := by rw [List.length_take, Nat.min_eq_left h]
  unfold fill
  rcases Nat.lt_or_ge i g.start with hi | hi
  · rw [widen_of_lt hi, List.getElem?_append_left (by omega), List.getElem?_take_of_lt hi]
  · rw [widen_of_le hi, List.getElem?_append_right (by omega),
      List.getElem?_append_right (by rw [List.length_replicate]; omega), List.getElem?_drop, hlen,
      List.length_replicate]
    congr 1
    omega

theorem getElem?_fill_of_not_outside (h : g.start ≤ xs.length) (hi : ¬g.Outside i) :
    (g.fill x xs)[i]? = some x := by
  have hlen : (xs.take g.start).length = g.start := by rw [List.length_take, Nat.min_eq_left h]
  unfold Outside stop at hi
  rw [fill, List.getElem?_append_right (by omega), hlen,
    List.getElem?_append_left (by rw [List.length_replicate]; omega),
    List.getElem?_replicate_of_lt (by omega)]

/-- A list that has a value at each position of a gap, and elsewhere the elements of another. -/
theorem eq_fill (h : g.start ≤ xs.length) (hgap : ∀ i, ¬g.Outside i → ys[i]? = some x)
    (hwiden : ∀ i, ys[g.widen i]? = xs[i]?) : ys = g.fill x xs := by
  refine List.ext_getElem? fun i => ?_
  by_cases hi : g.Outside i
  · rw [← widen_close hi, hwiden, getElem?_fill_widen h]
  · rw [hgap i hi, getElem?_fill_of_not_outside h hi]

theorem set_fill (h : g.start ≤ xs.length) (i : Nat) (y : τ) :
    (g.fill x xs).set (g.widen i) y = g.fill x (xs.set i y) := by
  refine eq_fill (by rwa [List.length_set]) (fun j hj => ?_) fun j => ?_
  · have hne : g.widen i ≠ j := by
      rintro rfl
      exact hj (g.outside_widen i)
    rw [List.getElem?_set_ne hne, getElem?_fill_of_not_outside h hj]
  · rw [List.getElem?_set', List.getElem?_set', getElem?_fill_widen h]
    simp only [widen_inj]

/-- Elements that are set one after another, where they have moved to. -/
theorem foldl_set_fill (h : g.start ≤ xs.length) (items : List (Nat × τ)) :
    (items.map fun (k, y) => (g.widen k, y)).foldl (fun xs (k, y) => xs.set k y) (g.fill x xs) =
      g.fill x (items.foldl (fun xs (k, y) => xs.set k y) xs) := by
  induction items generalizing xs with
  | nil => rfl
  | cons q items ih =>
    obtain ⟨k, y⟩ := q
    rw [List.map_cons, List.foldl_cons, List.foldl_cons]
    show List.foldl _ ((g.fill x xs).set (g.widen k) y) _ = _
    rw [set_fill h, ih (by rwa [List.length_set])]

end Fill

end Gap

namespace SparseMatrix

variable {α : Type} [Scalar α] {m : SparseMatrix α} {g : Gap} {e : Entry α}

/-- A matrix with columns in a gap, which have no entries. -/
def insertColumns (m : SparseMatrix α) (g : Gap) : SparseMatrix α where
  nrows := m.nrows
  ncols := m.ncols + g.length
  entries := m.entries.map fun e => { e with col := g.widen e.col }
  sorted := by
    refine List.pairwise_map.mpr (m.sorted.imp ?_)
    rintro e f (hcol | ⟨hcol, hrow⟩)
    · exact .inl (Gap.widen_lt_widen hcol)
    · exact .inr ⟨congrArg g.widen hcol, hrow⟩
  in_range := by
    refine List.forall_mem_map.mpr fun e he => ?_
    obtain ⟨hrow, hcol⟩ := m.in_range e he
    refine ⟨hrow, ?_⟩
    dsimp only
    unfold Gap.widen
    split <;> omega
  nonzero := List.forall_mem_map.mpr m.nonzero

theorem mem_entries_insertColumns : e ∈ (m.insertColumns g).entries ↔
    ∃ f ∈ m.entries, { f with col := g.widen f.col } = e := List.mem_map

/-- **A stack of matrices with a gap between columns** is that of the matrices without one, with
columns inserted. -/
theorem stack_eq_insertColumns {ms ms' : List (SparseMatrix α)} {n : Nat}
    (h : List.Forall₂ (Widens g) ms ms') (hn : ∀ m ∈ ms, m.ncols ≤ n)
    (hn' : ∀ m ∈ ms', m.ncols ≤ n + g.length) :
    stack ms' (n + g.length) = (stack ms n).insertColumns g := by
  refine eq_of_mem_entries_iff ?_ rfl fun e => ?_
  · exact Widens.totalRows_eq h
  · rw [mem_entries_stack hn', mem_entries_insertColumns]
    constructor
    · intro he
      have hcol := Gap.widen_close (Widens.outside_of_mem_stackEntries h he)
      refine ⟨{ e with col := g.close e.col }, (mem_entries_stack hn).mpr ?_, by rw [hcol]⟩
      rw [Widens.stackEntries h, hcol]
      exact he
    · rintro ⟨f, hf, rfl⟩
      exact (Widens.stackEntries h f).mp ((mem_entries_stack hn).mp hf)

end SparseMatrix

end ConicForm
