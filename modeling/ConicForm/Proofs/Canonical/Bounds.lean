import ConicForm.Model.Store
import ConicForm.Proofs.Constraint.Meaning

/-!
# The bounds of assembled columns

Bounds are set in order, so the last one for a column and side is the one that holds; a column
without one has the bound that its type gives. The columns of blocks that lie one after another
have the types of their blocks.

## Main definitions

* `Block.Laid`: blocks one after another
* `Store.lastBound`: the last bound for a column on a side
* `Store.typeBound`: the bound that a type gives
* `Store.boundOf`: the bound that holds for a column

## Main results

* `Block.forall_types_iff`: columns with their types are blocks with their columns
* `Store.getD_applyBounds`: the bound set last is the one that remains
-/

namespace ConicForm

/-- A condition on the numbers below a sum, split at the first summand. -/
theorem forall_lt_add_iff {m n : Nat} {P : Nat → Prop} :
    (∀ i < m + n, P i) ↔ (∀ i < m, P i) ∧ ∀ i < n, P (m + i) := by
  constructor
  · intro h
    exact ⟨fun i hi => h i (by omega), fun i hi => h _ (by omega)⟩
  · rintro ⟨hm, hn⟩ i hi
    by_cases hlt : i < m
    · exact hm i hlt
    · obtain ⟨k, rfl⟩ := Nat.exists_eq_add_of_le (Nat.not_lt.mp hlt)
      exact hn k (by omega)

/-! ## Blocks one after another -/

namespace Block

/-- Blocks one after another, the first one starting at column `next`. -/
def Laid (next : Nat) : List Block → Prop
  | [] => True
  | b :: bs => b.first = next ∧ Laid b.stop bs

theorem laid_append {next : Nat} {bs cs : List Block} :
    Laid next (bs ++ cs) ↔ Laid next bs ∧ Laid (next + totalSize bs) cs := by
  induction bs generalizing next with
  | nil => simp [Laid]
  | cons b bs ih =>
    simp only [List.cons_append, Laid, ih, totalSize_cons, and_assoc]
    refine and_congr_right fun hb => ?_
    rw [stop, hb, Nat.add_assoc]

theorem Laid.stop_le {next : Nat} {bs : List Block} (h : Laid next bs) :
    ∀ b ∈ bs, b.stop ≤ next + totalSize bs := by
  induction bs generalizing next with
  | nil => simp
  | cons b bs ih =>
    obtain ⟨hb, hbs⟩ := h
    have hstop : b.stop = next + b.size := by rw [stop, hb]
    refine List.forall_mem_cons.mpr ⟨?_, fun c hc => ?_⟩
    · rw [hstop, totalSize_cons]
      omega
    · have := ih hbs c hc
      rw [totalSize_cons]
      omega

/-- The columns of blocks one after another. -/
theorem Laid.flatMap_columns {next : Nat} {bs : List Block} (h : Laid next bs) :
    bs.flatMap columns = List.range' next (totalSize bs) := by
  induction bs generalizing next with
  | nil => rfl
  | cons b bs ih =>
    obtain ⟨rfl, hbs⟩ := h
    rw [List.flatMap_cons, ih hbs, totalSize_cons]
    exact List.range'_append_1

/-- A condition on all columns with their types, block by block. -/
theorem forall_types_iff {next : Nat} {bs : List Block} (h : Laid next bs)
    {Q : Nat → VariableType → Prop} :
    (∀ i < totalSize bs, Q (next + i) ((types bs).getD i .continuous)) ↔
      ∀ b ∈ bs, ∀ j ∈ b.columns, Q j b.type := by
  induction bs generalizing next with
  | nil => simp
  | cons b bs ih =>
    obtain ⟨rfl, hbs⟩ := h
    rw [List.forall_mem_cons, ← ih hbs, totalSize_cons, types_cons]
    have hlen : (List.replicate b.size b.type).length = b.size := List.length_replicate
    have hfirst : ∀ i < b.size,
        (List.replicate b.size b.type ++ types bs).getD i .continuous = b.type := by
      intro i hi
      rw [List.getD_append _ _ _ _ (by omega), List.getD_replicate _ hi]
    have hrest : ∀ i, (List.replicate b.size b.type ++ types bs).getD (b.size + i) .continuous =
        (types bs).getD i .continuous := by
      intro i
      rw [List.getD_append_right _ _ _ _ (by omega), hlen, Nat.add_sub_cancel_left]
    refine forall_lt_add_iff.trans (and_congr ?_ (forall₂_congr fun i _ => ?_))
    · constructor
      · intro h j hj
        obtain ⟨hlo, hhi⟩ := mem_columns.mp hj
        unfold stop at hhi
        have := h (j - b.first) (by omega)
        rwa [hfirst _ (by omega), Nat.add_sub_cancel' hlo] at this
      · intro h i hi
        rw [hfirst i hi]
        exact h _ (mem_columns.mpr ⟨by omega, by unfold stop; omega⟩)
    · rw [hrest, ← Nat.add_assoc]
      rfl

end Block

/-! ## Bounds set in order -/

namespace Store

section LastBound

variable {α : Type} {side : Side} {j : Nat}

/-- The last bound on a side for a column. -/
def lastBound (side : Side) (bounds : List (Bounds α)) (j : Nat) : Option (Bound α) :=
  (((bounds.filter (·.side = side)).flatMap (·.items)).filter (·.1 = j)).getLast?.map (·.2)

theorem lastBound_append (bs cs : List (Bounds α)) :
    lastBound side (bs ++ cs) j = (lastBound side cs j).or (lastBound side bs j) := by
  simp [lastBound, List.getLast?_append, Option.map_or]

theorem mem_of_lastBound_eq_some {bs : List (Bounds α)} {x : Bound α}
    (h : lastBound side bs j = some x) : ∃ b ∈ bs, b.side = side ∧ (j, x) ∈ b.items := by
  obtain ⟨⟨k, y⟩, hq, rfl⟩ := Option.map_eq_some_iff.mp h
  have hmem := List.mem_of_getLast? hq
  simp only [List.mem_filter, List.mem_flatMap, decide_eq_true_eq] at hmem
  obtain ⟨⟨b, ⟨hb, hside⟩, hitem⟩, rfl⟩ := hmem
  exact ⟨b, hb, hside, hitem⟩

theorem lastBound_eq_none_iff {bs : List (Bounds α)} :
    lastBound side bs j = none ↔ ∀ b ∈ bs, b.side = side → ∀ q ∈ b.items, q.1 ≠ j := by
  simp only [lastBound, Option.map_eq_none_iff, List.getLast?_eq_none_iff,
    List.filter_eq_nil_iff, List.mem_flatMap, List.mem_filter, decide_eq_true_eq]
  constructor
  · intro h b hb hside q hq
    exact h q ⟨b, ⟨hb, hside⟩, hq⟩
  · rintro h q ⟨b, ⟨hb, hside⟩, hq⟩
    exact h b hb hside q hq

theorem getD_foldl_set (items : List (Nat × Bound α)) {start : List (Bound α)} {d : Bound α}
    (hj : j < start.length) :
    (items.foldl (fun bs (k, x) => bs.set k x) start).getD j d =
      ((items.filter (·.1 = j)).getLast?.map (·.2)).getD (start.getD j d) := by
  induction items generalizing start with
  | nil => simp
  | cons q items ih =>
    obtain ⟨k, x⟩ := q
    rw [List.foldl_cons, ih (by simpa using hj)]
    by_cases hk : k = j
    · subst hk
      rw [List.filter_cons_of_pos (by simp), List.getLast?_cons]
      cases (items.filter (·.1 = k)).getLast? <;> simp [hj]
    · rw [List.filter_cons_of_neg (by simpa using hk)]
      simp [hk]

/-- The bound set last is the one that remains. -/
theorem getD_applyBounds (bs : List (Bounds α)) {start : List (Bound α)} {d : Bound α}
    (hj : j < start.length) :
    (applyBounds side bs start).getD j d = (lastBound side bs j).getD (start.getD j d) := by
  unfold applyBounds lastBound
  rw [← List.foldl_flatMap]
  exact getD_foldl_set _ hj

theorem length_foldl_set (items : List (Nat × Bound α)) (start : List (Bound α)) :
    (items.foldl (fun bs (k, x) => bs.set k x) start).length = start.length := by
  induction items generalizing start with
  | nil => rfl
  | cons q items ih => rw [List.foldl_cons, ih, List.length_set]

@[simp] theorem length_applyBounds (bs : List (Bounds α)) (start : List (Bound α)) :
    (applyBounds side bs start).length = start.length := by
  unfold applyBounds
  rw [← List.foldl_flatMap]
  exact length_foldl_set _ _

/-- The bound that a type gives on one side. A binary column lies between zero and one, any other
one is free. -/
def typeBound [Scalar α] : Side → VariableType → Bound α
  | .upper, .binary => .value 1
  | .upper, .continuous | .upper, .integer => .plusInf
  | .lower, .binary => .value 0
  | .lower, .continuous | .lower, .integer => .minusInf

/-- The bound that holds for a column of a type: the last one set, or that of the type. -/
def boundOf [Scalar α] (side : Side) (bounds : List (Bounds α)) (type : VariableType) (j : Nat) :
    Bound α :=
  (lastBound side bounds j).getD (typeBound side type)

variable [Scalar α]

theorem typeBounds_eq (type : VariableType) :
    (typeBounds type : Bound α × Bound α) = (typeBound .lower type, typeBound .upper type) := by
  cases type <;> rfl

theorem getD_upper_applyBounds (bs : List (Bounds α)) {types : List VariableType}
    (hj : j < types.length) :
    (applyBounds .upper bs (types.map fun t => (typeBounds t).2)).getD j .plusInf =
      boundOf .upper bs (types.getD j .continuous) j := by
  rw [getD_applyBounds _ (by simpa using hj), List.getD_eq_getElem _ _ (by simpa using hj),
    List.getElem_map, List.getD_eq_getElem _ _ hj, typeBounds_eq, boundOf]

theorem getD_lower_applyBounds (bs : List (Bounds α)) {types : List VariableType}
    (hj : j < types.length) :
    (applyBounds .lower bs (types.map fun t => (typeBounds t).1)).getD j .minusInf =
      boundOf .lower bs (types.getD j .continuous) j := by
  rw [getD_applyBounds _ (by simpa using hj), List.getD_eq_getElem _ _ (by simpa using hj),
    List.getElem_map, List.getD_eq_getElem _ _ hj, typeBounds_eq, boundOf]

/-- Bounds for other columns do not matter. -/
theorem boundOf_append_left {bs cs : List (Bounds α)} (h : ∀ c ∈ cs, ∀ q ∈ c.items, q.1 ≠ j)
    (type : VariableType) : boundOf side (bs ++ cs) type j = boundOf side bs type j := by
  have hnone : lastBound side cs j = none := lastBound_eq_none_iff.mpr fun c hc _ => h c hc
  rw [boundOf, lastBound_append, hnone, Option.none_or, boundOf]

theorem boundOf_append_right {bs cs : List (Bounds α)} (h : ∀ b ∈ bs, ∀ q ∈ b.items, q.1 ≠ j)
    (type : VariableType) : boundOf side (bs ++ cs) type j = boundOf side cs type j := by
  have hnone : lastBound side bs j = none := lastBound_eq_none_iff.mpr fun b hb _ => h b hb
  rw [boundOf, lastBound_append, hnone, Option.or_none, boundOf]

end LastBound

end Store

end ConicForm
