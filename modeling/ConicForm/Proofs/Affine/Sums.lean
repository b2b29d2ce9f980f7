import ConicForm.Proofs.Affine.Value
import ConicForm.Proofs.Matrix.Pattern

/-!
# Sums of several expressions

A sum of several expressions is made by sums of two. In between, its size depends on the order: a
single element and an expression without elements have no elements, two single elements have one.
The sum of all does not depend on it. In exact arithmetic it is the expression that has at every
assignment the sum of the values that the operands spread over its size, and both its coefficients
and its constants can be read off from these values.

## Main definitions

* `Bracketing`: a way to put expressions together by sums of two
* `Affine.Compatible`: expressions of one size and one model, single elements and constants apart
* `Affine.SumOf`: what the sum of expressions is, whatever the order

## Main results

* `Affine.SumOf.add`: what one sum of two adds
* `Affine.SumOf.unique`: a sum is known by its operands
* `Bracketing.total_perm`: neither order nor bracketing changes a sum or whether there is one
-/

namespace ConicForm

/-- Expressions put together by sums of two. -/
inductive Bracketing (α : Type) [Scalar α] where
  | operand (a : Affine α)
  | add (s t : Bracketing α)

namespace Bracketing

variable {α : Type} [Scalar α]

/-- The operands from left to right. -/
def operands : Bracketing α → List (Affine α)
  | operand a => [a]
  | add s t => s.operands ++ t.operands

/-- The sum, if there is one. -/
def total : Bracketing α → Except Error (Affine α)
  | operand a => .ok a
  | add s t => do (← s.total).add (← t.total)

end Bracketing

namespace Affine

section Compatible

variable {α : Type} [Scalar α] {as bs : List (Affine α)}

/-- All sizes other than one are equal, and at most one model owns columns of the expressions. -/
structure Compatible (as : List (Affine α)) : Prop where
  size : ∀ a ∈ as, ∀ b ∈ as, a.size ≠ 1 → b.size ≠ 1 → a.size = b.size
  owner : ∀ a ∈ as, ∀ b ∈ as, ∀ o ∈ a.owner, ∀ p ∈ b.owner, o = p

theorem Compatible.mono (h : bs ⊆ as) (has : Compatible as) : Compatible bs :=
  ⟨fun a ha b hb => has.size a (h ha) b (h hb), fun a ha b hb => has.owner a (h ha) b (h hb)⟩

end Compatible

variable {K : Type} [Field K] [LinearOrder K] {as bs : List (Affine K)} {a b c d : Affine K}

/-- A sum of two spreads over its positions what its operands spread. -/
theorem spread_add (h : a.add b = .ok c) (x : Nat → K) {i : Nat} (hi : i < c.size ∨ c.size = 1) :
    c.spread x i = a.spread x i + b.spread x i := by
  rcases hi with hi | hone
  · rw [spread_of_lt hi, value_add h hi]
  · obtain ⟨-, hs, -⟩ := of_add_eq_ok h
    obtain ⟨ha, hb⟩ := Shape.size_of_elementwise hs
    have ha : a.size = 1 := ha.elim (fun ha => ha.trans hone) id
    have hb : b.size = 1 := hb.elim (fun hb => hb.trans hone) id
    rw [spread_of_size_eq_one hone, value_add h (hone.symm ▸ Nat.one_pos),
      spread_of_size_eq_one ha, spread_of_size_eq_one ha, spread_of_size_eq_one hb,
      spread_of_size_eq_one hb]

/-- The sum of expressions: it has the owners and the widths of all, the one size besides single
elements, and at every position the sum of what the expressions spread there. -/
structure SumOf (as : List (Affine K)) (c : Affine K) : Prop where
  owner : ∀ o, o ∈ c.owner ↔ ∃ a ∈ as, o ∈ a.owner
  size : ∀ a ∈ as, a.size = c.size ∨ a.size = 1
  exists_size : ∃ a ∈ as, a.size = c.size
  ncols : ∀ n, c.linear.ncols ≤ n ↔ ∀ a ∈ as, a.linear.ncols ≤ n
  spread : ∀ x i, i < c.size ∨ c.size = 1 → c.spread x i = (as.map fun a => a.spread x i).sum

namespace SumOf

theorem singleton (a : Affine K) : SumOf [a] a where
  owner := by simp
  size := by simp
  exists_size := ⟨a, List.mem_cons_self, rfl⟩
  ncols := by simp
  spread := by simp

theorem perm (h : as.Perm bs) (has : SumOf as c) : SumOf bs c where
  owner o := (has.owner o).trans (exists_congr fun _ => and_congr_left' h.mem_iff)
  size a ha := has.size a (h.mem_iff.mpr ha)
  exists_size := has.exists_size.imp fun _ ha => ⟨h.mem_iff.mp ha.1, ha.2⟩
  ncols n := (has.ncols n).trans (forall_congr' fun _ => imp_congr_left h.mem_iff)
  spread x i hi := (has.spread x i hi).trans (h.map _).sum_eq

/-- A sum of two sums is the sum of the operands of both. -/
theorem add (has : SumOf as a) (hbs : SumOf bs b) (h : a.add b = .ok c) : SumOf (as ++ bs) c := by
  obtain ⟨ho, hs, hl, -⟩ := of_add_eq_ok h
  obtain ⟨hmerge, ho⟩ := mergeOwners_eq_ok_iff.mp ho
  obtain ⟨hsa, hsb⟩ : (a.size = c.size ∨ a.size = 1) ∧ (b.size = c.size ∨ b.size = 1) :=
    Shape.size_of_elementwise hs
  refine ⟨fun o => ?_, ?_, ?_, fun n => ?_, fun x i hi => ?_⟩
  · have hor : o ∈ c.owner ↔ o ∈ a.owner ∨ o ∈ b.owner := by
      rw [ho, Option.mem_def, Option.or_eq_some_iff]
      constructor
      · exact Or.imp id And.right
      · rintro (hoa | hob)
        · exact .inl hoa
        · cases hoa : a.owner with
          | none => exact .inr ⟨rfl, hob⟩
          | some p => exact .inl (congrArg some (hmerge p hoa o hob))
    rw [hor, has.owner, hbs.owner]
    simp only [List.mem_append, or_and_right, exists_or]
  · intro e he
    rcases List.mem_append.mp he with he | he
    · rcases has.size e he with hsize | hone
      · exact hsa.imp hsize.trans hsize.trans
      · exact .inr hone
    · rcases hbs.size e he with hsize | hone
      · exact hsb.imp hsize.trans hsize.trans
      · exact .inr hone
  · rcases Shape.size_eq_of_elementwise hs with hsize | hsize
    · obtain ⟨e, he, hea⟩ := has.exists_size
      exact ⟨e, List.mem_append_left _ he, hea.trans hsize.symm⟩
    · obtain ⟨e, he, heb⟩ := hbs.exists_size
      exact ⟨e, List.mem_append_right _ he, heb.trans hsize.symm⟩
  · rw [hl, SparseMatrix.ncols_add, ncols_broadcast, ncols_broadcast, max_le_iff, has.ncols,
      hbs.ncols, List.forall_mem_append]
  · have hle {e : Affine K} (he : e.size = c.size ∨ e.size = 1) : i < e.size ∨ e.size = 1 := by
      omega
    rw [spread_add h x hi, has.spread x i (hle hsa), hbs.spread x i (hle hsb), List.map_append,
      List.sum_append]

/-- Expressions that have a sum are compatible. -/
theorem compatible (h : SumOf as c) : Compatible as where
  size a ha b hb hane hbne :=
    ((h.size a ha).resolve_right hane).trans ((h.size b hb).resolve_right hbne).symm
  owner a ha b hb o ho p hp :=
    Option.mem_unique ((h.owner o).mpr ⟨a, ha, ho⟩) ((h.owner p).mpr ⟨b, hb, hp⟩)

/-- Sums of compatible operands have a sum. -/
theorem exists_add (has : SumOf as a) (hbs : SumOf bs b) (h : Compatible (as ++ bs)) :
    ∃ c, a.add b = .ok c := by
  obtain ⟨a', ha', hasize⟩ := has.exists_size
  obtain ⟨b', hb', hbsize⟩ := hbs.exists_size
  have hmem {e : Affine K} (he : e ∈ as) : e ∈ as ++ bs := List.mem_append_left _ he
  have hmem' {e : Affine K} (he : e ∈ bs) : e ∈ as ++ bs := List.mem_append_right _ he
  have hsize : a.size = b.size ∨ b.size = 1 ∨ a.size = 1 := by
    by_contra! hne
    refine hne.1 ?_
    rw [← hasize, ← hbsize]
    exact h.size a' (hmem ha') b' (hmem' hb') (hasize ▸ hne.2.2) (hbsize ▸ hne.2.1)
  have howner : ∀ o ∈ a.owner, ∀ p ∈ b.owner, o = p := by
    intro o ho p hp
    obtain ⟨a', ha', ho⟩ := (has.owner o).mp ho
    obtain ⟨b', hb', hp⟩ := (hbs.owner p).mp hp
    exact h.owner a' (hmem ha') b' (hmem' hb') o ho p hp
  obtain ⟨s, hs⟩ := Shape.exists_elementwise_iff.mpr hsize
  obtain ⟨c, hc, -⟩ := exists_add_of_owner (mergeOwners_eq_ok_iff.mpr ⟨howner, rfl⟩) hs
  exact ⟨c, hc⟩

theorem size_eq (hc : SumOf as c) (hd : SumOf as d) : c.size = d.size := by
  obtain ⟨a, ha, hac⟩ := hc.exists_size
  obtain ⟨b, hb, hbd⟩ := hd.exists_size
  have := hd.size a ha
  have := hc.size b hb
  omega

theorem value_eq (hc : SumOf as c) (hd : SumOf as d) (x : Nat → K) {i : Nat} (hi : i < c.size) :
    c.value x i = d.value x i := by
  have hi' : i < d.size := hi.trans_eq (hc.size_eq hd)
  rw [← spread_of_lt hi, ← spread_of_lt hi', hc.spread x i (.inl hi), hd.spread x i (.inl hi')]

/-- **A sum is known by its operands.** The constants are the values where all columns are zero, and
the coefficients are what is left. -/
theorem unique (hc : SumOf as c) (hd : SumOf as d) :
    c.owner = d.owner ∧ c.size = d.size ∧ c.linear = d.linear ∧ c.constant = d.constant := by
  have hsize := hc.size_eq hd
  have hconstant {i : Nat} (hi : i < c.size) : c.constant.getD i 0 = d.constant.getD i 0 := by
    simpa only [value, SparseMatrix.rowValue_zero, zero_add] using hc.value_eq hd 0 hi
  have hrow (x : Nat → K) (i : Nat) : c.linear.rowValue x i = d.linear.rowValue x i := by
    by_cases hi : i < c.size
    · have hvalue := hc.value_eq hd x hi
      rw [value, value, hconstant hi] at hvalue
      exact add_right_cancel hvalue
    · have hle : c.linear.nrows ≤ i := c.nrows_linear.trans_le (Nat.le_of_not_lt hi)
      have hle' : d.linear.nrows ≤ i :=
        d.nrows_linear.trans_le (hsize.symm.trans_le (Nat.le_of_not_lt hi))
      rw [SparseMatrix.rowValue_of_nrows_le hle, SparseMatrix.rowValue_of_nrows_le hle']
  refine ⟨Option.ext fun o => (hc.owner o).trans (hd.owner o).symm, hsize, ?_, ?_⟩
  · refine SparseMatrix.eq_of_rowValue ?_ ?_ hrow
    · exact c.nrows_linear.trans (hsize.trans d.nrows_linear.symm)
    · exact eq_of_forall_ge_iff fun n => (hc.ncols n).trans (hd.ncols n).symm
  · refine List.ext_getElem (c.length_constant.trans (hsize.trans d.length_constant.symm)) ?_
    intro i hi hi'
    have := hconstant (hi.trans_eq c.length_constant)
    rwa [List.getD_eq_getElem _ _ hi, List.getD_eq_getElem _ _ hi'] at this

end SumOf

end Affine

namespace Bracketing

variable {K : Type} [Field K] [LinearOrder K] {c : Affine K}

theorem sumOf_total {s : Bracketing K} (h : s.total = .ok c) : Affine.SumOf s.operands c := by
  induction s generalizing c with
  | operand a =>
    cases h
    exact .singleton a
  | add s t ihs iht =>
    obtain ⟨a, ha, h⟩ := exists_of_bind_eq_ok h
    obtain ⟨b, hb, h⟩ := exists_of_bind_eq_ok h
    exact (ihs ha).add (iht hb) h

/-- There is a sum exactly if the operands are compatible, however they are put together. -/
theorem exists_total_iff (s : Bracketing K) :
    (∃ c, s.total = .ok c) ↔ Affine.Compatible s.operands := by
  constructor
  · rintro ⟨c, hc⟩
    exact (sumOf_total hc).compatible
  · intro h
    induction s with
    | operand a => exact ⟨a, rfl⟩
    | add s t ihs iht =>
      obtain ⟨a, ha⟩ := ihs (h.mono (List.subset_append_left ..))
      obtain ⟨b, hb⟩ := iht (h.mono (List.subset_append_right ..))
      obtain ⟨c, hc⟩ := (sumOf_total ha).exists_add (sumOf_total hb) h
      exact ⟨c, by rw [total, ha, hb]; exact hc⟩

/-- **Neither the order nor the bracketing changes a sum.** Two ways to put the same operands
together both have a sum or both have none: they have one exactly if all sizes other than one are
equal and at most one model owns columns. The sums then have the same owner, the same number of
elements, the same coefficients over the same columns, and the same constants. -/
theorem total_perm (s t : Bracketing K) (h : s.operands.Perm t.operands) :
    ((∃ c, s.total = .ok c) ↔ Affine.Compatible s.operands) ∧
      ((∃ c, s.total = .ok c) ↔ ∃ d, t.total = .ok d) ∧
      ∀ c d, s.total = .ok c → t.total = .ok d →
        c.owner = d.owner ∧ c.size = d.size ∧ c.linear = d.linear ∧ c.constant = d.constant := by
  refine ⟨exists_total_iff s, ?_, fun c d hc hd => ?_⟩
  · rw [exists_total_iff, exists_total_iff]
    exact ⟨.mono h.symm.subset, .mono h.subset⟩
  · exact ((sumOf_total hc).perm h).unique (sumOf_total hd)

/-- Two columns of a model. -/
def span : Block := ⟨⟨0⟩, 0, .vector 2, .continuous, none⟩

/-- The columns, a number for both of them, and the columns again, negated. -/
def cancelledLast : Bracketing ℚ :=
  .add (.add (.operand (.ofBlock span)) (.operand (.number 5))) (.operand (Affine.ofBlock span).neg)

/-- The same operands, those that cancel first. -/
def cancelledFirst : Bracketing ℚ :=
  .add (.operand (.number 5)) (.add (.operand (Affine.ofBlock span).neg) (.operand (.ofBlock span)))

theorem perm_cancelled : cancelledLast.operands.Perm cancelledFirst.operands :=
  (List.perm_append_comm : ([.ofBlock span] ++ _ : List (Affine ℚ)).Perm _)

theorem compatible_cancelledLast : Affine.Compatible cancelledLast.operands := by
  constructor
  · intro a ha b hb
    have hsize : ∀ a ∈ cancelledLast.operands, a.size ≠ 1 → a.size = 2 := by
      simp [cancelledLast, operands, span, Block.size]
    exact fun hane hbne => (hsize a ha hane).trans (hsize b hb hbne).symm
  · intro a ha b hb o ho p hp
    have howner : ∀ a ∈ cancelledLast.operands, ∀ o ∈ a.owner, o = ⟨0⟩ := by
      simp [cancelledLast, operands, Affine.ofBlock, Affine.ofColumns, Affine.reshape, Affine.neg,
        Affine.scale, Affine.number, span]
    exact (howner a ha o ho).trans (howner b hb p hp).symm

theorem total_perm_cancelled : cancelledLast.operands.Perm cancelledFirst.operands ∧
    ∃ c d, cancelledLast.total = .ok c ∧ cancelledFirst.total = .ok d ∧ c.owner = d.owner ∧
      c.size = d.size ∧ c.linear = d.linear ∧ c.constant = d.constant := by
  obtain ⟨hiff, hboth, hequal⟩ := total_perm cancelledLast cancelledFirst perm_cancelled
  obtain ⟨c, hc⟩ := hiff.mpr compatible_cancelledLast
  obtain ⟨d, hd⟩ := hboth.mp ⟨c, hc⟩
  exact ⟨perm_cancelled, c, d, hc, hd, hequal c d hc hd⟩

end Bracketing

end ConicForm
