import ConicForm.Proofs.Canonical.Scope

/-!
# Expansions that realize a condition

An expansion adds columns of its own to those below it. It realizes a condition on the
columns below if the assignments that satisfy the condition are those that extend to the
added columns so that all rows, bounds and records of the expansion hold. Such expansions
may be put one after another: neither touches the columns of the other.

## Main definitions

* `Expansion.Holds`: all rows, bounds and records hold
* `Expansion.Confined`: rows, bounds and records stay within the columns they may use
* `Expansion.Realizes`: extensions exist for the assignments of a condition, and for no other
* `extend`: an assignment with further columns

## Main results

* `Expansion.Realizes.append`: expansions one after another realize both conditions
-/

namespace ConicForm

variable {K : Type} [Field K] [LinearOrder K]

/-- The assignment whose columns from `n` on are `f`. -/
def extend (x : Nat → K) (n : Nat) (f : Nat → K) : Nat → K := fun j =>
  if j < n then x j else f (j - n)

section Extend

omit [Field K] [LinearOrder K]

variable {x f : Nat → K} {n j : Nat}

theorem extend_of_lt (h : j < n) : extend x n f j = x j := if_pos h

@[simp] theorem extend_add (i : Nat) : extend x n f (n + i) = f i := by simp [extend]

/-- Columns from `n` on may be set to `m` values followed by others. -/
theorem exists_extend_extend (x f g : Nat → K) (n m : Nat) :
    ∃ x' : Nat → K, (∀ j < n, x' j = x j) ∧ (∀ i < m, x' (n + i) = f i) ∧
      ∀ i, x' (n + m + i) = g i := by
  refine ⟨extend (extend x n f) (n + m) g, fun j hj => ?_, fun i hi => ?_, extend_add⟩
  · rw [extend_of_lt (by omega), extend_of_lt hj]
  · rw [extend_of_lt (by omega), extend_add]

end Extend

namespace Expansion

/-- Whether all rows, bounds and records hold. -/
structure Holds (e : Expansion K) (x : Nat → K) : Prop where
  rows : ∀ c ∈ e.rows, c.Holds x
  bounds : ∀ b ∈ e.bounds, b.Holds x
  records : ∀ r ∈ e.records, RecordHolds x r

/-- Added columns start at `next`. Rows may use all columns below the end of these, bounds and
records only these; bounds are zeros from below, and every head occurs in some row. -/
structure Confined (e : Expansion K) (next : Nat) : Prop where
  types : ∀ b ∈ e.blocks, b.type = .continuous
  rows : ∀ c ∈ e.rows, c.linear.ncols ≤ next + e.width
  bounds : ∀ b ∈ e.bounds, b.side = .lower ∧
    ∀ q ∈ b.items, (next ≤ q.1 ∧ q.1 < next + e.width) ∧ q.2 = .value 0
  records : ∀ r ∈ e.records, r ≠ [] ∧ ∀ j ∈ r, next ≤ j ∧ j < next + e.width
  heads : ∀ r ∈ e.records, ∀ j ∈ r.head?, ∃ c ∈ e.rows, c.Mentions j

theorem Confined.scoped {e : Expansion K} {next : Nat} (he : e.Confined next) :
    e.Scoped next where
  types := he.types
  rows := he.rows
  bounds b hb q hq := ((he.bounds b hb).2 q hq).1.2
  records r hr := ⟨(he.records r hr).1, fun j hj => ((he.records r hr).2 j hj).2⟩

theorem Holds.congr {e : Expansion K} {next : Nat} (he : e.Confined next) {x x' : Nat → K}
    (h : ∀ j < next + e.width, x j = x' j) (hx : e.Holds x) : e.Holds x' where
  rows c hc := (hx.rows c hc).congr fun j hj => h j (hj.trans_le (he.rows c hc))
  bounds b hb := (hx.bounds b hb).congr fun q hq => h _ ((he.bounds b hb).2 q hq).1.2
  records r hr := (hx.records r hr).congr fun j hj => h j ((he.records r hr).2 j hj).2

/-- An expansion holds at some extension of an assignment exactly if the condition `P` holds
at the assignment. -/
structure Realizes (e : Expansion K) (next : Nat) (P : (Nat → K) → Prop) : Prop
    extends e.Confined next where
  sound : ∀ x, e.Holds x → P x
  complete : ∀ x, P x → ∃ x', (∀ j < next, x' j = x j) ∧ e.Holds x'

section Realizes

variable {e f : Expansion K} {next : Nat} {P Q : (Nat → K) → Prop}

theorem Realizes.congr (h : e.Realizes next P) (hPQ : ∀ x, P x ↔ Q x) : e.Realizes next Q where
  toConfined := h.toConfined
  sound x hx := (hPQ x).mp (h.sound x hx)
  complete x hx := h.complete x ((hPQ x).mpr hx)

theorem holds_append {x : Nat → K} : (e.append f).Holds x ↔ e.Holds x ∧ f.Holds x := by
  constructor
  · intro h
    refine ⟨⟨fun c hc => ?_, fun b hb => ?_, fun r hr => ?_⟩,
      ⟨fun c hc => ?_, fun b hb => ?_, fun r hr => ?_⟩⟩
    · exact h.rows c (List.mem_append_left _ hc)
    · exact h.bounds b (List.mem_append_left _ hb)
    · exact h.records r (List.mem_append_left _ hr)
    · exact h.rows c (List.mem_append_right _ hc)
    · exact h.bounds b (List.mem_append_right _ hb)
    · exact h.records r (List.mem_append_right _ hr)
  · rintro ⟨he, hf⟩
    refine ⟨fun c hc => ?_, fun b hb => ?_, fun r hr => ?_⟩
    · rcases List.mem_append.mp hc with hc | hc
      · exact he.rows c hc
      · exact hf.rows c hc
    · rcases List.mem_append.mp hb with hb | hb
      · exact he.bounds b hb
      · exact hf.bounds b hb
    · rcases List.mem_append.mp hr with hr | hr
      · exact he.records r hr
      · exact hf.records r hr

theorem Confined.append (he : e.Confined next) (hf : f.Confined (next + e.width)) :
    (e.append f).Confined next where
  types b hb := by
    rcases List.mem_append.mp hb with hb | hb
    · exact he.types b hb
    · exact hf.types b hb
  rows c hc := by
    rw [width_append]
    rcases List.mem_append.mp hc with hc | hc
    · exact (he.rows c hc).trans (by omega)
    · exact (hf.rows c hc).trans (by omega)
  bounds b hb := by
    rw [width_append]
    rcases List.mem_append.mp hb with hb | hb
    · refine ⟨(he.bounds b hb).1, fun q hq => ?_⟩
      obtain ⟨⟨hlo, hhi⟩, hzero⟩ := (he.bounds b hb).2 q hq
      exact ⟨⟨hlo, by omega⟩, hzero⟩
    · refine ⟨(hf.bounds b hb).1, fun q hq => ?_⟩
      obtain ⟨⟨hlo, hhi⟩, hzero⟩ := (hf.bounds b hb).2 q hq
      exact ⟨⟨by omega, by omega⟩, hzero⟩
  records r hr := by
    rw [width_append]
    rcases List.mem_append.mp hr with hr | hr
    · refine ⟨(he.records r hr).1, fun j hj => ?_⟩
      have := (he.records r hr).2 j hj
      omega
    · refine ⟨(hf.records r hr).1, fun j hj => ?_⟩
      have := (hf.records r hr).2 j hj
      omega
  heads r hr j hj := by
    rcases List.mem_append.mp hr with hr | hr
    · obtain ⟨c, hc, hm⟩ := he.heads r hr j hj
      exact ⟨c, List.mem_append_left _ hc, hm⟩
    · obtain ⟨c, hc, hm⟩ := hf.heads r hr j hj
      exact ⟨c, List.mem_append_right _ hc, hm⟩

/-- **Expansions one after another realize both conditions**, if that of the second one is on
the columns below the first. -/
theorem Realizes.append (he : e.Realizes next P) (hf : f.Realizes (next + e.width) Q)
    (hQ : ∀ x x' : Nat → K, (∀ j < next, x j = x' j) → Q x → Q x') :
    (e.append f).Realizes next fun x => P x ∧ Q x where
  toConfined := he.toConfined.append hf.toConfined
  sound x hx := by
    obtain ⟨hxe, hxf⟩ := holds_append.mp hx
    exact ⟨he.sound x hxe, hf.sound x hxf⟩
  complete x hx := by
    -- extend for the first expansion, then for the second, which leaves the columns below alone
    obtain ⟨x₁, h₁, hxe⟩ := he.complete x hx.1
    obtain ⟨x₂, h₂, hxf⟩ := hf.complete x₁ (hQ x x₁ (fun j hj => (h₁ j hj).symm) hx.2)
    refine ⟨x₂, fun j hj => ?_, holds_append.mpr ⟨?_, hxf⟩⟩
    · rw [h₂ j (by omega), h₁ j hj]
    · exact hxe.congr he.toConfined fun j hj => (h₂ j hj).symm

/-- An expansion that adds no columns realizes what its rows say. -/
theorem realizes_rows {rows : List (LinearConstraint K)} (hw : ∀ c ∈ rows, c.linear.ncols ≤ next)
    (hP : ∀ x, (∀ c ∈ rows, c.Holds x) ↔ P x) :
    ({ rows := rows } : Expansion K).Realizes next P where
  types := by simp
  rows := hw
  bounds := by simp
  records := by simp
  heads := by simp
  sound x hx := (hP x).mp hx.rows
  complete x hx := ⟨x, fun _ _ => rfl, (hP x).mpr hx, by simp, by simp⟩

end Realizes

end Expansion

end ConicForm
