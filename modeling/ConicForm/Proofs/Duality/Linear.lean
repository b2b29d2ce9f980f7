import ConicForm.Proofs.Duality.Gap

/-!
# Weak duality of linear programs

## Main results

* `LinearProgram.weak_duality`: the objectives of a program and of its dual never sum to
  less than zero at feasible points
-/

namespace ConicForm

namespace LinearProgram

/-- **Weak duality.** A consistent program with continuous columns has a dual, and at feasible
points of the two their objectives, which point in opposite directions, sum to at least
zero. -/
theorem weak_duality {K : Type} [Field K] [LinearOrder K] [IsStrictOrderedRing K]
    {p : LinearProgram K} (hp : p.Consistent) (hc : ∀ t ∈ p.types, t = .continuous) :
    ∃ d, p.dualize = .ok d ∧ ∀ x y, p.Feasible x → d.Feasible y →
      0 ≤ p.objectiveValue x + d.objectiveValue y := by
  refine ⟨p.dualProgram, dualize_eq_ok p hc, fun x y hx hy => ?_⟩
  refine gap_nonneg_of_columns hp hx hy.upper fun j hj => ?_
  have hrow := hy.rows j hj
  rw [getD_senses_dualProgram p hj, rowValue_dualProgram hp, getD_constants_dualProgram p hj]
    at hrow
  exact reducedCost_mul_nonneg (hx.upper j hj) (hx.lower j hj) hrow

/-- Minimize `x₀ + 2 x₁ - x₂ + x₃` under `x₀ + x₁ + x₂ ≤ 4` and `x₀ - x₁ + x₃ = 1`, with columns
that are nonnegative, nonpositive, between -1 and 3, and nonnegative up to 5. -/
def mixedProgram : LinearProgram ℚ where
  linear := .ofTriplets 2 4 [⟨0, 0, 1⟩, ⟨0, 1, 1⟩, ⟨0, 2, 1⟩, ⟨1, 0, 1⟩, ⟨1, 1, -1⟩, ⟨1, 3, 1⟩]
  constants := [4, 1]
  senses := [.le, .eq]
  types := List.replicate 4 .continuous
  upper := [.plusInf, .value 0, .value 3, .value 5]
  lower := [.value 0, .minusInf, .value (-1), .value 0]
  objective := [1, 2, -1, 1]

theorem weak_duality_mixedProgram :
    mixedProgram.Consistent ∧ (∀ t ∈ mixedProgram.types, t = .continuous) ∧
      ∃ d, mixedProgram.dualize = .ok d ∧
        mixedProgram.Feasible ([0, -1, 2, 0].getD · 0) ∧ d.Feasible ([0, -2, -1].getD · 0) ∧
        0 ≤ mixedProgram.objectiveValue ([0, -1, 2, 0].getD · 0) +
          d.objectiveValue ([0, -2, -1].getD · 0) := by
  have hp : mixedProgram.Consistent := ⟨rfl, rfl, rfl, rfl, rfl, rfl⟩
  have hc : ∀ t ∈ mixedProgram.types, t = .continuous := by decide
  have hx : mixedProgram.Feasible ([0, -1, 2, 0].getD · 0) := by decide +kernel
  have hy : mixedProgram.dualProgram.Feasible ([0, -2, -1].getD · 0) := by decide +kernel
  obtain ⟨d, hd, hgap⟩ := weak_duality hp hc
  obtain rfl : mixedProgram.dualProgram = d := Except.ok.inj ((dualize_eq_ok _ hc).symm.trans hd)
  exact ⟨hp, hc, _, hd, hx, hy, hgap _ _ hx hy⟩

end LinearProgram

end ConicForm
