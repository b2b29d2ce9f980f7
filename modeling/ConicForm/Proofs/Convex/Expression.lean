import ConicForm.Convex.Expression
import ConicForm.Proofs.Constraint.Meaning

/-!
# Convex expressions within a model

An expression over the columns of a model keeps an offset of the size of its function's value,
and the constraints that it forms have an output of that size. The constraint under a scalar
says that the function is at most what the scalar leaves above the offset.

## Main definitions

* `ConvexExpression.Scoped`: expressions over the first columns of a model
* `ConvexKind.AtMost`: any convex function under a bound

## Main results

* `ConvexExpression.Scoped.add`, `ConvexExpression.Scoped.le`, `ConvexExpression.Scoped.ge`: what
  is built from expressions of a model stays within it
* `ConvexExpression.exists_le_scalar`: the constraint under a scalar
-/

namespace ConicForm

section Scope

variable {α : Type} [Scalar α] {id : ModelId} {n : Nat}

namespace ConvexExpression

/-- Expressions over the first `n` columns of a model, with an offset of the size of the value. -/
structure Scoped (id : ModelId) (n : Nat) (c : ConvexExpression α) : Prop where
  input : c.input.Within id n
  offset : c.offset.Within id n
  size : c.offset.size = if c.kind.elementwise then c.input.size else 1

theorem scoped_apply (kind : ConvexKind) {input : Affine α} (hi : input.Within id n) :
    (apply kind input).Scoped id n where
  input := hi
  offset := Affine.within_zeros _
  size := apply_ite Shape.size (kind.elementwise = true) input.shape .scalar

variable {c d : ConvexExpression α} {a : Affine α}

theorem Scoped.neg (hc : c.Scoped id n) : c.neg.Scoped id n :=
  ⟨hc.input, hc.offset.neg, hc.size⟩

/-- What a sum is made of. -/
theorem of_add_eq_ok (h : c.add a = .ok d) :
    ∃ offset, c.offset.add a = .ok offset ∧ ∃ hsize : offset.size = c.offset.size,
      (∃ o, mergeOwners c.input.owner offset.owner = .ok o) ∧
        d = { c with offset := offset.reshape c.shape hsize.symm } := by
  obtain ⟨offset, ho, h⟩ := exists_of_bind_eq_ok h
  split at h
  · next hsize =>
    obtain ⟨owner, hm, h⟩ := exists_of_bind_eq_ok h
    cases h
    exact ⟨offset, ho, hsize, ⟨owner, hm⟩, rfl⟩
  · cases h

theorem Scoped.add (hc : c.Scoped id n) (ha : a.Within id n) (h : c.add a = .ok d) :
    d.Scoped id n := by
  obtain ⟨offset, ho, hsize, -, rfl⟩ := of_add_eq_ok h
  exact ⟨hc.input, (hc.offset.add ha ho).reshape c.shape hsize.symm, hc.size⟩

end ConvexExpression

namespace ConvexConstraint

variable {kind : ConvexKind} {input residual fitted : Affine α}

theorem size_fitResidual (h : fitResidual kind input residual = .ok fitted) :
    fitted.size = if kind.elementwise then input.size else 1 := by
  unfold fitResidual at h
  split at h
  · next he =>
    rw [if_pos he]
    split at h
    · cases h
      rfl
    · cases h
  · next he =>
    rw [if_neg he]
    split at h
    · next hone =>
      cases h
      exact hone
    · cases h

theorem within_fitResidual (hr : residual.Within id n)
    (h : fitResidual kind input residual = .ok fitted) : fitted.Within id n := by
  unfold fitResidual at h
  split at h
  · split at h
    · cases h
      exact (hr.broadcast _).reshape _ _
    · cases h
  · split at h
    · cases h
      exact hr
    · cases h

/-- A residual of the size of the function's value is kept as it is. -/
theorem exists_fitResidual (h : residual.size = if kind.elementwise then input.size else 1) :
    ∃ fitted, fitResidual kind input residual = .ok fitted ∧
      fitted.linear = residual.linear ∧ fitted.constant = residual.constant := by
  unfold fitResidual
  split
  · next he =>
    rw [if_pos he] at h
    have hkeep : residual.broadcast input.size = residual := if_pos h
    have hlinear : (residual.broadcast input.size).linear = residual.linear := by rw [hkeep]
    have hconstant : (residual.broadcast input.size).constant = residual.constant := by rw [hkeep]
    rw [dif_pos (.inl h)]
    exact ⟨_, rfl, hlinear, hconstant⟩
  · next he =>
    rw [if_neg he] at h
    rw [if_pos h]
    exact ⟨_, rfl, rfl, rfl⟩

theorem scoped_ofResidual {v : ConvexConstraint ConvexKind α} (hi : input.Within id n)
    (hr : residual.Within id n) (h : ofResidual kind input residual = .ok v) :
    v.Scoped ConvexKind.elementwise id n := by
  obtain ⟨owner, -, h⟩ := exists_of_bind_eq_ok h
  obtain ⟨fitted, hf, h⟩ := exists_of_bind_eq_ok h
  cases h
  have hw := within_fitResidual hr hf
  have hsize := size_fitResidual hf
  refine ⟨hi, ?_, ?_⟩
  · show (if kind.squared then fitted else fitted.neg).Within id n
    split
    · exact hw
    · exact hw.neg
  · show (if kind.squared then fitted else fitted.neg).size = _
    split
    · exact hsize
    · exact hsize

end ConvexConstraint

namespace ConvexExpression

variable {c : ConvexExpression α} {a : Affine α} {v : ConvexConstraint ConvexKind α}

/-- A convex expression under another one is the constraint of the residual, once this fits. -/
theorem le_eq_ok {r f : Affine α} {o : Option ModelId} (hcurv : c.curvature = .convex)
    (hr : c.offset.sub a = .ok r) (ho : mergeOwners c.input.owner r.owner = .ok o)
    (hf : ConvexConstraint.fitResidual c.kind c.input r = .ok f) :
    c.le a = .ok ⟨o, c.input, if c.kind.squared then f else f.neg, c.kind⟩ := by
  simp only [ConvexExpression.le, hcurv, hr, bind, Except.bind, ConvexConstraint.ofResidual, ho, hf,
    pure, Except.pure]

/-- The constraint that an expression is at most another one. -/
theorem Scoped.le (hc : c.Scoped id n) (ha : a.Within id n) (h : c.le a = .ok v) :
    v.Scoped ConvexKind.elementwise id n := by
  unfold ConvexExpression.le at h
  split at h
  · obtain ⟨r, hr, h⟩ := exists_of_bind_eq_ok h
    exact ConvexConstraint.scoped_ofResidual hc.input (hc.offset.add ha.neg hr) h
  · cases h

theorem Scoped.ge (hc : c.Scoped id n) (ha : a.Within id n) (h : c.ge a = .ok v) :
    v.Scoped ConvexKind.elementwise id n := by
  unfold ConvexExpression.ge at h
  split at h
  · exact hc.neg.le ha.neg h
  · cases h

end ConvexExpression

end Scope

/-! ## Values -/

variable {K : Type} [Field K] [LinearOrder K] {id : ModelId} {n : Nat}

/-- Whether a convex function of `m` elements `u` is at most `w`. The exponential, which has no
value in an ordered field, is not at most anything. -/
def ConvexKind.AtMost (m : Nat) (u w : Nat → K) : ConvexKind → Prop
  | piecewise k => k.AtMost m u w
  | conic k => k.AtMost m u w
  | exp => False

namespace ConvexExpression

/-- A convex expression under a scalar is a constraint, whose output is the difference of the
two, negated unless the function squares. -/
theorem exists_le_scalar {c : ConvexExpression K} {a : Affine K} (hc : c.Scoped id n)
    (hcurv : c.curvature = .convex) (ha : a.Within id n) (hs : a.shape = .scalar) :
    ∃ v, c.le a = .ok v ∧ v.input = c.input ∧ v.kind = c.kind ∧
      ∀ x, ∀ i < c.offset.size, v.output.value x i =
        if c.kind.squared then c.offset.value x i - a.value x 0
        else a.value x 0 - c.offset.value x i := by
  have helem : c.offset.shape.elementwise a.shape = some c.offset.shape :=
    hs ▸ Shape.elementwise_scalar _
  obtain ⟨r, hr, hrs, hrw, hrv⟩ := Affine.exists_sub hc.offset ha helem
  have hrsize : r.size = if c.kind.elementwise then c.input.size else 1 := by
    rw [Affine.size, hrs]
    exact hc.size
  obtain ⟨f, hf, hfl, hfc⟩ := ConvexConstraint.exists_fitResidual hrsize
  have hvalue : ∀ x, ∀ i < c.offset.size,
      f.value x i = c.offset.value x i - a.value x 0 := by
    intro x i hi
    have hfr : f.value x i = r.value x i := by rw [Affine.value, Affine.value, hfl, hfc]
    rw [hfr, hrv x i hi, Affine.spread_of_lt hi,
      Affine.spread_of_size_eq_one (by rw [Affine.size, hs]; rfl)]
  refine ⟨_, le_eq_ok hcurv hr (hc.input.mergeOwners hrw) hf, rfl, rfl, fun x i hi => ?_⟩
  dsimp only
  split
  · exact hvalue x i hi
  · rw [Affine.value_neg, hvalue x i hi, neg_sub]

end ConvexExpression

end ConicForm
