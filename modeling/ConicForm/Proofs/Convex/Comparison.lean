import ConicForm.Proofs.Convex.Expression

/-!
# Comparisons of convex expressions

A convex expression is a function of an affine input or its negation, with an offset. Negations and
sums keep the offset in the size of the function's value and its owner together with that of the
input. On such expressions the comparisons succeed on the side that the curvature allows, and the
constraint that they give says of the function what was compared.

## Main definitions

* `ConvexExpression.Composed`: what functions, negations, sums and differences lead to
* `ConvexExpression.Sound`: what all of these keep
* `ConvexKind.value`, `ConvexExpression.value`: the values of functions and of expressions
* `ConvexConstraint.Holds`: a convex constraint as it is documented

## Main results

* `ConvexExpression.Sound.value_add`, `ConvexExpression.value_neg`: the operations on values
* `ConvexExpression.Composed.comparisons`: when comparisons succeed, and what they mean
-/

namespace ConicForm

/-! ## What operations keep -/

section Sound

variable {α : Type} [Scalar α]

namespace ConvexConstraint

variable {kind : ConvexKind} {input residual : Affine α}

/-- A residual fits a function if it has the size of its value, or a single element. -/
theorem exists_fitResidual_iff :
    (∃ fitted, fitResidual kind input residual = .ok fitted) ↔
      (residual.size = if kind.elementwise then input.size else 1) ∨ residual.size = 1 := by
  unfold fitResidual
  split
  · next he =>
    split
    · next h => exact iff_of_true ⟨_, rfl⟩ h
    · next h => exact iff_of_false (by rintro ⟨f, ⟨⟩⟩) h
  · next he =>
    split
    · next h => exact iff_of_true ⟨_, rfl⟩ (.inr h)
    · next h => exact iff_of_false (by rintro ⟨f, ⟨⟩⟩) (by simpa using h)

end ConvexConstraint

namespace ConvexExpression

/-- Convex expressions that come from functions of affine expressions by any operations. -/
inductive Composed : ConvexExpression α → Prop
  | apply (kind : ConvexKind) (input : Affine α) : Composed (apply kind input)
  | neg {c} : Composed c → Composed c.neg
  | add {c d a} : Composed c → c.add a = .ok d → Composed d
  | sub {c d a} : Composed c → c.sub a = .ok d → Composed d

/-- Convex expressions with an offset of the size of the function's value, whose owner does not
differ from that of the input. -/
structure Sound (c : ConvexExpression α) : Prop where
  size : c.offset.size = if c.kind.elementwise then c.input.size else 1
  owner : ∀ o ∈ c.input.owner, ∀ p ∈ c.offset.owner, o = p

variable {c d : ConvexExpression α} {a r : Affine α} {v : ConvexConstraint ConvexKind α}

theorem sound_apply (kind : ConvexKind) (input : Affine α) : (apply kind input).Sound where
  size := apply_ite Shape.size (kind.elementwise = true) input.shape .scalar
  owner := by rintro o - p ⟨⟩

theorem Sound.neg (hc : c.Sound) : c.neg.Sound := ⟨hc.size, hc.owner⟩

theorem Sound.add (hc : c.Sound) (h : c.add a = .ok d) : d.Sound := by
  obtain ⟨offset, -, hsize, ⟨o, ho⟩, rfl⟩ := of_add_eq_ok h
  exact ⟨hc.size, (mergeOwners_eq_ok_iff.mp ho).1⟩

/-- **Every operation keeps expressions sound.** -/
theorem Composed.sound (hc : c.Composed) : c.Sound := by
  induction hc with
  | apply kind input => exact sound_apply kind input
  | neg _ ih => exact ih.neg
  | add _ h ih => exact ih.add h
  | sub _ h ih => exact ih.add h

/-- The owner of an expression is that of its input and of its offset, where they have one. -/
theorem Sound.mem_owner_iff (hc : c.Sound) {o : ModelId} :
    o ∈ c.owner ↔ o ∈ c.input.owner ∨ o ∈ c.offset.owner := by
  unfold ConvexExpression.owner
  constructor
  · intro ho
    rcases Option.or_eq_some_iff.mp ho with ho | ⟨-, ho⟩
    · exact .inl ho
    · exact .inr ho
  · rintro (ho | ho)
    · exact Option.or_eq_some_iff.mpr (.inl ho)
    · cases hi : c.input.owner with
      | none => exact ho
      | some i => exact congrArg some (hc.owner i hi o ho)

/-- What fits an expression combines with its offset, in the size that the offset has. -/
theorem exists_elementwise_offset (h : a.size = 1 ∨ a.size = c.shape.size) :
    ∃ s, c.offset.shape.elementwise a.shape = some s ∧ s.size = c.offset.size := by
  rcases h with hone | hsize
  · exact Shape.exists_elementwise_one hone
  · obtain ⟨s, hs, hss⟩ := Shape.exists_elementwise (s := c.offset.shape) hsize.symm
    exact ⟨s, hs, hss.trans hsize⟩

/-- A residual that fits has the size of the offset. -/
theorem Sound.size_residual (hc : c.Sound) (hr : c.offset.sub a = .ok r)
    (hf : ∃ fitted, ConvexConstraint.fitResidual c.kind c.input r = .ok fitted) :
    r.size = c.offset.size := by
  have hs : c.offset.shape.elementwise a.shape = some r.shape := (Affine.of_add_eq_ok hr).2.1
  rcases ConvexConstraint.exists_fitResidual_iff.mp hf with hsize | hone
  · exact hsize.trans hc.size.symm
  · have hoffset : c.offset.size = r.size ∨ c.offset.size = 1 := (Shape.size_of_elementwise hs).1
    omega

/-- What the constraint that an expression is at most another one is made of. -/
theorem of_le_eq_ok (h : c.le a = .ok v) :
    c.curvature = .convex ∧ ∃ r fitted, c.offset.sub a = .ok r ∧
      ConvexConstraint.fitResidual c.kind c.input r = .ok fitted ∧
      mergeOwners c.input.owner r.owner = .ok v.owner ∧ v.input = c.input ∧ v.kind = c.kind ∧
      v.output = if c.kind.squared then fitted else fitted.neg := by
  unfold le at h
  split at h
  · next hcurv =>
    obtain ⟨r, hr, h⟩ := exists_of_bind_eq_ok h
    obtain ⟨o, ho, h⟩ := exists_of_bind_eq_ok h
    obtain ⟨fitted, hf, h⟩ := exists_of_bind_eq_ok h
    cases h
    exact ⟨hcurv, r, fitted, hr, hf, ho, rfl, rfl, rfl⟩
  · cases h

/-- A comparison from below is one of the negations from above. -/
theorem ge_eq_ok_iff : c.ge a = .ok v ↔ c.curvature = .concave ∧ c.neg.le a.neg = .ok v := by
  unfold ge
  split
  · next hcurv => exact (and_iff_right hcurv).symm
  · next hcurv =>
    rw [hcurv]
    exact iff_of_false (by rintro ⟨⟩) (by rintro ⟨⟨⟩, -⟩)

/-- **When an expression may be bounded from above**: if it is convex, by a single element or by as
many as it has. -/
theorem Sound.exists_le_iff (hc : c.Sound) (hown : ∀ o ∈ c.owner, ∀ p ∈ a.owner, o = p) :
    (∃ v, c.le a = .ok v) ↔ c.curvature = .convex ∧ (a.size = 1 ∨ a.size = c.shape.size) := by
  constructor
  · rintro ⟨v, h⟩
    obtain ⟨hcurv, r, fitted, hr, hf, -⟩ := of_le_eq_ok h
    have hs : c.offset.shape.elementwise a.shape = some r.shape := (Affine.of_add_eq_ok hr).2.1
    have hsize : r.size = c.shape.size := hc.size_residual hr ⟨fitted, hf⟩
    have ha : a.size = r.size ∨ a.size = 1 := (Shape.size_of_elementwise hs).2
    rw [hsize] at ha
    exact ⟨hcurv, ha.symm⟩
  · rintro ⟨hcurv, hsize⟩
    have hmerge : mergeOwners c.offset.owner a.neg.owner = .ok (c.offset.owner.or a.owner) :=
      mergeOwners_eq_ok_iff.mpr
        ⟨fun o ho p hp => hown o (hc.mem_owner_iff.mpr (.inr ho)) p hp, rfl⟩
    obtain ⟨s, hs, hss⟩ : ∃ s, c.offset.shape.elementwise a.neg.shape = some s ∧
        s.size = c.offset.size := exists_elementwise_offset hsize
    obtain ⟨r, hr, hro, rfl⟩ := Affine.exists_add_of_owner hmerge hs
    obtain ⟨fitted, hf, -⟩ := ConvexConstraint.exists_fitResidual (hss.trans hc.size)
    have howner : mergeOwners c.input.owner r.owner = .ok (c.input.owner.or r.owner) := by
      refine mergeOwners_eq_ok_iff.mpr ⟨fun o ho p hp => ?_, rfl⟩
      rw [hro] at hp
      rcases Option.or_eq_some_iff.mp hp with hp | ⟨-, hp⟩
      · exact hc.owner o ho p hp
      · exact hown o (hc.mem_owner_iff.mpr (.inl ho)) p hp
    exact ⟨_, le_eq_ok hcurv hr howner hf⟩

theorem Sound.exists_ge_iff (hc : c.Sound) (hown : ∀ o ∈ c.owner, ∀ p ∈ a.owner, o = p) :
    (∃ v, c.ge a = .ok v) ↔ c.curvature = .concave ∧ (a.size = 1 ∨ a.size = c.shape.size) := by
  simp only [ge_eq_ok_iff, exists_and_left, hc.neg.exists_le_iff (a := a.neg) hown]
  refine and_congr_right fun hcurv => ?_
  refine and_iff_right ?_
  show c.curvature.flip = .convex
  rw [hcurv]
  rfl

end ConvexExpression

end Sound

/-! ## Values -/

variable {K : Type} [Field K] [LinearOrder K]

/-- The value of a function of `n` elements `u` at a position. A function of all elements has its
value at position zero. The square root and the exponential are those of the field. -/
def ConvexKind.value (root expo : K → K) (n : Nat) (u : Nat → K) (i : Nat) : ConvexKind → K
  | piecewise .abs => |u i|
  | piecewise .norm1 => ∑ j ∈ Finset.range n, |u j|
  | piecewise .normInf => (Finset.range n).fold max 0 fun j => |u j|
  | conic .norm2 => root (∑ j ∈ Finset.range n, u j ^ 2)
  | conic .square => u i ^ 2
  | conic .sumSquares => ∑ j ∈ Finset.range n, u j ^ 2
  | exp => expo (u i)

variable {root expo : K → K} {x : Nat → K}

namespace ConvexConstraint

/-- Whether a convex constraint holds: a function of the input is at most the output, except that
squares sum with the output to at most zero. A function of elements is taken of each of them, any
other one has the first element of the output as its bound. -/
def Holds (root expo : K → K) (v : ConvexConstraint ConvexKind K) (x : Nat → K) : Prop :=
  let n := v.input.size
  let u := v.input.value x
  let w := v.output.value x
  match v.kind with
  | .piecewise .abs => ∀ i < n, |u i| ≤ w i
  | .piecewise .norm1 => ∑ j ∈ Finset.range n, |u j| ≤ w 0
  | .piecewise .normInf => ((Finset.range n).fold max 0 fun j => |u j|) ≤ w 0
  | .conic .norm2 => root (∑ j ∈ Finset.range n, u j ^ 2) ≤ w 0
  | .conic .square => ∀ i < n, u i ^ 2 + w i ≤ 0
  | .conic .sumSquares => ∑ j ∈ Finset.range n, u j ^ 2 + w 0 ≤ 0
  | .exp => ∀ i < n, expo (u i) ≤ w i

/-- The same for all functions: what a constraint says of the values of its function. -/
theorem holds_iff {v : ConvexConstraint ConvexKind K} :
    v.Holds root expo x ↔ ∀ i < if v.kind.elementwise then v.input.size else 1,
      if v.kind.squared then
        v.kind.value root expo v.input.size (v.input.value x) i + v.output.value x i ≤ 0
      else v.kind.value root expo v.input.size (v.input.value x) i ≤ v.output.value x i := by
  have hone : ∀ P : Nat → Prop, (∀ i < 1, P i) ↔ P 0 := by simp
  unfold Holds
  rcases v.kind with (_ | _ | _) | (_ | _ | _) | _
  case piecewise.abs | conic.square | exp => exact Iff.rfl
  case piecewise.norm1 | piecewise.normInf | conic.norm2 | conic.sumSquares =>
    refine Iff.symm ?_
    exact hone _

end ConvexConstraint

namespace ConvexExpression

variable {c d : ConvexExpression K} {a r : Affine K} {v : ConvexConstraint ConvexKind K} {i : Nat}

/-- The value of an expression at a position: the function or its negation, plus the offset. -/
def value (root expo : K → K) (c : ConvexExpression K) (x : Nat → K) (i : Nat) : K :=
  (match c.curvature with
    | .convex => c.kind.value root expo c.input.size (c.input.value x) i
    | .concave => -c.kind.value root expo c.input.size (c.input.value x) i) +
  c.offset.value x i

theorem value_neg : c.neg.value root expo x i = -c.value root expo x i := by
  unfold value
  rw [neg_add, ← Affine.value_neg]
  cases hcurv : c.curvature with
  | convex => simp [neg, hcurv, Curvature.flip]
  | concave => simp [neg, hcurv, Curvature.flip]

theorem value_add (h : c.add a = .ok d) (hi : i < c.shape.size) :
    d.value root expo x i = c.value root expo x i + a.spread x i := by
  obtain ⟨offset, ho, hsize, -, rfl⟩ := of_add_eq_ok h
  have hoffset : (offset.reshape c.shape hsize.symm).value x i =
      c.offset.value x i + a.spread x i := by
    refine (Affine.value_add ho (hi.trans_eq hsize.symm)).trans ?_
    rw [Affine.spread_of_lt hi]
  unfold value
  rw [hoffset, add_assoc]

theorem value_sub (h : c.sub a = .ok d) (hi : i < c.shape.size) :
    d.value root expo x i = c.value root expo x i - a.spread x i := by
  rw [value_add h hi, Affine.spread_neg, sub_eq_add_neg]

variable [IsStrictOrderedRing K]

/-- **What a comparison from above says**: the value of the expression is at most what it is
compared with, at every position. -/
theorem Sound.holds_iff_of_le (hc : c.Sound) (h : c.le a = .ok v) :
    v.Holds root expo x ↔ ∀ i < c.shape.size, c.value root expo x i ≤ a.spread x i := by
  obtain ⟨hcurv, r, fitted, hr, hf, -, hinput, hkind, houtput⟩ := of_le_eq_ok h
  have hsize : r.size = c.offset.size := hc.size_residual hr ⟨fitted, hf⟩
  have hfitted : ∀ i < c.offset.size, fitted.value x i = c.offset.value x i - a.spread x i := by
    intro i hi
    obtain ⟨f, hf', hl, hconst⟩ := ConvexConstraint.exists_fitResidual (hsize.trans hc.size)
    obtain rfl := Except.ok.inj (hf'.symm.trans hf)
    rw [Affine.value, hl, hconst]
    refine (Affine.value_sub hr (hi.trans_eq hsize.symm)).trans ?_
    rw [Affine.spread_of_lt hi]
  rw [ConvexConstraint.holds_iff, hkind, hinput, houtput, ← hc.size]
  refine forall₂_congr fun i hi => ?_
  rw [value, hcurv]
  dsimp only
  split
  · rw [hfitted i hi, ← add_sub_assoc, sub_nonpos]
  · rw [Affine.value_neg, hfitted i hi, neg_sub, le_sub_iff_add_le]

theorem Sound.holds_iff_of_ge (hc : c.Sound) (h : c.ge a = .ok v) :
    v.Holds root expo x ↔ ∀ i < c.shape.size, a.spread x i ≤ c.value root expo x i := by
  obtain ⟨-, h⟩ := ge_eq_ok_iff.mp h
  rw [hc.neg.holds_iff_of_le h]
  refine forall₂_congr fun i _ => ?_
  rw [value_neg, Affine.spread_neg, neg_le_neg_iff]

/-- **Convex comparisons mean what they say.** An expression may be bounded from above if it is
convex and from below if it is concave, by a single element or by as many as it has; and the
constraint holds where the value of the expression meets the bound, at every position. -/
theorem Composed.comparisons (hc : c.Composed)
    (hown : ∀ o ∈ c.owner, ∀ p ∈ a.owner, o = p) :
    ((∃ v, c.le a = .ok v) ↔ c.curvature = .convex ∧ (a.size = 1 ∨ a.size = c.shape.size)) ∧
    ((∃ v, c.ge a = .ok v) ↔ c.curvature = .concave ∧ (a.size = 1 ∨ a.size = c.shape.size)) ∧
    ∀ (root expo : K → K) (x : Nat → K),
      (∀ v, c.le a = .ok v →
        (v.Holds root expo x ↔ ∀ i < c.shape.size, c.value root expo x i ≤ a.spread x i)) ∧
      ∀ v, c.ge a = .ok v →
        (v.Holds root expo x ↔ ∀ i < c.shape.size, a.spread x i ≤ c.value root expo x i) :=
  ⟨hc.sound.exists_le_iff hown, hc.sound.exists_ge_iff hown, fun _ _ _ =>
    ⟨fun _ h => hc.sound.holds_iff_of_le h, fun _ h => hc.sound.holds_iff_of_ge h⟩⟩

/-- The block of a vector. -/
def slopes : Block := ⟨⟨0⟩, 1, .vector 2, .continuous, none⟩

/-- The negated squares of the columns of the block. -/
def dome : ConvexExpression ℚ := (apply (.conic .square) (.ofBlock slopes)).neg

theorem comparisons_dome : ∃ c v, dome.add (.number 10) = .ok c ∧ c.Composed ∧
    c.ge (.number 1) = .ok v ∧ v.Holds id id ([0, 3, -2].getD · 0) ∧
    ¬v.Holds id id ([0, 4, 0].getD · 0) ∧ ¬∃ w, c.le (.number 1) = .ok w := by
  obtain ⟨c, v, hc, hv⟩ :
      ∃ c v, dome.add (.number 10) = .ok c ∧ c.ge (.number 1) = .ok v := ⟨_, _, rfl, rfl⟩
  have hcomposed : c.Composed := .add (.neg (.apply _ _)) hc
  obtain ⟨hle, hge, hholds⟩ :=
    hcomposed.comparisons (a := .number 1) (by rintro o - p ⟨⟩)
  have hcurv := (hge.mp ⟨v, hv⟩).1
  have hcheck : (do
      let c ← dome.add (.number 10)
      return decide ((∀ i < c.shape.size, (Affine.number 1).spread ([0, 3, -2].getD · 0) i ≤
          c.value id id ([0, 3, -2].getD · 0) i) ∧
        ¬∀ i < c.shape.size, (Affine.number 1).spread ([0, 4, 0].getD · 0) i ≤
          c.value id id ([0, 4, 0].getD · 0) i)) = Except.ok true := by decide +kernel
  rw [hc] at hcheck
  obtain ⟨hmeets, hfails⟩ := of_decide_eq_true (Except.ok.inj hcheck)
  refine ⟨c, v, hc, hcomposed, hv, ((hholds _ _ _).2 v hv).mpr hmeets,
    fun h => hfails (((hholds _ _ _).2 v hv).mp h), fun h => ?_⟩
  have := (hle.mp h).1
  rw [hcurv] at this
  cases this

end ConvexExpression

end ConicForm
