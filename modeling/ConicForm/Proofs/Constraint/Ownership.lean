import ConicForm.Constraint
import ConicForm.Proofs.Affine.Term
import ConicForm.Proofs.Convex.Comparison

/-!
# The owners of compositions

Every operation on expressions and every constraint merges the owners of its parts. A convex
expression has two owners, of its input and of its offset, and merges each of them. As long as
sizes and curvatures fit, merging is all that can fail: what is composed records the common owner
of the blocks that occur in it, whatever their coefficients are, and there is none to build if they
have different owners. A selection is an occurrence of its block, however few elements it has.

## Main definitions

* `commonOwner`: the owner that blocks have in common
* `ConvexTerm`, `ConstraintTerm`: compositions of convex expressions, and constraints on
  compositions
* `ConvexTerm.shape?`, `ConvexTerm.curvature`, `ConstraintTerm.Fits`: sizes and curvatures that fit
* `Tracks`: results that record an owner, or fail where there is none

## Main results

* `commonOwner_append`: the owner of two lists of blocks is merged from their owners
* `AffineTerm.tracks`, `ConvexTerm.tracks`, `ConstraintTerm.tracks`: what is composed records the
  common owner of its blocks
-/

namespace ConicForm

/-! ## Common owners -/

theorem mergeOwners_none (a : Option ModelId) : mergeOwners a none = .ok a := by cases a <;> rfl

theorem mergeOwners_comm (a b : Option ModelId) : mergeOwners a b = mergeOwners b a := by
  cases a with
  | none => exact (mergeOwners_none b).symm
  | some i =>
    cases b with
    | none => rfl
    | some j =>
      by_cases h : i = j
      · rw [h]
      · simp [mergeOwners, h, Ne.symm h]

theorem mergeOwners_assoc (a b c : Option ModelId) :
    (mergeOwners a b >>= fun o => mergeOwners o c) = mergeOwners b c >>= mergeOwners a := by
  cases a with
  | none => exact (bind_pure (mergeOwners b c)).symm
  | some i =>
    cases b with
    | none => cases c <;> rfl
    | some j =>
      by_cases hij : i = j
      · subst hij
        cases c with
        | none => simp [mergeOwners, bind, Except.bind]
        | some k => by_cases hik : i = k <;> simp [mergeOwners, bind, Except.bind, hik]
      · cases c with
        | none => simp [mergeOwners, bind, Except.bind, hij]
        | some k =>
          by_cases hjk : j = k
          · subst hjk
            simp [mergeOwners, bind, Except.bind, hij]
          · simp [mergeOwners, bind, Except.bind, hij, hjk]

/-- The owner that blocks have in common, none if there are no blocks. -/
def commonOwner : List Block → Except Error (Option ModelId)
  | [] => .ok none
  | b :: bs => commonOwner bs >>= mergeOwners (some b.owner)

variable {bs : List Block} {o : Option ModelId} {e : Error}

theorem commonOwner_eq_error (h : commonOwner bs = .error e) : e = .ownership := by
  induction bs with
  | nil => cases h
  | cons b bs ih =>
    rw [commonOwner] at h
    cases hbs : commonOwner bs with
    | error e' =>
      rw [hbs] at h
      cases h
      exact ih hbs
    | ok o =>
      rw [hbs] at h
      exact mergeOwners_eq_error h

/-- A common owner is the owner of every block, and there is one only of blocks. -/
theorem of_commonOwner_eq_ok (h : commonOwner bs = .ok o) :
    (∀ b ∈ bs, o = some b.owner) ∧ ∀ i ∈ o, ∃ b ∈ bs, b.owner = i := by
  induction bs generalizing o with
  | nil =>
    cases h
    exact ⟨by simp, by rintro i ⟨⟩⟩
  | cons b bs ih =>
    obtain ⟨p, hp, h⟩ := exists_of_bind_eq_ok h
    obtain ⟨hagree, rfl⟩ := mergeOwners_eq_ok_iff.mp h
    refine ⟨List.forall_mem_cons.mpr ⟨rfl, fun c hc => ?_⟩, ?_⟩
    · exact congrArg some (hagree b.owner rfl c.owner ((ih hp).1 c hc))
    · rintro i ⟨⟩
      exact ⟨b, List.mem_cons_self, rfl⟩

theorem commonOwner_eq_ok_none_iff : commonOwner bs = .ok none ↔ bs = [] := by
  constructor
  · intro h
    cases bs with
    | nil => rfl
    | cons b bs => cases (of_commonOwner_eq_ok h).1 b List.mem_cons_self
  · rintro rfl
    rfl

/-- Blocks whose owners do not differ have a common owner. -/
theorem exists_commonOwner (h : ∀ b ∈ bs, ∀ c ∈ bs, b.owner = c.owner) :
    ∃ o, commonOwner bs = .ok o := by
  induction bs with
  | nil => exact ⟨none, rfl⟩
  | cons b bs ih =>
    obtain ⟨p, hp⟩ := ih fun c hc d hd =>
      h c (List.mem_cons_of_mem _ hc) d (List.mem_cons_of_mem _ hd)
    refine ⟨(some b.owner).or p, ?_⟩
    rw [commonOwner, hp]
    refine mergeOwners_eq_ok_iff.mpr ⟨?_, rfl⟩
    rintro i ⟨⟩ j hj
    obtain ⟨c, hc, rfl⟩ := (of_commonOwner_eq_ok hp).2 j hj
    exact h b List.mem_cons_self c (List.mem_cons_of_mem _ hc)

/-- Blocks have no common owner exactly if two of them have different ones. -/
theorem commonOwner_eq_error_iff :
    commonOwner bs = .error .ownership ↔ ∃ b ∈ bs, ∃ c ∈ bs, b.owner ≠ c.owner := by
  constructor
  · intro h
    by_contra hsame
    obtain ⟨o, ho⟩ := exists_commonOwner fun b hb c hc =>
      not_not.mp fun hne => hsame ⟨b, hb, c, hc, hne⟩
    cases ho.symm.trans h
  · rintro ⟨b, hb, c, hc, hne⟩
    cases h : commonOwner bs with
    | error e => rw [commonOwner_eq_error h]
    | ok o =>
      obtain ⟨hall, -⟩ := of_commonOwner_eq_ok h
      exact absurd (Option.some.inj ((hall b hb).symm.trans (hall c hc))) hne

/-- The owner of two lists of blocks is merged from their owners. -/
theorem commonOwner_append (bs cs : List Block) :
    commonOwner (bs ++ cs) = commonOwner bs >>= fun o => commonOwner cs >>= mergeOwners o := by
  induction bs with
  | nil => exact (bind_pure (commonOwner cs)).symm
  | cons b bs ih =>
    rw [List.cons_append, commonOwner, ih, commonOwner, bind_assoc, bind_assoc]
    refine congrArg _ (funext fun o => ?_)
    cases hc : commonOwner cs with
    | ok p => exact (mergeOwners_assoc (some b.owner) o p).symm
    | error e =>
      obtain rfl := commonOwner_eq_error hc
      cases hm : mergeOwners (some b.owner) o with
      | error e => rw [mergeOwners_eq_error hm]; rfl
      | ok p => rfl

/-! ## Results that track an owner -/

/-- Results that record an owner, if there is one to record, and satisfy a condition; where there
is none, they fail for the reason of ownership. -/
inductive Tracks {τ : Type} (owner : τ → Option ModelId) (P : τ → Prop) :
    Except Error (Option ModelId) → Except Error τ → Prop
  | ok {a} : P a → Tracks owner P (.ok (owner a)) (.ok a)
  | error : Tracks owner P (.error .ownership) (.error .ownership)

namespace Tracks

variable {τ σ : Type} {owner : τ → Option ModelId} {owner' : σ → Option ModelId} {P : τ → Prop}
  {Q : σ → Prop} {o? : Except Error (Option ModelId)} {r : Except Error τ}

theorem of_owner_eq {a : τ} {o : Option ModelId} (ho : owner a = o) (ha : P a) :
    Tracks owner P (.ok o) (.ok a) := ho ▸ .ok ha

/-- What follows a result goes on from its owner. -/
theorem bind {g : Option ModelId → Except Error (Option ModelId)} {f : τ → Except Error σ}
    (h : Tracks owner P o? r) (hf : ∀ a, P a → Tracks owner' Q (g (owner a)) (f a)) :
    Tracks owner' Q (o? >>= g) (r >>= f) := by
  cases h with
  | ok ha => exact hf _ ha
  | error => exact .error

/-- What follows a result and keeps its owner. -/
theorem keep {f : τ → Except Error σ} (h : Tracks owner P o? r)
    (hf : ∀ a, P a → Tracks owner' Q (.ok (owner a)) (f a)) : Tracks owner' Q o? (r >>= f) :=
  bind_pure o? ▸ h.bind hf

/-- An owner is merged from two parts. -/
theorem merge {o : Option ModelId} {f : Option ModelId → Except Error τ} {p : Option ModelId}
    (hf : ∀ q, mergeOwners o p = .ok q → Tracks owner P (.ok q) (f q)) :
    Tracks owner P (mergeOwners o p) (mergeOwners o p >>= f) := by
  cases h : mergeOwners o p with
  | error e =>
    rw [mergeOwners_eq_error h]
    exact .error
  | ok q => exact hf q h

theorem mono {P' : τ → Prop} (h : Tracks owner P o? r) (hP : ∀ a, P a → P' a) :
    Tracks owner P' o? r := by
  cases h with
  | ok ha => exact .ok (hP _ ha)
  | error => exact .error

end Tracks

variable {α : Type} [Scalar α]

theorem checkIndices_eq_ok {indices : List Nat} {n : Nat} (h : ∀ i ∈ indices, i < n) :
    checkIndices indices n = .ok ⟨h⟩ := by
  unfold checkIndices
  split
  · next i hi =>
    have hle : n ≤ i := by simpa using List.find?_some hi
    exact absurd (h i (List.mem_of_find?_eq_some hi)) (Nat.not_lt.mpr hle)
  · rfl

namespace Affine

variable {a b : Affine α} {s : Shape}

theorem exists_ofValues {xs : List α} (h : xs.length = s.size) :
    ∃ a, ofValues s xs = .ok a ∧ a.owner = none ∧ a.shape = s := ⟨_, dif_pos h, rfl, rfl⟩

theorem exists_leftMul (a : Affine α) {m : DenseMatrix α}
    (hs : a.shape.leftProduct m.nrows m.ncols = some s) :
    ∃ c, a.leftMul m = .ok c ∧ c.owner = a.owner ∧ c.shape = s := by
  unfold leftMul
  split
  · next hnone => simp [hnone] at hs
  · next shape hsome =>
    obtain rfl : shape = s := by simpa [hsome] using hs
    exact ⟨_, rfl, rfl, rfl⟩

theorem tracks_add (hs : a.shape.elementwise b.shape = some s) :
    Tracks Affine.owner (·.shape = s) (mergeOwners a.owner b.owner) (a.add b) := by
  cases h : mergeOwners a.owner b.owner with
  | error e =>
    have hadd : a.add b = .error .ownership := by
      rw [add, h, mergeOwners_eq_error h]
      rfl
    rw [hadd, mergeOwners_eq_error h]
    exact .error
  | ok o =>
    obtain ⟨c, hc, rfl, hcs⟩ := exists_add_of_owner h hs
    rw [hc]
    exact .ok hcs

theorem tracks_sub (hs : a.shape.elementwise b.shape = some s) :
    Tracks Affine.owner (·.shape = s) (mergeOwners a.owner b.owner) (a.sub b) :=
  tracks_add (b := b.neg) hs

end Affine

/-- **A composition of affine operations tracks the common owner of its blocks.** -/
theorem AffineTerm.tracks {t : AffineTerm α} {s : Shape} (h : t.shape? = some s) :
    Tracks Affine.owner (·.shape = s) (commonOwner t.blocks) t.build := by
  -- on the operations; the shape is carried along, as it is what the next operation checks
  induction t generalizing s with
  | block b =>
    cases h
    exact .of_owner_eq rfl rfl
  | selection k =>
    cases h
    refine .of_owner_eq rfl ?_
    rw [← k.length_columns]
    rfl
  | values shape xs =>
    simp only [shape?] at h
    split at h
    · next hlen =>
      cases h
      obtain ⟨a, ha, howner, hshape⟩ := Affine.exists_ofValues hlen
      show Tracks _ _ (.ok none) (Affine.ofValues _ _)
      rw [ha, ← howner]
      exact .ok hshape
    · cases h
  | zeros shape =>
    cases h
    exact .of_owner_eq rfl rfl
  | number x =>
    cases h
    exact .of_owner_eq rfl rfl
  | numbers xs =>
    cases h
    exact .of_owner_eq rfl rfl
  | add t u iht ihu =>
    obtain ⟨s₁, hs₁, h⟩ := Option.bind_eq_some_iff.mp h
    obtain ⟨s₂, hs₂, h⟩ := Option.bind_eq_some_iff.mp h
    rw [blocks, commonOwner_append]
    refine (iht hs₁).bind fun a ha => (ihu hs₂).bind fun b hb => ?_
    exact Affine.tracks_add (ha ▸ hb ▸ h)
  | sub t u iht ihu =>
    obtain ⟨s₁, hs₁, h⟩ := Option.bind_eq_some_iff.mp h
    obtain ⟨s₂, hs₂, h⟩ := Option.bind_eq_some_iff.mp h
    rw [blocks, commonOwner_append]
    refine (iht hs₁).bind fun a ha => (ihu hs₂).bind fun b hb => ?_
    exact Affine.tracks_sub (ha ▸ hb ▸ h)
  | neg t ih => exact (ih h).keep fun a ha => .of_owner_eq rfl ha
  | scale x t ih => exact (ih h).keep fun a ha => .of_owner_eq rfl ha
  | offset x t ih => exact (ih h).keep fun a ha => .of_owner_eq rfl ha
  | sum t ih =>
    obtain ⟨s₁, hs₁, rfl⟩ := Option.map_eq_some_iff.mp h
    exact (ih hs₁).keep fun a _ => .of_owner_eq rfl rfl
  | select indices t ih =>
    obtain ⟨s₁, hs₁, h⟩ := Option.bind_eq_some_iff.mp h
    split at h
    · next hlt =>
      cases h
      refine (ih hs₁).keep fun a ha => ?_
      rw [Affine.select, checkIndices_eq_ok (by rwa [Affine.size, ha])]
      exact .of_owner_eq rfl rfl
    · cases h
  | get index t ih =>
    obtain ⟨s₁, hs₁, h⟩ := Option.bind_eq_some_iff.mp h
    split at h
    · next hlt =>
      cases h
      refine (ih hs₁).keep fun a ha => ?_
      rw [Affine.get, checkIndices_eq_ok (by simpa [Affine.size, ha] using hlt)]
      exact .of_owner_eq rfl rfl
    · cases h
  | leftMul m t ih =>
    obtain ⟨s₁, hs₁, h⟩ := Option.bind_eq_some_iff.mp h
    refine (ih hs₁).keep fun a ha => ?_
    obtain ⟨c, hc, howner, hshape⟩ := a.exists_leftMul (ha ▸ h)
    rw [hc, ← howner]
    exact .ok hshape

/-! ## Convex expressions -/

/-- A composition of the operations on convex expressions. -/
inductive ConvexTerm (α : Type) where
  | apply (kind : ConvexKind) (t : AffineTerm α)
  | neg (c : ConvexTerm α)
  | add (c : ConvexTerm α) (t : AffineTerm α)
  | sub (c : ConvexTerm α) (t : AffineTerm α)

namespace ConvexTerm

/-- The expression that a composition builds, unless an operation fails. -/
def build : ConvexTerm α → Except Error (ConvexExpression α)
  | apply kind t => return .apply kind (← t.build)
  | neg c => return (← c.build).neg
  | add c t => do (← c.build).add (← t.build)
  | sub c t => do (← c.build).sub (← t.build)

/-- The shape of a composition, if no part widens the value. -/
def shape? : ConvexTerm α → Option Shape
  | apply kind t => t.shape?.map fun s => if kind.elementwise then s else .scalar
  | neg c => c.shape?
  | add c t => do
    let s ← c.shape?
    let u ← t.shape?
    if u.size = 1 ∨ u.size = s.size then some s else none
  | sub c t => do
    let s ← c.shape?
    let u ← t.shape?
    if u.size = 1 ∨ u.size = s.size then some s else none

/-- The curvature of a composition. -/
def curvature : ConvexTerm α → Curvature
  | apply _ _ => .convex
  | neg c => c.curvature.flip
  | add c _ => c.curvature
  | sub c _ => c.curvature

/-- The blocks that occur in a composition. -/
def blocks : ConvexTerm α → List Block
  | apply _ t => t.blocks
  | neg c => c.blocks
  | add c t => c.blocks ++ t.blocks
  | sub c t => c.blocks ++ t.blocks

end ConvexTerm

namespace ConvexExpression

variable {c : ConvexExpression α} {a : Affine α}

/-- The owner of what is added is merged with that of the offset, and then with that of the input:
together, with that of the expression. -/
theorem Sound.mergeOwners_eq (hc : c.Sound) (p : Option ModelId) :
    mergeOwners c.owner p = mergeOwners c.offset.owner p >>= mergeOwners c.input.owner := by
  have howner : mergeOwners c.input.owner c.offset.owner = .ok c.owner :=
    mergeOwners_eq_ok_iff.mpr ⟨hc.owner, rfl⟩
  rw [← mergeOwners_assoc, howner]
  rfl

theorem Sound.tracks_add (hc : c.Sound) (h : a.size = 1 ∨ a.size = c.shape.size) :
    Tracks ConvexExpression.owner
      (fun d => d.Sound ∧ d.shape = c.shape ∧ d.curvature = c.curvature)
      (mergeOwners c.owner a.owner) (c.add a) := by
  obtain ⟨s, hs, hss⟩ := exists_elementwise_offset h
  rw [hc.mergeOwners_eq]
  refine (Affine.tracks_add hs).bind fun offset ho => ?_
  have hsize : offset.size = c.offset.size := by rwa [Affine.size, ho]
  rw [dif_pos hsize]
  refine .merge fun q hq => ?_
  obtain ⟨hagree, rfl⟩ := mergeOwners_eq_ok_iff.mp hq
  exact .of_owner_eq rfl ⟨⟨hc.size, hagree⟩, rfl, rfl⟩

theorem Sound.tracks_sub (hc : c.Sound) (h : a.size = 1 ∨ a.size = c.shape.size) :
    Tracks ConvexExpression.owner
      (fun d => d.Sound ∧ d.shape = c.shape ∧ d.curvature = c.curvature)
      (mergeOwners c.owner a.owner) (c.sub a) := hc.tracks_add (a := a.neg) h

theorem Sound.tracks_le (hc : c.Sound) (hcurv : c.curvature = .convex)
    (h : a.size = 1 ∨ a.size = c.shape.size) :
    Tracks ConvexConstraint.owner (fun _ => True) (mergeOwners c.owner a.owner) (c.le a) := by
  obtain ⟨s, hs, hss⟩ := exists_elementwise_offset h
  rw [hc.mergeOwners_eq]
  simp only [le, hcurv]
  refine (Affine.tracks_sub hs).bind fun r hr => .merge fun q _ => ?_
  have hsize : r.size = c.offset.size := by rwa [Affine.size, hr]
  obtain ⟨fitted, hf, -⟩ := ConvexConstraint.exists_fitResidual (hsize.trans hc.size)
  rw [hf]
  exact .of_owner_eq rfl trivial

/-- A comparison from below is one of the negations, which have the same owners. -/
theorem Sound.tracks_ge (hc : c.Sound) (hcurv : c.curvature = .concave)
    (h : a.size = 1 ∨ a.size = c.shape.size) :
    Tracks ConvexConstraint.owner (fun _ => True) (mergeOwners c.owner a.owner) (c.ge a) := by
  have hflip : c.neg.curvature = .convex := by
    show c.curvature.flip = .convex
    rw [hcurv]
    rfl
  simp only [ge, hcurv]
  exact hc.neg.tracks_le (a := a.neg) hflip h

end ConvexExpression

/-- **A composition of convex operations tracks the common owner of its blocks.** -/
theorem ConvexTerm.tracks {t : ConvexTerm α} {s : Shape} (h : t.shape? = some s) :
    Tracks ConvexExpression.owner (fun c => c.Sound ∧ c.shape = s ∧ c.curvature = t.curvature)
      (commonOwner t.blocks) t.build := by
  -- on the operations; soundness says that input and offset have no two owners between them
  induction t generalizing s with
  | apply kind u =>
    obtain ⟨s₁, hs₁, rfl⟩ := Option.map_eq_some_iff.mp h
    refine (u.tracks hs₁).keep fun a ha => .of_owner_eq (Option.or_none ..) ⟨?_, ?_, rfl⟩
    · exact ConvexExpression.sound_apply kind a
    · show (if kind.elementwise then a.shape else .scalar) = _
      rw [ha]
  | neg c ih =>
    refine (ih h).keep fun d hd => .of_owner_eq rfl ?_
    obtain ⟨hsound, hshape, hcurv⟩ := hd
    exact ⟨hsound.neg, hshape, congrArg Curvature.flip hcurv⟩
  | add c u ih =>
    obtain ⟨s₁, hs₁, h⟩ := Option.bind_eq_some_iff.mp h
    obtain ⟨s₂, hs₂, h⟩ := Option.bind_eq_some_iff.mp h
    split at h
    · next hsize =>
      cases h
      rw [blocks, commonOwner_append]
      refine (ih hs₁).bind fun d hd => (u.tracks hs₂).bind fun a ha => ?_
      obtain ⟨hsound, rfl, hcurv⟩ := hd
      refine (hsound.tracks_add (by rwa [Affine.size, ha])).mono fun d' hd' => ?_
      exact ⟨hd'.1, hd'.2.1, hd'.2.2.trans hcurv⟩
    · cases h
  | sub c u ih =>
    obtain ⟨s₁, hs₁, h⟩ := Option.bind_eq_some_iff.mp h
    obtain ⟨s₂, hs₂, h⟩ := Option.bind_eq_some_iff.mp h
    split at h
    · next hsize =>
      cases h
      rw [blocks, commonOwner_append]
      refine (ih hs₁).bind fun d hd => (u.tracks hs₂).bind fun a ha => ?_
      obtain ⟨hsound, rfl, hcurv⟩ := hd
      refine (hsound.tracks_sub (by rwa [Affine.size, ha])).mono fun d' hd' => ?_
      exact ⟨hd'.1, hd'.2.1, hd'.2.2.trans hcurv⟩
    · cases h

/-! ## Constraints -/

/-- A constraint on compositions, on blocks or on selections. -/
inductive ConstraintTerm (α : Type) where
  | le (t u : AffineTerm α)
  | ge (t u : AffineTerm α)
  | eq (t u : AffineTerm α)
  | bounds (b : Block) (side : Side) (values : List (Bound α))
  | nonneg (b : Block)
  | nonpos (b : Block)
  | convexLe (c : ConvexTerm α) (t : AffineTerm α)
  | convexGe (c : ConvexTerm α) (t : AffineTerm α)
  | cone (vector apex : Selection)
  | expCone (x y z : Selection)

namespace ConstraintTerm

/-- The constraint that is built, unless an operation fails. -/
def build : ConstraintTerm α → Except Error (Constraint α)
  | le t u => do
    let a ← t.build
    return .linear (← a.le (← u.build))
  | ge t u => do
    let a ← t.build
    return .linear (← a.ge (← u.build))
  | eq t u => do
    let a ← t.build
    return .linear (← a.eq (← u.build))
  | bounds b side values => return .bounds (← Bounds.ofValues b side values)
  | nonneg b => return .bounds b.nonneg
  | nonpos b => return .bounds b.nonpos
  | convexLe c t => do
    let d ← c.build
    return .convex (← d.le (← t.build))
  | convexGe c t => do
    let d ← c.build
    return .convex (← d.ge (← t.build))
  | cone vector apex => return .cone (← ConeConstraint.ofSelections vector apex)
  | expCone x y z => return .expCone (← ExpConeConstraint.ofSelections x y z)

/-- Whether the sizes of two compositions combine. -/
def Combine (t u : AffineTerm α) : Prop :=
  ∃ s ∈ t.shape?, ∃ s' ∈ u.shape?, s.size = s'.size ∨ s.size = 1 ∨ s'.size = 1

/-- Whether a composition has a value that may be compared with a convex one. -/
def Bounded (c : ConvexTerm α) (t : AffineTerm α) : Prop :=
  ∃ s ∈ c.shape?, ∃ s' ∈ t.shape?, s'.size = 1 ∨ s'.size = s.size

/-- Whether sizes and curvatures are those that the constraint needs. -/
def Fits : ConstraintTerm α → Prop
  | le t u => Combine t u
  | ge t u => Combine t u
  | eq t u => Combine t u
  | bounds b _ values => values.length = 1 ∨ values.length = b.size
  | nonneg _ => True
  | nonpos _ => True
  | convexLe c t => c.curvature = .convex ∧ Bounded c t
  | convexGe c t => c.curvature = .concave ∧ Bounded c t
  | cone _ apex => apex.indices.length = 1
  | expCone x y z => x.indices.length = 1 ∧ y.indices.length = 1 ∧ z.indices.length = 1

/-- The blocks that occur in a constraint. -/
def blocks : ConstraintTerm α → List Block
  | le t u => t.blocks ++ u.blocks
  | ge t u => t.blocks ++ u.blocks
  | eq t u => t.blocks ++ u.blocks
  | bounds b _ _ => [b]
  | nonneg b => [b]
  | nonpos b => [b]
  | convexLe c t => c.blocks ++ t.blocks
  | convexGe c t => c.blocks ++ t.blocks
  | cone vector apex => [vector.block, apex.block]
  | expCone x y z => [x.block, y.block, z.block]

end ConstraintTerm

theorem Affine.tracks_residual {a b : Affine α} {s : Shape} (sense : Sense)
    (hs : a.shape.elementwise b.shape = some s) :
    Tracks LinearConstraint.owner (fun _ => True) (mergeOwners a.owner b.owner)
      (do return .ofResidual (← a.sub b) sense) :=
  (tracks_sub hs).keep fun _ _ => .of_owner_eq rfl trivial

omit [Scalar α] in
theorem Bounds.exists_ofValues {b : Block} (side : Side) {values : List (Bound α)}
    (h : values.length = 1 ∨ values.length = b.size) :
    ∃ c, ofValues b side values = .ok c ∧ c.owner = b.owner := by
  rcases h with hone | hsize
  · obtain ⟨y, rfl⟩ := List.length_eq_one_iff.mp hone
    exact ⟨_, rfl, rfl⟩
  · unfold ofValues
    split
    · exact ⟨_, rfl, rfl⟩
    · rw [if_pos hsize]
      exact ⟨_, rfl, rfl⟩

/-- The two sides of a membership have one owner, or there is no membership. -/
theorem ConeConstraint.tracks_ofSelections {vector apex : Selection}
    (h : apex.indices.length = 1) :
    Tracks (fun k => some (owner k)) (fun _ => True) (commonOwner [vector.block, apex.block])
      (ofSelections vector apex) := by
  rw [ofSelections, dif_pos h]
  show Tracks _ _ (mergeOwners (some vector.block.owner) (some apex.block.owner)) _
  by_cases ho : vector.block.owner = apex.block.owner
  · rw [dif_pos ho, ho, mergeOwners, if_pos rfl]
    exact .of_owner_eq rfl trivial
  · rw [dif_neg ho, mergeOwners, if_neg ho]
    exact .error

/-- A selection of one element has a coordinate, unless its owner is another one. -/
theorem ExpConeConstraint.tracks_coordinate {s : Selection} (o : ModelId)
    (h : s.indices.length = 1) :
    Tracks (fun _ => some o) (fun _ => True) (mergeOwners (some o) (some s.block.owner))
      (coordinate o s) := by
  obtain ⟨j, hj⟩ := List.length_eq_one_iff.mp (s.length_columns.trans h)
  by_cases ho : s.block.owner = o
  · rw [coordinate, if_pos ho, hj, ho, mergeOwners, if_pos rfl]
    exact .of_owner_eq rfl trivial
  · rw [coordinate, if_neg ho, mergeOwners, if_neg (Ne.symm ho)]
    exact .error

theorem ExpConeConstraint.tracks_ofSelections {x y z : Selection} (hx : x.indices.length = 1)
    (hy : y.indices.length = 1) (hz : z.indices.length = 1) :
    Tracks (fun k => some (owner k)) (fun _ => True) (commonOwner [x.block, y.block, z.block])
      (ofSelections x y z) := by
  have hcommon : commonOwner [x.block, y.block, z.block] =
      mergeOwners (some x.block.owner) (some x.block.owner) >>= fun o =>
        mergeOwners o (some y.block.owner) >>= fun o => mergeOwners o (some z.block.owner) := by
    rw [mergeOwners, if_pos rfl]
    exact commonOwner_append [x.block, y.block] [z.block]
  rw [hcommon]
  refine (tracks_coordinate _ hx).bind fun jx _ => (tracks_coordinate _ hy).bind fun jy _ => ?_
  refine (tracks_coordinate _ hz).keep fun jz _ => .of_owner_eq rfl trivial

/-- **A constraint on compositions tracks the common owner of its blocks.** -/
theorem ConstraintTerm.tracks {c : ConstraintTerm α} (h : c.Fits) :
    Tracks Constraint.owner (fun _ => True) (commonOwner c.blocks) c.build := by
  cases c with
  | le t u =>
    obtain ⟨s, hs, s', hs', hsize⟩ := h
    rw [blocks, commonOwner_append]
    refine (t.tracks hs).bind fun a ha => (u.tracks hs').bind fun b hb => ?_
    obtain ⟨r, hr⟩ := Shape.exists_elementwise_iff.mpr (ha ▸ hb ▸ hsize.imp_right Or.symm)
    exact (Affine.tracks_residual .le hr).keep fun _ _ => .of_owner_eq rfl trivial
  | ge t u =>
    obtain ⟨s, hs, s', hs', hsize⟩ := h
    rw [blocks, commonOwner_append]
    refine (t.tracks hs).bind fun a ha => (u.tracks hs').bind fun b hb => ?_
    have hsize : b.shape.size = a.shape.size ∨ a.shape.size = 1 ∨ b.shape.size = 1 :=
      ha ▸ hb ▸ hsize.imp_left Eq.symm
    obtain ⟨r, hr⟩ := Shape.exists_elementwise_iff.mpr hsize
    rw [mergeOwners_comm]
    exact (Affine.tracks_residual .le hr).keep fun _ _ => .of_owner_eq rfl trivial
  | eq t u =>
    obtain ⟨s, hs, s', hs', hsize⟩ := h
    rw [blocks, commonOwner_append]
    refine (t.tracks hs).bind fun a ha => (u.tracks hs').bind fun b hb => ?_
    obtain ⟨r, hr⟩ := Shape.exists_elementwise_iff.mpr (ha ▸ hb ▸ hsize.imp_right Or.symm)
    exact (Affine.tracks_residual .eq hr).keep fun _ _ => .of_owner_eq rfl trivial
  | bounds b side values =>
    obtain ⟨c, hc, howner⟩ := Bounds.exists_ofValues side h
    simp only [build, hc]
    exact .of_owner_eq (congrArg some howner) trivial
  | nonneg b => exact .of_owner_eq rfl trivial
  | nonpos b => exact .of_owner_eq rfl trivial
  | convexLe c t =>
    obtain ⟨hcurv, s, hs, s', hs', hsize⟩ := h
    rw [blocks, commonOwner_append]
    refine (c.tracks hs).bind fun d hd => (t.tracks hs').bind fun a ha => ?_
    obtain ⟨hsound, rfl, hcurv'⟩ := hd
    refine (hsound.tracks_le (hcurv'.trans hcurv) (by rwa [Affine.size, ha])).keep fun _ _ => ?_
    exact .of_owner_eq rfl trivial
  | convexGe c t =>
    obtain ⟨hcurv, s, hs, s', hs', hsize⟩ := h
    rw [blocks, commonOwner_append]
    refine (c.tracks hs).bind fun d hd => (t.tracks hs').bind fun a ha => ?_
    obtain ⟨hsound, rfl, hcurv'⟩ := hd
    refine (hsound.tracks_ge (hcurv'.trans hcurv) (by rwa [Affine.size, ha])).keep fun _ _ => ?_
    exact .of_owner_eq rfl trivial
  | cone vector apex =>
    exact (ConeConstraint.tracks_ofSelections h).keep fun _ _ => .of_owner_eq rfl trivial
  | expCone x y z =>
    obtain ⟨hx, hy, hz⟩ := h
    exact (ExpConeConstraint.tracks_ofSelections hx hy hz).keep fun _ _ => .of_owner_eq rfl trivial

end ConicForm
