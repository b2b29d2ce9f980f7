import ConicForm.Proofs.Matrix.Cells
import ConicForm.Proofs.Model.Intake
import ConicForm.Proofs.RightUnit

/-!
# Maximizing is minimizing the negation

The direction of an objective is accounted for in three places: an affine objective is multiplied
by a sign of its goal, a convex one is negated and keeps its curvature, and the curvature is checked
against the goal when the objective is set. A model cannot be told from its orientation, which
minimizes the negation of whatever the model maximizes: the objective enters the programs through
its epigraph only, and both have the same. Maximizing an expression and minimizing its negation
lead to the same orientation, and to the same answers from then on, whatever is called later.

The law that this needs of scalars is that multiplication by one changes nothing, which machine
floats satisfy as well.

## Main definitions

* `Objective.neg`, `Store.oriented`: the negated objective, and a store whose objective is minimized
* `Error.mirrored`: the error that the opposite goal gives
* `Opposed`: what maximizing an expression and minimizing its negation have in common

## Main results

* `Store.epigraph_oriented`: the epigraph of an objective is that of its orientation
* `Store.setObjective_neg`: both calls are accepted, or refused for mirrored reasons
* `ConeModel.oriented_after`, `LinearModel.oriented_after`: one call keeps orientations equal
* `answers_foldl_eq`: equal orientations give equal answers after any calls
* `maximize_opposed_minimize_neg`: maximizing an expression is minimizing its negation
-/

namespace ConicForm

variable {α : Type} [Scalar α]

/-! ## Multiples by one -/

section RightUnit

variable [Scalar.RightUnit α]

theorem SparseMatrix.scale_one (m : SparseMatrix α) : m.scale 1 = m := by
  refine eq_of_mem_entries_iff rfl rfl fun e => ?_
  simp only [mem_entries_scale, Scalar.RightUnit.mul_one]
  constructor
  · rintro ⟨f, hf, rfl, -⟩
    exact hf
  · intro he
    exact ⟨e, he, rfl, m.nonzero e he⟩

theorem Affine.scale_one (a : Affine α) : a.scale 1 = a := by
  refine Affine.ext rfl rfl (SparseMatrix.scale_one a.linear) ?_
  show a.constant.map (· * 1) = a.constant
  simp only [Scalar.RightUnit.mul_one, List.map_id']

end RightUnit

/-! ## Objectives and their errors -/

namespace Objective

/-- The negated expression. -/
def neg : Objective α → Objective α
  | affine a => affine a.neg
  | convex c => convex c.neg

/-- What is to be minimized for a goal. -/
def orient (e : Objective α) : Goal → Objective α
  | .minimize => e
  | .maximize => e.neg

@[simp] theorem owner_neg (e : Objective α) : e.neg.owner = e.owner := by cases e <;> rfl

@[simp] theorem shape_neg (e : Objective α) : e.neg.shape = e.shape := by cases e <;> rfl

end Objective

/-- The error that the opposite goal gives for the negated expression. It differs where the
curvature of the expression is named. -/
def Error.mirrored : Error → Error
  | curvature (.objective c k) => curvature (.objective c.flip k)
  | e => e

/-- Mirrored errors have the same cause. -/
theorem Error.ctorIdx_mirrored (e : Error) : e.mirrored.ctorIdx = e.ctorIdx := by
  unfold mirrored
  split <;> rfl

theorem Curvature.flip_eq_convex_iff {c : Curvature} : c.flip = .convex ↔ c = .concave := by
  cases c <;> decide

/-! ## Stores -/

namespace Store

/-- The store with its objective to be minimized. -/
def oriented (s : Store α) : Store α :=
  { s with objective := s.objective.map fun p => (p.1.orient p.2, .minimize) }

theorem oriented_oriented (s : Store α) : s.oriented.oriented = s.oriented := by
  simp [oriented, Function.comp_def, Objective.orient]

variable {s : Store α}

theorem epigraph_oriented [Scalar.RightUnit α] (s : Store α) :
    s.oriented.epigraph = s.epigraph := by
  obtain ⟨id, name, settings, declared, rows, bounds, piecewise, objective⟩ := s
  match objective with
  | none => rfl
  | some (.affine a, .minimize) => rfl
  | some (.affine a, .maximize) =>
    -- the factor of the goal becomes the sign of the negation, and one is left as the factor
    show (do return some (Piece.rows (← (a.neg.scale 1).le _))) = _
    rw [Affine.scale_one]
    rfl
  | some (.convex c, .minimize) => rfl
  | some (.convex c, .maximize) => rfl

theorem assemble_oriented (s : Store α) (e : Expansion α) :
    s.oriented.assemble e = s.assemble e := by
  have hassembled : s.oriented.assembled e = s.assembled e := by
    simp only [assembled, oriented, Option.isSome_map]
    rfl
  unfold assemble
  rw [hassembled]
  rfl

theorem linearProgram_oriented [Scalar.RightUnit α] (s : Store α) :
    s.oriented.linearProgram = s.linearProgram := by
  have hpieces : s.oriented.linearPieces = s.linearPieces := by
    unfold linearPieces
    rw [epigraph_oriented]
    rfl
  unfold linearProgram
  simp only [hpieces, assemble_oriented]
  rfl

theorem classify_oriented (s : Store α) : s.oriented.classify = s.classify := rfl

theorem insert_oriented (s : Store α) (i : StoreItem α) :
    s.oriented.insert i = (s.insert i).oriented := by
  cases i <;> rfl

/-- **The negated expression is minimized where the expression is maximized**, and refused for the
mirrored reason where it is refused. -/
theorem setObjective_neg (s : Store α) (handles : ConvexKind → Bool) (e : Objective α) :
    s.setObjective handles e.neg .minimize =
      ((s.setObjective handles e .maximize).map oriented).mapError Error.mirrored := by
  unfold setObjective
  rw [Objective.owner_neg, Objective.shape_neg]
  split
  · rfl
  · split
    · rfl
    · cases e with
      | affine a => rfl
      | convex c =>
        have hiff : c.neg.curvature = Goal.minimize.curvature ↔
            c.curvature = Goal.maximize.curvature := Curvature.flip_eq_convex_iff
        dsimp only [Objective.neg]
        split
        · next hkind =>
          rw [if_pos (show (!handles c.kind) = true from hkind)]
          rfl
        · next hkind =>
          rw [if_neg (show ¬(!handles c.kind) = true from hkind)]
          by_cases hc : c.curvature = Goal.maximize.curvature
          · rw [if_neg (not_not.mpr (hiff.mpr hc)), if_neg (not_not.mpr hc)]
            rfl
          · rw [if_pos (mt hiff.mp hc), if_pos hc]
            rfl

end Store

/-- A change of the store that the checks do not see can be made before constraints are taken or
afterwards. -/
theorem Intake.take_map {μ σ γ ι : Type} (I : Intake μ σ γ ι) {f : μ → μ} {g : σ → σ}
    (hstore : ∀ m, I.store (f m) = g (I.store m))
    (hupdate : ∀ m s, I.update (f m) (g s) = f (I.update m s))
    (hlimit : ∀ s, I.limit (g s) = I.limit s) (hclassify : ∀ s, I.classify (g s) = I.classify s)
    (hinsert : ∀ s i, I.insert (g s) i = g (I.insert s i)) (m : μ) (t : Collection γ) :
    I.take (f m) t = (I.take m t).map id f := by
  have hfoldl (items : List ι) (s : σ) :
      items.foldl I.insert (g s) = g (items.foldl I.insert s) := by
    induction items generalizing s with
    | nil => rfl
    | cons i items ih => rw [List.foldl_cons, List.foldl_cons, hinsert, ih]
  refine map_attempt_eq (f := id) (g := f) rfl ?_
  rw [hstore, hlimit]
  cases t.flatten (I.limit (I.store m)) with
  | error e => rfl
  | ok cs =>
    show Except.map _ (I.insertAll (g (I.store m)) cs) = Except.map _ (I.insertAll (I.store m) cs)
    rw [Intake.insertAll_eq_map, Intake.insertAll_eq_map, hclassify]
    cases cs.mapM (I.classify (I.store m)) with
    | error e => rfl
    | ok items =>
      refine congrArg Except.ok ?_
      show I.update (f m) (items.foldl I.insert (g (I.store m))) = _
      rw [hfoldl, hupdate]

/-! ## Cone models -/

namespace ConeStore

/-- The store with its objective to be minimized. -/
def oriented (s : ConeStore α) : ConeStore α := { s with linear := s.linear.oriented }

theorem coneProgram_oriented [Scalar.RightUnit α] (s : ConeStore α) :
    s.oriented.coneProgram = s.coneProgram := by
  have hpieces : s.oriented.pieces = s.pieces := by
    unfold pieces
    rw [show s.oriented.linear.epigraph = s.linear.epigraph from s.linear.epigraph_oriented]
    rfl
  unfold coneProgram
  simp only [hpieces, show s.oriented.linear.assemble = s.linear.assemble from
    funext s.linear.assemble_oriented]
  rfl

theorem classify_oriented (s : ConeStore α) : s.oriented.classify = s.classify := by
  funext c
  cases c <;> rfl

theorem insert_oriented (s : ConeStore α) (i : ConeItem α) :
    s.oriented.insert i = (s.insert i).oriented := by
  rcases i with (_ | _ | _) | _ | _ <;> rfl

end ConeStore

namespace ConeModel

/-- The model with its objective to be minimized, and the same programs cached. -/
def oriented (m : ConeModel α) : ConeModel α := { m with store := m.store.oriented }

theorem oriented_oriented (m : ConeModel α) : m.oriented.oriented = m.oriented := by
  simp only [oriented, ConeStore.oriented, Store.oriented_oriented]

variable (m : ConeModel α)

theorem subjectTo_oriented (t : Collection (Constraint α)) :
    m.oriented.subjectTo t = (m.subjectTo t).map id oriented :=
  intake.take_map (f := oriented) (g := ConeStore.oriented) (fun _ => rfl) (fun _ _ => rfl)
    (fun _ => rfl) ConeStore.classify_oriented ConeStore.insert_oriented m t

/-- The objective that a model has does not matter for one that is set. -/
theorem setObjective_oriented (e : Objective α) (goal : Goal) :
    (m.oriented.setObjective e goal).map id oriented = (m.setObjective e goal).map id oriented :=
  map_attempt_eq m.oriented_oriented rfl

theorem setObjective_neg (e : Objective α) :
    outcome (m.setObjective e.neg .minimize) =
      ((outcome (m.setObjective e .maximize)).map oriented).mapError Error.mirrored := by
  unfold setObjective
  rw [outcome_attempt, outcome_attempt, Store.setObjective_neg]
  cases m.store.linear.setObjective handles e .maximize <;> rfl

section Answers

variable [Scalar.RightUnit α]

theorem primal_oriented : m.oriented.primal = (m.primal.1, m.primal.2.oriented) := by
  unfold primal
  simp only [show m.oriented.store.coneProgram = m.store.coneProgram from
    m.store.coneProgram_oriented]
  rfl

theorem linearDual_oriented :
    m.oriented.linearDual = (m.linearDual.1, m.linearDual.2.oriented) := by
  unfold linearDual
  rw [primal_oriented, show m.oriented.linearDualCache = m.linearDualCache from rfl]
  cases m.linearDualCache.get? with
  | some d => rfl
  | none =>
    obtain ⟨r, m'⟩ := m.primal
    cases r <;> rfl

theorem dual_oriented : m.oriented.dual = (m.dual.1, m.dual.2.oriented) := by
  unfold dual
  rw [primal_oriented, show m.oriented.dualCache = m.dualCache from rfl]
  cases m.dualCache.get? with
  | some d => rfl
  | none =>
    obtain ⟨r, m'⟩ := m.primal
    cases r with
    | error e => rfl
    | ok p =>
      dsimp only
      rw [linearDual_oriented]
      obtain ⟨r, m''⟩ := m'.linearDual
      cases r <;> rfl

/-- **A call keeps orientations equal.** -/
theorem oriented_after (c : Call α) : (m.oriented.after c).oriented = (m.after c).oriented := by
  cases c with
  | declare shape type name => exact oriented_oriented (m.after (.declare shape type name))
  | declareDefault shape => exact oriented_oriented (m.after (.declareDefault shape))
  | reset => rfl
  | subjectTo t =>
    rw [after, subjectTo_oriented]
    exact oriented_oriented (m.subjectTo t).2
  | setObjective e goal => exact congrArg Prod.snd (m.setObjective_oriented e goal)
  | primal => simp only [after, primal_oriented, oriented_oriented]
  | linearDual => simp only [after, linearDual_oriented, oriented_oriented]
  | dual => simp only [after, dual_oriented, oriented_oriented]

/-- Answers for the canonical program and both duals. -/
structure Answers (α : Type) [Scalar α] where
  primal : Except Error (Handle (ConeProgram α))
  linearDual : Except Error (Handle (LinearProgram α))
  dual : Except Error (Handle (ConeProgram α))

/-- The answers of a model. -/
def answers (m : ConeModel α) : Answers α := ⟨m.primal.1, m.linearDual.1, m.dual.1⟩

theorem answers_oriented : m.oriented.answers = m.answers := by
  rw [answers, primal_oriented, linearDual_oriented, dual_oriented, answers]

end Answers

end ConeModel

/-! ## Linear models -/

namespace LinearModel

/-- The model with its objective to be minimized, and the same programs cached. -/
def oriented (m : LinearModel α) : LinearModel α := { m with store := m.store.oriented }

theorem oriented_oriented (m : LinearModel α) : m.oriented.oriented = m.oriented := by
  simp only [oriented, Store.oriented_oriented]

variable (m : LinearModel α)

theorem subjectTo_oriented (t : Collection (Constraint α)) :
    m.oriented.subjectTo t = (m.subjectTo t).map id oriented :=
  intake.take_map (f := oriented) (g := Store.oriented) (fun _ => rfl) (fun _ _ => rfl)
    (fun _ => rfl) Store.classify_oriented Store.insert_oriented m t

/-- The objective that a model has does not matter for one that is set. -/
theorem setObjective_oriented (e : Objective α) (goal : Goal) :
    (m.oriented.setObjective e goal).map id oriented = (m.setObjective e goal).map id oriented :=
  map_attempt_eq m.oriented_oriented rfl

theorem setObjective_neg (e : Objective α) :
    outcome (m.setObjective e.neg .minimize) =
      ((outcome (m.setObjective e .maximize)).map oriented).mapError Error.mirrored := by
  unfold setObjective
  rw [outcome_attempt, outcome_attempt, Store.setObjective_neg]
  cases m.store.setObjective handles e .maximize <;> rfl

section Answers

variable [Scalar.RightUnit α]

theorem primal_oriented : m.oriented.primal = (m.primal.1, m.primal.2.oriented) := by
  unfold primal
  simp only [show m.oriented.store.linearProgram = m.store.linearProgram from
    m.store.linearProgram_oriented]
  rfl

theorem dual_oriented : m.oriented.dual = (m.dual.1, m.dual.2.oriented) := by
  unfold dual
  rw [primal_oriented, show m.oriented.dualCache = m.dualCache from rfl]
  cases m.dualCache.get? with
  | some d => rfl
  | none =>
    obtain ⟨r, m'⟩ := m.primal
    cases r <;> rfl

/-- **A call keeps orientations equal.** -/
theorem oriented_after (c : Call α) : (m.oriented.after c).oriented = (m.after c).oriented := by
  cases c with
  | declare shape type name => exact oriented_oriented (m.after (.declare shape type name))
  | declareDefault shape => exact oriented_oriented (m.after (.declareDefault shape))
  | reset => rfl
  | subjectTo t =>
    rw [after, subjectTo_oriented]
    exact oriented_oriented (m.subjectTo t).2
  | setObjective e goal => exact congrArg Prod.snd (m.setObjective_oriented e goal)
  | primal => simp only [after, primal_oriented, oriented_oriented]
  | linearDual | dual => simp only [after, dual_oriented, oriented_oriented]

/-- Answers for the canonical program and its dual. -/
structure Answers (α : Type) [Scalar α] where
  primal : Except Error (Handle (LinearProgram α))
  dual : Except Error (Handle (LinearProgram α))

/-- The answers of a model. -/
def answers (m : LinearModel α) : Answers α := ⟨m.primal.1, m.dual.1⟩

theorem answers_oriented : m.oriented.answers = m.answers := by
  rw [answers, primal_oriented, dual_oriented, answers]

end Answers

end LinearModel

/-! ## Opposed goals -/

/-- A sort of models that cannot be told from their orientations. -/
structure Orienting (α : Type) [Scalar α] (μ ρ : Type) where
  set : μ → Objective α → Goal → Except Error Unit × μ
  after : μ → Call α → μ
  answers : μ → ρ
  oriented : μ → μ
  set_of_error : ∀ m e goal x, (set m e goal).1 = .error x → (set m e goal).2 = m
  set_neg : ∀ m e, outcome (set m e.neg .minimize) =
    ((outcome (set m e .maximize)).map oriented).mapError Error.mirrored
  oriented_oriented : ∀ m, oriented (oriented m) = oriented m
  oriented_after : ∀ m c, oriented (after (oriented m) c) = oriented (after m c)
  answers_oriented : ∀ m, answers (oriented m) = answers m

/-- What maximizing an expression and minimizing its negation have in common. -/
structure Opposed {μ ρ : Type} (set : μ → Objective α → Goal → Except Error Unit × μ)
    (after : μ → Call α → μ) (answers : μ → ρ) (m : μ) (e : Objective α) : Prop where
  /-- One is accepted exactly if the other is. -/
  accepted : (set m e .maximize).1 = .ok () ↔ (set m e.neg .minimize).1 = .ok ()
  /-- Otherwise both are refused for one cause, up to the curvature that an error names. -/
  refused : ∀ x, (set m e .maximize).1 = .error x →
    (set m e.neg .minimize).1 = .error x.mirrored ∧ x.mirrored.ctorIdx = x.ctorIdx
  /-- Nothing changes where they are refused. -/
  kept : ∀ x, (set m e .maximize).1 = .error x →
    (set m e .maximize).2 = m ∧ (set m e.neg .minimize).2 = m
  /-- Where they are accepted, all programs are the same, at once and after any calls. -/
  answers : ∀ m₁ m₂, set m e .maximize = (.ok (), m₁) → set m e.neg .minimize = (.ok (), m₂) →
    ∀ cs : List (Call α), answers (cs.foldl after m₁) = answers (cs.foldl after m₂)

namespace Orienting

variable {μ ρ : Type} (O : Orienting α μ ρ)

/-- **Models with equal orientations answer alike, whatever is called.** -/
theorem answers_foldl_eq {m n : μ} (h : O.oriented m = O.oriented n) (cs : List (Call α)) :
    O.answers (cs.foldl O.after m) = O.answers (cs.foldl O.after n) := by
  induction cs generalizing m n with
  | nil =>
    show O.answers m = O.answers n
    rw [← O.answers_oriented m, h, O.answers_oriented]
  | cons c cs ih =>
    refine ih ?_
    rw [← O.oriented_after m, h, O.oriented_after]

theorem fst_set_neg (m : μ) (e : Objective α) :
    (O.set m e.neg .minimize).1 = (O.set m e .maximize).1.mapError Error.mirrored := by
  rw [← map_outcome (O.set m e.neg .minimize), O.set_neg, ← map_outcome (O.set m e .maximize)]
  cases outcome (O.set m e .maximize) <;> rfl

theorem opposed (m : μ) (e : Objective α) : Opposed O.set O.after O.answers m e where
  accepted := by
    rw [O.fst_set_neg]
    cases (O.set m e .maximize).1 with
    | error x => exact iff_of_false nofun nofun
    | ok => exact iff_of_true rfl rfl
  refused := by
    intro x h
    rw [O.fst_set_neg, h]
    exact ⟨rfl, x.ctorIdx_mirrored⟩
  kept := by
    intro x h
    refine ⟨O.set_of_error m e _ x h, O.set_of_error m e.neg _ x.mirrored ?_⟩
    rw [O.fst_set_neg, h]
    rfl
  answers := by
    intro m₁ m₂ h₁ h₂
    have hset := O.set_neg m e
    rw [h₁, h₂] at hset
    cases hset
    exact O.answers_foldl_eq (O.oriented_oriented m₁).symm

end Orienting

section RightUnit

variable [Scalar.RightUnit α]

/-- Cone models cannot be told from their orientations. -/
def ConeModel.orienting : Orienting α (ConeModel α) (ConeModel.Answers α) where
  set := ConeModel.setObjective
  after := ConeModel.after
  answers := ConeModel.answers
  oriented := ConeModel.oriented
  set_of_error _ _ _ _ h := snd_attempt_of_error h
  set_neg := ConeModel.setObjective_neg
  oriented_oriented := ConeModel.oriented_oriented
  oriented_after m := m.oriented_after
  answers_oriented m := m.answers_oriented

/-- Linear models cannot be told from their orientations. -/
def LinearModel.orienting : Orienting α (LinearModel α) (LinearModel.Answers α) where
  set := LinearModel.setObjective
  after := LinearModel.after
  answers := LinearModel.answers
  oriented := LinearModel.oriented
  set_of_error _ _ _ _ h := snd_attempt_of_error h
  set_neg := LinearModel.setObjective_neg
  oriented_oriented := LinearModel.oriented_oriented
  oriented_after m := m.oriented_after
  answers_oriented m := m.answers_oriented

/-- **Maximizing an expression is minimizing its negation**, for models of either sort, whatever
has been called before and is called afterwards. -/
theorem maximize_opposed_minimize_neg :
    (∀ (m : ConeModel α) (e : Objective α),
      Opposed ConeModel.setObjective ConeModel.after ConeModel.answers m e) ∧
    ∀ (m : LinearModel α) (e : Objective α),
      Opposed LinearModel.setObjective LinearModel.after LinearModel.answers m e :=
  ⟨ConeModel.orienting.opposed, LinearModel.orienting.opposed⟩

end RightUnit

/-- A model with a vector of two columns. -/
def plane : ConeModel Float :=
  ((ConeModel.empty ⟨0⟩ {} none).declare (.vector 2) .continuous none).2

/-- The negated norm of the vector. -/
def negatedNorm : Objective Float :=
  let x : Block := ⟨⟨0⟩, 1, .vector 2, .continuous, none⟩
  .convex (ConvexExpression.apply (.conic .norm2) (.ofBlock x)).neg

theorem maximize_opposed_minimize_neg_plane : Scalar.RightUnit Float ∧
    ∃ m₁ m₂, plane.setObjective negatedNorm .maximize = (.ok (), m₁) ∧
      plane.setObjective negatedNorm.neg .minimize = (.ok (), m₂) ∧ m₁.answers = m₂.answers := by
  have h := maximize_opposed_minimize_neg.1 plane negatedNorm
  obtain ⟨m₁, h₁⟩ : ∃ m₁, plane.setObjective negatedNorm .maximize = (.ok (), m₁) := ⟨_, rfl⟩
  have h₂ : plane.setObjective negatedNorm.neg .minimize = (.ok (), _) :=
    Prod.ext (h.accepted.mp (congrArg Prod.fst h₁)) rfl
  exact ⟨inferInstance, m₁, _, h₁, h₂, h.answers m₁ _ h₁ h₂ []⟩

end ConicForm
