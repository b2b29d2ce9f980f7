import ConicForm.Model.Cone
import ConicForm.Proofs.Canonical.Bounds
import ConicForm.Proofs.Model.Built
import ConicForm.Proofs.Traversal

/-!
# Valid stores

A store is valid if its blocks are its own and lie one after another, everything that it holds is
over its columns, and its objective is one that may be set. Every change of a store by what is
built from its blocks keeps it valid.

## Main definitions

* `Objective.Suits`: objectives that may be set for a goal
* `Store.Valid`, `ConeStore.Valid`: the invariants

## Main results

* `Store.Valid.declare`, `Store.Valid.insertAll`, `Store.Valid.setObjective`, `Store.Valid.clear`,
  and the same for `ConeStore.Valid`: changes keep a store valid
-/

namespace ConicForm

variable {α : Type} [Scalar α]

/-- Objectives of one element, with a function that the model handles and the curvature of the
goal. -/
def Objective.Suits (handles : ConvexKind → Bool) (goal : Goal) : Objective α → Prop
  | affine a => a.size = 1
  | convex c => c.offset.size = 1 ∧ handles c.kind = true ∧ c.curvature = goal.curvature

theorem Objective.Scoped.mono {id : ModelId} {n n' : Nat} (h : n ≤ n') {e : Objective α}
    (he : e.Scoped id n) : e.Scoped id n' := by
  cases e with
  | affine a => exact Affine.Within.mono h he
  | convex c => exact ⟨he.input.mono h, he.offset.mono h, he.size⟩

/-- A store with blocks of its own, constraints over its columns, and an objective that may be
set. -/
structure Store.Valid (handles : ConvexKind → Bool) (s : Store α) : Prop where
  owner : ∀ b ∈ s.declared, b.owner = s.id
  laid : Block.Laid 0 s.blocks
  rows : ∀ c ∈ s.rows, c.linear.ncols ≤ s.columnCount
  bounds : ∀ b ∈ s.bounds, ∀ q ∈ b.items, q.1 < s.columnCount
  piecewise : ∀ c ∈ s.piecewise, c.Scoped PiecewiseKind.elementwise s.id s.columnCount
  objective : ∀ p ∈ s.objective, p.1.Scoped s.id s.columnCount ∧ p.1.Suits handles p.2

namespace Store

variable {handles : ConvexKind → Bool} {s : Store α}

theorem valid_empty (id : ModelId) (settings : Settings) (name : Option String) :
    (empty id settings name : Store α).Valid handles where
  owner := by simp [empty]
  laid := ⟨rfl, trivial⟩
  rows := by simp [empty]
  bounds := by simp [empty]
  piecewise := by simp [empty]
  objective := by simp [empty]

/-- Blocks of the owner, one after another, span the columns of a store. -/
theorem spanned_of_laid (ho : ∀ b ∈ s.declared, b.owner = s.id) (hlaid : Block.Laid 0 s.blocks) :
    Block.Spanned s.id s.columnCount s.blocks := by
  refine fun b hb => ⟨?_, ?_⟩
  · rcases List.mem_cons.mp hb with rfl | hb
    · rfl
    · exact ho b hb
  · have := hlaid.stop_le b hb
    rwa [Nat.zero_add] at this

theorem owner_declare (ho : ∀ b ∈ s.declared, b.owner = s.id) (shape : Shape) (type : VariableType)
    (name : Option String) : ∀ b ∈ (s.declare shape type name).2.declared, b.owner = s.id := by
  intro b hb
  rcases List.mem_append.mp hb with hb | hb
  · exact ho b hb
  · rw [List.mem_singleton.mp hb]

theorem laid_declare (hlaid : Block.Laid 0 s.blocks) (shape : Shape) (type : VariableType)
    (name : Option String) : Block.Laid 0 (s.declare shape type name).2.blocks := by
  show Block.Laid 0 (s.blocks ++ [_])
  refine Block.laid_append.mpr ⟨hlaid, ?_, trivial⟩
  exact (Nat.zero_add _).symm

/-- The blocks of a valid store span its columns. -/
theorem Valid.spanned (hs : s.Valid handles) : Block.Spanned s.id s.columnCount s.blocks :=
  spanned_of_laid hs.owner hs.laid

theorem Valid.clear (hs : s.Valid handles) : s.clear.Valid handles where
  owner := hs.owner
  laid := hs.laid
  rows := by simp [Store.clear]
  bounds := by simp [Store.clear]
  piecewise := by simp [Store.clear]
  objective := by simp [Store.clear]

theorem Valid.declare (hs : s.Valid handles) (shape : Shape) (type : VariableType)
    (name : Option String) : (s.declare shape type name).2.Valid handles := by
  have hcount := columnCount_declare s shape type name
  have hle : s.columnCount ≤ (s.declare shape type name).2.columnCount := by omega
  constructor
  · exact owner_declare hs.owner shape type name
  · exact laid_declare hs.laid shape type name
  · exact fun c hc => (hs.rows c hc).trans hle
  · exact fun b hb q hq => (hs.bounds b hb q hq).trans_le hle
  · exact fun c hc => (hs.piecewise c hc).mono hle
  · exact fun p hp => ⟨(hs.objective p hp).1.mono hle, (hs.objective p hp).2⟩

/-- An objective that is set suits the goal, and replaces the one before. -/
theorem eq_of_setObjective_eq_ok {s' : Store α} {e : Objective α} {goal : Goal}
    (h : s.setObjective handles e goal = .ok s') :
    e.Suits handles goal ∧ s' = { s with objective := some (e, goal) } := by
  -- the checks in order: owner, size, the kind of the function, its curvature
  unfold Store.setObjective at h
  split at h
  · cases h
  · split at h
    · cases h
    · next hsize =>
      have hsize := not_not.mp hsize
      dsimp only at h
      split at h
      · cases h
        exact ⟨hsize, rfl⟩
      · split at h
        · cases h
        · split at h
          · cases h
          · next hhandles hcurv =>
            cases h
            exact ⟨⟨hsize, by simpa using hhandles, not_not.mp hcurv⟩, rfl⟩

theorem Valid.setObjective (hs : s.Valid handles) {s' : Store α} {e : Objective α} {goal : Goal}
    (he : e.Scoped s.id s.columnCount) (h : s.setObjective handles e goal = .ok s') :
    s'.Valid handles := by
  obtain ⟨hsuits, rfl⟩ := eq_of_setObjective_eq_ok h
  exact { hs with
    objective := by
      intro p hp
      obtain rfl := Option.mem_some_iff.mp hp
      exact ⟨he, hsuits⟩ }

end Store

/-! ## Constraints -/

namespace StoreItem

/-- Constraints of a store over its first `n` columns. -/
def Scoped (id : ModelId) (n : Nat) : StoreItem α → Prop
  | rows c => c.linear.ncols ≤ n
  | bounds c => ∀ q ∈ c.items, q.1 < n
  | piecewise c => c.Scoped PiecewiseKind.elementwise id n

end StoreItem

namespace Store

variable {handles : ConvexKind → Bool} {s : Store α} {id : ModelId} {n : Nat}

theorem scoped_of_classify {c : Constraint α} {item : StoreItem α} (hc : c.Scoped id n)
    (h : s.classify c = .ok item) : item.Scoped id n := by
  cases c with
  | linear r =>
    simp only [classify] at h
    split at h
    · cases h
      exact hc
    · cases h
  | bounds b =>
    simp only [classify] at h
    split at h
    · cases h
      exact hc
    · cases h
  | convex v =>
    simp only [classify] at h
    split at h
    · split at h
      · next k hk =>
        cases h
        exact hc.withKind (congrArg ConvexKind.elementwise hk)
      · cases h
    · cases h
  | cone => cases h
  | expCone => cases h

@[simp] theorem id_insert (item : StoreItem α) : (s.insert item).id = s.id := by
  cases item <;> rfl

@[simp] theorem columnCount_insert (item : StoreItem α) :
    (s.insert item).columnCount = s.columnCount := by
  cases item <;> rfl

theorem Valid.insert (hs : s.Valid handles) {item : StoreItem α}
    (hi : item.Scoped s.id s.columnCount) : (s.insert item).Valid handles := by
  cases item with
  | rows c =>
    exact { hs with
      rows := List.forall_mem_append.mpr ⟨hs.rows, List.forall_mem_singleton.mpr hi⟩ }
  | bounds c =>
    exact { hs with
      bounds := List.forall_mem_append.mpr ⟨hs.bounds, List.forall_mem_singleton.mpr hi⟩ }
  | piecewise c =>
    exact { hs with
      piecewise := List.forall_mem_append.mpr ⟨hs.piecewise, List.forall_mem_singleton.mpr hi⟩ }

theorem Valid.foldl_insert (items : List (StoreItem α)) (hs : s.Valid handles)
    (hi : ∀ item ∈ items, item.Scoped s.id s.columnCount) :
    (items.foldl Store.insert s).Valid handles := by
  induction items generalizing s with
  | nil => exact hs
  | cons item items ih =>
    obtain ⟨hitem, hitems⟩ := List.forall_mem_cons.mp hi
    refine ih (hs.insert hitem) fun i hmem => ?_
    rw [id_insert, columnCount_insert]
    exact hitems i hmem

theorem Valid.insertAll {s' : Store α} (hs : s.Valid handles) {cs : List (Constraint α)}
    (hcs : ∀ c ∈ cs, c.Scoped s.id s.columnCount) (h : s.insertAll cs = .ok s') :
    s'.Valid handles := by
  obtain ⟨items, hm, h⟩ := exists_of_bind_eq_ok h
  cases h
  refine hs.foldl_insert items fun item hitem => ?_
  obtain ⟨c, hc, hci⟩ := exists_of_mem_mapM hm item hitem
  exact scoped_of_classify (hcs c hc) hci

end Store

namespace ConeItem

/-- Constraints of a cone model over its first `n` columns. -/
def Scoped (id : ModelId) (n : Nat) : ConeItem α → Prop
  | store item => item.Scoped id n
  | conic c => c.Scoped ConicKind.elementwise id n
  | cone c => ∀ j ∈ c.record, j < n

end ConeItem

/-! ## Stores of cone models -/

/-- A valid store whose conic constraints and direct memberships are over its columns. -/
structure ConeStore.Valid (s : ConeStore α) : Prop where
  linear : s.linear.Valid ConeModel.handles
  conic : ∀ c ∈ s.conic, c.Scoped ConicKind.elementwise s.linear.id s.linear.columnCount
  cones : ∀ c ∈ s.cones, ∀ j ∈ c.record, j < s.linear.columnCount

namespace ConeStore

variable {s s' : ConeStore α} {id : ModelId} {n : Nat}

theorem valid_empty (id : ModelId) (settings : Settings) (name : Option String) :
    (⟨.empty id settings name, [], []⟩ : ConeStore α).Valid where
  linear := Store.valid_empty id settings name
  conic := by simp
  cones := by simp

theorem scoped_of_classify {c : Constraint α} {item : ConeItem α} (hc : c.Scoped id n)
    (h : s.classify c = .ok item) : item.Scoped id n := by
  have hstore : (do return ConeItem.store (← s.linear.classify c)) = .ok item →
      item.Scoped id n := by
    intro h
    obtain ⟨i, hi, h⟩ := exists_of_bind_eq_ok h
    cases h
    exact Store.scoped_of_classify hc hi
  cases c with
  | convex v =>
    simp only [classify] at h
    split at h
    · split at h
      · next k hk =>
        cases h
        exact hc.withKind (congrArg ConvexKind.elementwise hk)
      · next k hk =>
        cases h
        exact hc.withKind (congrArg ConvexKind.elementwise hk)
      · cases h
    · cases h
  | cone k =>
    simp only [classify] at h
    split at h
    · cases h
      exact hc
    · cases h
  | linear r => exact hstore h
  | bounds b => exact hstore h
  | expCone k => exact hstore h

@[simp] theorem id_insert (item : ConeItem α) : (s.insert item).linear.id = s.linear.id := by
  cases item with
  | store item => exact Store.id_insert item
  | conic c => rfl
  | cone c => rfl

@[simp] theorem columnCount_insert (item : ConeItem α) :
    (s.insert item).linear.columnCount = s.linear.columnCount := by
  cases item with
  | store item => exact Store.columnCount_insert item
  | conic c => rfl
  | cone c => rfl

theorem Valid.insert (hs : s.Valid) {item : ConeItem α}
    (hi : item.Scoped s.linear.id s.linear.columnCount) : (s.insert item).Valid := by
  cases item with
  | store item =>
    refine ⟨hs.linear.insert hi, ?_, ?_⟩
    · simpa [ConeStore.insert] using hs.conic
    · simpa [ConeStore.insert] using hs.cones
  | conic c =>
    exact { hs with
      conic := List.forall_mem_append.mpr ⟨hs.conic, List.forall_mem_singleton.mpr hi⟩ }
  | cone c =>
    exact { hs with
      cones := List.forall_mem_append.mpr ⟨hs.cones, List.forall_mem_singleton.mpr hi⟩ }

theorem Valid.foldl_insert (items : List (ConeItem α)) (hs : s.Valid)
    (hi : ∀ item ∈ items, item.Scoped s.linear.id s.linear.columnCount) :
    (items.foldl ConeStore.insert s).Valid := by
  induction items generalizing s with
  | nil => exact hs
  | cons item items ih =>
    obtain ⟨hitem, hitems⟩ := List.forall_mem_cons.mp hi
    refine ih (hs.insert hitem) fun i hmem => ?_
    rw [id_insert, columnCount_insert]
    exact hitems i hmem

theorem Valid.insertAll (hs : s.Valid) {cs : List (Constraint α)}
    (hcs : ∀ c ∈ cs, c.Scoped s.linear.id s.linear.columnCount)
    (h : s.insertAll cs = .ok s') : s'.Valid := by
  obtain ⟨items, hm, h⟩ := exists_of_bind_eq_ok h
  cases h
  refine hs.foldl_insert items fun item hitem => ?_
  obtain ⟨c, hc, hci⟩ := exists_of_mem_mapM hm item hitem
  exact scoped_of_classify (hcs c hc) hci

theorem Valid.declare (hs : s.Valid) (shape : Shape) (type : VariableType)
    (name : Option String) :
    ({ s with linear := (s.linear.declare shape type name).2 } : ConeStore α).Valid := by
  have hcount := Store.columnCount_declare s.linear shape type name
  have hle : s.linear.columnCount ≤ (s.linear.declare shape type name).2.columnCount := by omega
  exact ⟨hs.linear.declare shape type name, fun c hc => (hs.conic c hc).mono hle,
    fun c hc j hj => (hs.cones c hc j hj).trans_le hle⟩

theorem Valid.setObjective (hs : s.Valid) {t : Store α} {e : Objective α} {goal : Goal}
    (he : e.Scoped s.linear.id s.linear.columnCount)
    (h : s.linear.setObjective ConeModel.handles e goal = .ok t) :
    ({ s with linear := t } : ConeStore α).Valid := by
  have hlinear := hs.linear.setObjective he h
  obtain ⟨-, rfl⟩ := Store.eq_of_setObjective_eq_ok h
  exact ⟨hlinear, hs.conic, hs.cones⟩

theorem Valid.clear (hs : s.Valid) : (⟨s.linear.clear, [], []⟩ : ConeStore α).Valid where
  linear := hs.linear.clear
  conic := by simp
  cones := by simp

end ConeStore

end ConicForm
