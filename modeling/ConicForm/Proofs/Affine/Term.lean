import ConicForm.Proofs.Constraint.Meaning

/-!
# Compositions of affine operations

An affine expression is composed from blocks of columns, references to their elements and
constants by the operations on expressions. The same composition can be read directly, on lists of
elements: entry by entry, with single elements repeated, and products taken from the row-major
block that the elements list. What is built has the elements that are read.

## Main definitions

* `AffineTerm`: a composition of operations
* `AffineTerm.build`, `AffineTerm.shape?`, `AffineTerm.blocks`: the expression that it builds, its
  shape, and the blocks that occur in it
* `AffineTerm.elements`: its elements at an assignment, read directly
* `zipSpread`: elementwise combination, with a single element repeated
* `AffineTerm.Means`, `AffineTerm.Compares`: what expressions and comparisons mean

## Main results

* `AffineTerm.means_of_build`: what is built has the elements of the composition
* `AffineTerm.build_spec`: and so has what is compared
-/

namespace ConicForm

/-! ## Compositions -/

/-- A composition of the operations on affine expressions. -/
inductive AffineTerm (α : Type) where
  | block (b : Block)
  | selection (s : Selection)
  | values (shape : Shape) (xs : List α)
  | zeros (shape : Shape)
  | number (x : α)
  | numbers (xs : List α)
  | add (t u : AffineTerm α)
  | sub (t u : AffineTerm α)
  | neg (t : AffineTerm α)
  | scale (x : α) (t : AffineTerm α)
  | offset (x : α) (t : AffineTerm α)
  | sum (t : AffineTerm α)
  | select (indices : List Nat) (t : AffineTerm α)
  | get (index : Nat) (t : AffineTerm α)
  | leftMul (m : DenseMatrix α) (t : AffineTerm α)

namespace AffineTerm

section

variable {α : Type}

/-- The expression that a composition builds, unless an operation fails. -/
def build [Scalar α] : AffineTerm α → Except Error (Affine α)
  | block b => return .ofBlock b
  | selection s => return .ofSelection s
  | values shape xs => Affine.ofValues shape xs
  | zeros shape => return .zeros shape
  | number x => return .number x
  | numbers xs => return .numbers xs
  | add t u => do (← t.build).add (← u.build)
  | sub t u => do (← t.build).sub (← u.build)
  | neg t => return (← t.build).neg
  | scale x t => return (← t.build).scale x
  | offset x t => return (← t.build).offset x
  | sum t => return (← t.build).sum
  | select indices t => do (← t.build).select indices
  | get index t => do (← t.build).get index
  | leftMul m t => do (← t.build).leftMul m

/-- The shape of a composition, if the shapes of its parts fit. -/
@[simp] def shape? : AffineTerm α → Option Shape
  | block b => some b.shape
  | selection s => some (.vector s.indices.length)
  | values shape xs => if xs.length = shape.size then some shape else none
  | zeros shape => some shape
  | number _ => some .scalar
  | numbers xs => some (.vector xs.length)
  | add t u => do (← t.shape?).elementwise (← u.shape?)
  | sub t u => do (← t.shape?).elementwise (← u.shape?)
  | neg t => t.shape?
  | scale _ t => t.shape?
  | offset _ t => t.shape?
  | sum t => t.shape?.map fun _ => .scalar
  | select indices t => do
    let s ← t.shape?
    if ∀ i ∈ indices, i < s.size then some (.vector indices.length) else none
  | get index t => do
    let s ← t.shape?
    if index < s.size then some .scalar else none
  | leftMul m t => do (← t.shape?).leftProduct m.nrows m.ncols

/-- The blocks that occur in a composition. -/
def blocks : AffineTerm α → List Block
  | block b => [b]
  | selection s => [s.block]
  | values _ _ => []
  | zeros _ => []
  | number _ => []
  | numbers _ => []
  | add t u => t.blocks ++ u.blocks
  | sub t u => t.blocks ++ u.blocks
  | neg t => t.blocks
  | scale _ t => t.blocks
  | offset _ t => t.blocks
  | sum t => t.blocks
  | select _ t => t.blocks
  | get _ t => t.blocks
  | leftMul _ t => t.blocks

end

end AffineTerm

/-! ## Reading compositions directly -/

/-- Combines two lists elementwise. A single element is combined with all of the other list. -/
def zipSpread {τ σ : Type} (f : τ → τ → σ) : List τ → List τ → List σ
  | [y], vs => vs.map (f y)
  | us, [z] => us.map (f · z)
  | us, vs => List.zipWith f us vs

/-- Whether a relation holds elementwise. A single element stands in it to all of the other list. -/
def Elementwise {τ : Type} (r : τ → τ → Prop) (us vs : List τ) : Prop :=
  ∀ p ∈ zipSpread r us vs, p

theorem zipSpread_flip {τ σ : Type} (f : τ → τ → σ) (us vs : List τ) :
    zipSpread f us vs = zipSpread (flip f) vs us := by
  -- only two lists that are both zipped are not the same by definition
  rcases us with _ | ⟨y, _ | ⟨y', us⟩⟩ <;> rcases vs with _ | ⟨z, _ | ⟨z', vs⟩⟩ <;>
    first | rfl | exact List.zipWith_comm

theorem elementwise_congr {τ : Type} {r r' : τ → τ → Prop} (h : ∀ y z, r y z ↔ r' y z)
    (us vs : List τ) : Elementwise r us vs ↔ Elementwise r' us vs := by
  have hr : r = r' := funext₂ fun y z => propext (h y z)
  rw [hr]

variable {K : Type} [Field K]

/-- The elements of a composition at an assignment of the columns, row by row. -/
@[simp] def AffineTerm.elements (x : Nat → K) : AffineTerm K → List K
  | block b => (List.range b.size).map fun i => x (b.first + i)
  | selection s => s.indices.map fun i => x (s.block.first + i)
  | values _ ys => ys
  | zeros shape => List.replicate shape.size 0
  | number y => [y]
  | numbers ys => ys
  | add t u => zipSpread (· + ·) (t.elements x) (u.elements x)
  | sub t u => zipSpread (· - ·) (t.elements x) (u.elements x)
  | neg t => (t.elements x).map (- ·)
  | scale y t => (t.elements x).map (· * y)
  | offset y t => (t.elements x).map (· + y)
  | sum t => [(t.elements x).sum]
  | select indices t => indices.map fun i => (t.elements x).getD i 0
  | get index t => [(t.elements x).getD index 0]
  | leftMul m t =>
    let n := (t.shape?.map Shape.cols).getD 1
    (List.range m.nrows).flatMap fun p => (List.range n).map fun j =>
      ∑ k ∈ Finset.range m.ncols, m.get p k * (t.elements x).getD (k * n + j) 0

/-- Elementwise combination, position by position. -/
theorem zipSpread_eq_map_range {σ : Type} (f : K → K → σ) {us vs : List K} {n : Nat}
    (hu : us.length = n ∨ us.length = 1) (hv : vs.length = n ∨ vs.length = 1)
    (hn : n = us.length ∨ n = vs.length) :
    zipSpread f us vs = (List.range n).map fun i =>
      f (us.getD (if us.length = 1 then 0 else i) 0)
        (vs.getD (if vs.length = 1 then 0 else i) 0) := by
  unfold zipSpread
  split
  · next y =>
    have hlen : vs.length = n := by
      rcases hn with rfl | rfl
      · simpa using hv
      · rfl
    subst hlen
    refine List.ext_getElem (by simp) fun i hi hi' => ?_
    have hi : i < vs.length := by simpa using hi
    by_cases hone : vs.length = 1
    · obtain rfl : i = 0 := by omega
      simp [hi]
    · simp [hone, hi]
  · next z hne =>
    have hlen : us.length = n := by
      rcases hn with rfl | rfl
      · rfl
      · simpa using hu
    have hone : us.length ≠ 1 := fun h => by
      obtain ⟨y, rfl⟩ := List.length_eq_one_iff.mp h
      exact hne y rfl
    subst hlen
    refine List.ext_getElem (by simp) fun i hi hi' => ?_
    have hi : i < us.length := by simpa using hi
    simp [hone, hi]
  · next hnu hnv =>
    have hone : us.length ≠ 1 := fun h => by
      obtain ⟨y, rfl⟩ := List.length_eq_one_iff.mp h
      exact hnu y rfl
    have hone' : vs.length ≠ 1 := fun h => by
      obtain ⟨z, rfl⟩ := List.length_eq_one_iff.mp h
      exact hnv z rfl
    have hu := hu.resolve_right hone
    have hv := hv.resolve_right hone'
    refine List.ext_getElem (by simp [hu, hv]) fun i hi hi' => ?_
    have hi : i < n := by simpa using hi'
    simp [hone, hone', hu.symm ▸ hi, hv.symm ▸ hi]

namespace Affine

variable [LinearOrder K] {a b c : Affine K} {x : Nat → K}

/-! ## Elements of expressions -/

/-- The elements of an expression at an assignment of the columns, row by row. -/
def values (a : Affine K) (x : Nat → K) : List K := (List.range a.size).map (a.value x)

@[simp] theorem length_values : (a.values x).length = a.size := by simp [values]

theorem getD_values {i : Nat} (hi : i < a.size) : (a.values x).getD i 0 = a.value x i := by
  rw [List.getD_eq_getElem _ _ (by simpa using hi)]
  simp [values]

theorem values_eq {us : List K} (hlen : us.length = a.size)
    (h : ∀ i (hi : i < us.length), a.value x i = us[i]) : a.values x = us := by
  refine List.ext_getElem (by simp [hlen]) fun i hi hi' => ?_
  rw [← h i hi']
  simp [values]

theorem values_ofBlock (b : Block) : (ofBlock b : Affine K).values x =
    (List.range b.size).map fun i => x (b.first + i) := by
  refine values_eq (by simp) fun i hi => ?_
  have hi : i < b.size := by simpa using hi
  rw [value_ofBlock hi, List.getElem_map, List.getElem_range]

theorem values_ofSelection (s : Selection) :
    (ofSelection s : Affine K).values x = s.indices.map fun i => x (s.block.first + i) := by
  refine values_eq (by simp [size, ofSelection, ofColumns]) fun i hi => ?_
  have hi : i < s.columns.length := by simpa using hi
  rw [value_ofSelection hi, List.getElem_map]
  exact congrArg x (List.getElem_map _)

/-- An expression without coefficients has its constants as elements. -/
theorem values_of_entries_eq_nil (h : a.linear.entries = []) : a.values x = a.constant := by
  refine values_eq a.length_constant fun i hi => ?_
  have hrow : a.linear.rowValue x i = 0 := by
    rw [SparseMatrix.rowValue, h, weightedSum_nil]
  rw [value, hrow, zero_add, List.getD_eq_getElem _ _ hi]

theorem values_scale (y : K) : (a.scale y).values x = (a.values x).map (· * y) := by
  refine values_eq (by simp) fun i hi => ?_
  simp [values]

theorem values_neg : a.neg.values x = (a.values x).map (- ·) := by
  refine values_eq (by simp) fun i hi => ?_
  simp [values]

theorem values_offset (y : K) : (a.offset y).values x = (a.values x).map (· + y) := by
  refine values_eq (by simp) fun i hi => ?_
  rw [value_offset y (by simpa using hi)]
  simp [values]

theorem values_sum : a.sum.values x = [(a.values x).sum] := by
  refine values_eq rfl fun i hi => ?_
  obtain rfl : i = 0 := by simpa using hi
  rw [value_sum]
  rfl

theorem values_pick {indices : List Nat} (h : ∀ i ∈ indices, i < a.size) :
    (a.pick indices).values x = indices.map fun i => (a.values x).getD i 0 := by
  refine values_eq (by simp [size, pick]) fun k hk => ?_
  have hk : k < indices.length := by simpa using hk
  rw [value_pick hk, List.getElem_map, getD_values (h _ (List.getElem_mem hk))]

/-- A list of elements has what the expression spreads over all positions. -/
theorem getD_values_spread {n i : Nat} (h : a.size = n ∨ a.size = 1) (hi : i < n) :
    (a.values x).getD (if (a.values x).length = 1 then 0 else i) 0 = a.spread x i := by
  rw [length_values, spread]
  refine getD_values ?_
  split <;> omega

/-- Elementwise combinations of expressions whose shapes combine. -/
theorem zipSpread_values {σ : Type} (f : K → K → σ) {s : Shape}
    (h : a.shape.elementwise b.shape = some s) :
    zipSpread f (a.values x) (b.values x) =
      (List.range s.size).map fun i => f (a.spread x i) (b.spread x i) := by
  have ha : a.size = s.size ∨ a.size = 1 := (Shape.size_of_elementwise h).1
  have hb : b.size = s.size ∨ b.size = 1 := (Shape.size_of_elementwise h).2
  have hs : s.size = a.size ∨ s.size = b.size := Shape.size_eq_of_elementwise h
  rw [zipSpread_eq_map_range f (n := s.size) (by simpa using ha) (by simpa using hb)
    (by simpa using hs)]
  refine List.map_congr_left fun i hi => ?_
  have hi := List.mem_range.mp hi
  rw [getD_values_spread ha hi, getD_values_spread hb hi]

theorem values_add (h : a.add b = .ok c) :
    c.values x = zipSpread (· + ·) (a.values x) (b.values x) := by
  rw [zipSpread_values _ (of_add_eq_ok h).2.1]
  exact List.map_congr_left fun i hi => value_add h (List.mem_range.mp hi)

theorem values_sub (h : a.sub b = .ok c) :
    c.values x = zipSpread (· - ·) (a.values x) (b.values x) := by
  have hs : a.shape.elementwise b.shape = some c.shape := (of_add_eq_ok h).2.1
  rw [zipSpread_values _ hs]
  exact List.map_congr_left fun i hi => value_sub h (List.mem_range.mp hi)

theorem values_leftMul {m : DenseMatrix K} (h : a.leftMul m = .ok c) :
    c.values x = (List.range m.nrows).flatMap fun p => (List.range a.shape.cols).map fun j =>
      ∑ k ∈ Finset.range m.ncols, m.get p k * (a.values x).getD (k * a.shape.cols + j) 0 := by
  obtain ⟨hs, -⟩ := of_leftMul_eq_ok h
  obtain ⟨-, hrows, -⟩ := Shape.leftProduct_eq_some_iff.mp hs
  have hsize : c.size = m.nrows * a.shape.cols := Shape.size_of_leftProduct hs
  rw [flatMap_range_map, values, hsize]
  refine List.map_congr_left fun i hi => ?_
  have hi : i < m.nrows * a.shape.cols := List.mem_range.mp hi
  rw [value_leftMul h (hsize ▸ hi)]
  refine Finset.sum_congr rfl fun k hk => ?_
  have hmod : i % a.shape.cols < a.shape.cols :=
    Nat.mod_lt _ (Nat.pos_of_mul_pos_left (Nat.zero_lt_of_lt hi))
  have hcell : k * a.shape.cols + i % a.shape.cols < a.size := by
    calc k * a.shape.cols + i % a.shape.cols < (k + 1) * a.shape.cols := by
          rw [Nat.succ_mul]; omega
      _ ≤ a.shape.rows * a.shape.cols := by
          rw [hrows]
          exact Nat.mul_le_mul_right _ (Finset.mem_range.mp hk)
  rw [getD_values hcell]

/-! ## Comparisons -/

section Comparison

variable [IsStrictOrderedRing K] {d : LinearConstraint K}

/-- The rows that compare an expression with zero hold if its elements do. -/
theorem holds_ofResidual_iff (a : Affine K) (sense : Sense) :
    (LinearConstraint.ofResidual a sense).Holds x ↔ ∀ i < a.size, sense.Holds (a.value x i) 0 := by
  have hw : a.Within (a.owner.getD ⟨0⟩) a.linear.ncols :=
    ⟨fun o ho => by rw [Option.mem_def.mp ho]; rfl, le_rfl⟩
  exact (LinearConstraint.describes_ofResidual hw).holds_iff

/-- The rows of a difference that is compared with zero, pair by pair. -/
theorem holds_ofResidual_sub_iff {sense : Sense} (h : a.sub b = .ok c) :
    (LinearConstraint.ofResidual c sense).Holds x ↔
      Elementwise (fun y z => sense.Holds (y - z) 0) (a.values x) (b.values x) := by
  have hs : a.shape.elementwise b.shape = some c.shape := (of_add_eq_ok h).2.1
  rw [Elementwise, zipSpread_values _ hs, List.forall_mem_map, holds_ofResidual_iff]
  simp only [List.mem_range]
  exact forall₂_congr fun i hi => by rw [value_sub h hi]

theorem holds_le_iff (h : a.le b = .ok d) :
    d.Holds x ↔ Elementwise (· ≤ ·) (a.values x) (b.values x) := by
  obtain ⟨c, hc, h⟩ := exists_of_bind_eq_ok h
  cases h
  exact (holds_ofResidual_sub_iff hc).trans (elementwise_congr (fun _ _ => sub_nonpos) _ _)

/-- What is at least an expression is compared with it from the other side. -/
theorem holds_ge_iff (h : a.ge b = .ok d) :
    d.Holds x ↔ Elementwise (· ≥ ·) (a.values x) (b.values x) := by
  rw [Elementwise, zipSpread_flip]
  exact holds_le_iff (a := b) (b := a) h

theorem holds_eq_iff (h : a.eq b = .ok d) :
    d.Holds x ↔ Elementwise (· = ·) (a.values x) (b.values x) := by
  obtain ⟨c, hc, h⟩ := exists_of_bind_eq_ok h
  cases h
  exact (holds_ofResidual_sub_iff hc).trans (elementwise_congr (fun _ _ => sub_eq_zero) _ _)

end Comparison

/-- Expressions have a difference if their owners do not differ and their sizes are the same, up to
constants and single elements. -/
theorem exists_sub_iff : (∃ c, a.sub b = .ok c) ↔
    (∀ o ∈ a.owner, ∀ p ∈ b.owner, o = p) ∧ (a.size = b.size ∨ a.size = 1 ∨ b.size = 1) := by
  constructor
  · rintro ⟨c, hc⟩
    obtain ⟨ho, hs, -⟩ := of_add_eq_ok hc
    have hsize := Shape.exists_elementwise_iff.mp ⟨_, hs⟩
    exact ⟨(mergeOwners_eq_ok_iff.mp ho).1, hsize.imp_right Or.symm⟩
  · rintro ⟨hagree, hsize⟩
    obtain ⟨s, hs⟩ := Shape.exists_elementwise_iff.mpr (hsize.imp_right Or.symm)
    obtain ⟨c, hc, -⟩ :=
      exists_add_of_owner (b := b.neg) (mergeOwners_eq_ok_iff.mpr ⟨hagree, rfl⟩) hs
    exact ⟨c, hc⟩

theorem exists_residual_iff (sense : Sense) :
    (∃ d, (return .ofResidual (← a.sub b) sense : Except Error (LinearConstraint K)) = .ok d) ↔
      (∀ o ∈ a.owner, ∀ p ∈ b.owner, o = p) ∧ (a.size = b.size ∨ a.size = 1 ∨ b.size = 1) := by
  rw [← exists_sub_iff]
  cases a.sub b with
  | error e => exact iff_of_false (by rintro ⟨d, ⟨⟩⟩) (by rintro ⟨c, ⟨⟩⟩)
  | ok c => exact iff_of_true ⟨_, rfl⟩ ⟨c, rfl⟩

end Affine

/-! ## What compositions build -/

namespace AffineTerm

variable [LinearOrder K] {t u : AffineTerm K} {a b c : Affine K}

/-- What an expression has to do with a composition that builds it: it has the shape of the
composition, a row and a constant for each element, and the elements that are read directly. -/
structure Means (t : AffineTerm K) (a : Affine K) : Prop where
  shape : t.shape? = some a.shape
  nrows : a.linear.nrows = a.shape.size
  length : a.constant.length = a.shape.size
  values : ∀ x, a.values x = t.elements x

namespace Means

theorem of_values (hs : t.shape? = some a.shape) (hv : ∀ x, a.values x = t.elements x) :
    t.Means a :=
  ⟨hs, a.nrows_linear, a.length_constant, hv⟩

theorem ofSelection (s : Selection) : (selection s : AffineTerm K).Means (.ofSelection s) := by
  refine of_values ?_ fun x => Affine.values_ofSelection s
  rw [shape?, ← s.length_columns]
  rfl

theorem ofValues {shape : Shape} {ys : List K} (h : Affine.ofValues shape ys = .ok a) :
    (AffineTerm.values shape ys).Means a := by
  unfold Affine.ofValues at h
  split at h
  · next hlen =>
    cases h
    exact of_values (if_pos hlen) fun x => Affine.values_of_entries_eq_nil rfl
  · cases h

theorem add (ht : t.Means a) (hu : u.Means b) (h : a.add b = .ok c) : (t.add u).Means c := by
  refine of_values ?_ fun x => ?_
  · rw [shape?, ht.shape, hu.shape]
    exact (Affine.of_add_eq_ok h).2.1
  · rw [elements, ← ht.values, ← hu.values, Affine.values_add h]

theorem sub (ht : t.Means a) (hu : u.Means b) (h : a.sub b = .ok c) : (t.sub u).Means c := by
  refine of_values ?_ fun x => ?_
  · rw [shape?, ht.shape, hu.shape]
    exact (Affine.of_add_eq_ok h).2.1
  · rw [elements, ← ht.values, ← hu.values, Affine.values_sub h]

theorem neg (ht : t.Means a) : t.neg.Means a.neg :=
  of_values ht.shape fun x => by rw [elements, ← ht.values, Affine.values_neg]

theorem scale (y : K) (ht : t.Means a) : (t.scale y).Means (a.scale y) :=
  of_values ht.shape fun x => by rw [elements, ← ht.values, Affine.values_scale]

theorem offset (y : K) (ht : t.Means a) : (t.offset y).Means (a.offset y) :=
  of_values ht.shape fun x => by rw [elements, ← ht.values, Affine.values_offset]

theorem sum (ht : t.Means a) : t.sum.Means a.sum := by
  refine of_values ?_ fun x => ?_
  · rw [shape?, ht.shape]
    rfl
  · rw [elements, ← ht.values, Affine.values_sum]

theorem select {indices : List Nat} (ht : t.Means a) (h : a.select indices = .ok c) :
    (t.select indices).Means c := by
  obtain ⟨⟨hlt⟩, -, h⟩ := exists_of_bind_eq_ok h
  cases h
  refine of_values ?_ fun x => ?_
  · rw [shape?, ht.shape]
    exact if_pos hlt
  · rw [elements, ← ht.values, Affine.values_pick hlt]

theorem get {index : Nat} (ht : t.Means a) (h : a.get index = .ok c) : (t.get index).Means c := by
  obtain ⟨⟨hlt⟩, -, h⟩ := exists_of_bind_eq_ok h
  cases h
  refine of_values ?_ fun x => ?_
  · rw [shape?, ht.shape]
    exact if_pos (hlt index (List.mem_singleton_self _))
  · rw [elements, ← ht.values]
    exact Affine.values_pick hlt

theorem leftMul {m : DenseMatrix K} (ht : t.Means a) (h : a.leftMul m = .ok c) :
    (t.leftMul m).Means c := by
  refine of_values ?_ fun x => ?_
  · rw [shape?, ht.shape]
    exact (Affine.of_leftMul_eq_ok h).1
  · rw [elements, ← ht.values, ht.shape, Affine.values_leftMul h]
    rfl

end Means

/-- **What a composition builds has the elements of the composition.** -/
theorem means_of_build (h : t.build = .ok a) : t.Means a := by
  -- on the operations, each of which does to the elements what the composition says
  induction t generalizing a with
  | block b =>
    cases h
    exact .of_values rfl fun x => Affine.values_ofBlock b
  | selection s =>
    cases h
    exact .ofSelection s
  | values shape ys => exact .ofValues h
  | zeros shape =>
    cases h
    exact .of_values rfl fun x => Affine.values_of_entries_eq_nil rfl
  | number y =>
    cases h
    exact .of_values rfl fun x => Affine.values_of_entries_eq_nil rfl
  | numbers ys =>
    cases h
    exact .of_values rfl fun x => Affine.values_of_entries_eq_nil rfl
  | add t u iht ihu =>
    obtain ⟨b, hb, h⟩ := exists_of_bind_eq_ok h
    obtain ⟨c, hc, h⟩ := exists_of_bind_eq_ok h
    exact (iht hb).add (ihu hc) h
  | sub t u iht ihu =>
    obtain ⟨b, hb, h⟩ := exists_of_bind_eq_ok h
    obtain ⟨c, hc, h⟩ := exists_of_bind_eq_ok h
    exact (iht hb).sub (ihu hc) h
  | neg t ih =>
    obtain ⟨b, hb, h⟩ := exists_of_bind_eq_ok h
    cases h
    exact (ih hb).neg
  | scale y t ih =>
    obtain ⟨b, hb, h⟩ := exists_of_bind_eq_ok h
    cases h
    exact (ih hb).scale y
  | offset y t ih =>
    obtain ⟨b, hb, h⟩ := exists_of_bind_eq_ok h
    cases h
    exact (ih hb).offset y
  | sum t ih =>
    obtain ⟨b, hb, h⟩ := exists_of_bind_eq_ok h
    cases h
    exact (ih hb).sum
  | select indices t ih =>
    obtain ⟨b, hb, h⟩ := exists_of_bind_eq_ok h
    exact (ih hb).select h
  | get index t ih =>
    obtain ⟨b, hb, h⟩ := exists_of_bind_eq_ok h
    exact (ih hb).get h
  | leftMul m t ih =>
    obtain ⟨b, hb, h⟩ := exists_of_bind_eq_ok h
    exact (ih hb).leftMul h

/-- What a comparison of two compositions means: it succeeds if owners do not differ and sizes are
the same, up to constants and single elements, and its rows hold if the elements are related. -/
structure Compares (t u : AffineTerm K) (a b : Affine K) (d? : Except Error (LinearConstraint K))
    (r : K → K → Prop) : Prop where
  succeeds : (∃ d, d? = .ok d) ↔
    (∀ o ∈ a.owner, ∀ p ∈ b.owner, o = p) ∧ (a.size = b.size ∨ a.size = 1 ∨ b.size = 1)
  holds : ∀ d, d? = .ok d → ∀ x, d.Holds x ↔ Elementwise r (t.elements x) (u.elements x)

/-- **Expression algebra means what it says.** What a composition builds has its shape, with a row
and a constant for each element, and its elements at every assignment; and the comparisons of two
such expressions hold where the elements are related one by one. -/
theorem build_spec [IsStrictOrderedRing K] (ht : t.build = .ok a) (hu : u.build = .ok b) :
    t.Means a ∧ Compares t u a b (a.le b) (· ≤ ·) ∧ Compares t u a b (a.ge b) (· ≥ ·) ∧
      Compares t u a b (a.eq b) (· = ·) := by
  have hmeans := means_of_build ht
  have hva := hmeans.values
  have hvb := (means_of_build hu).values
  refine ⟨hmeans, ⟨Affine.exists_residual_iff .le, fun d hd x => ?_⟩, ⟨?_, fun d hd x => ?_⟩,
    ⟨Affine.exists_residual_iff .eq, fun d hd x => ?_⟩⟩
  · rw [← hva, ← hvb, Affine.holds_le_iff hd]
  · refine (Affine.exists_residual_iff (a := b) (b := a) .le).trans ?_
    refine and_congr ⟨fun h o ho p hp => (h p hp o ho).symm,
      fun h o ho p hp => (h p hp o ho).symm⟩ ?_
    rw [eq_comm, or_comm (a := b.size = 1)]
  · rw [← hva, ← hvb, Affine.holds_ge_iff hd]
  · rw [← hva, ← hvb, Affine.holds_eq_iff hd]

/-- A block of two rows and two columns. -/
def grid : Block := ⟨⟨0⟩, 1, .matrix 2 2, .continuous, none⟩

/-- The product of a matrix with the block, where one was added to every element. -/
def product : AffineTerm ℚ :=
  .leftMul ⟨2, [[1, 2], [0, 1]], by decide⟩ (.add (.block grid) (.number 1))

/-- Elements of the block, the first one twice. -/
def picked : AffineTerm ℚ := .select [0, 0, 3, 1] (.block grid)

theorem build_spec_product : ∃ a b d, product.build = .ok a ∧ picked.build = .ok b ∧
    a.ge b = .ok d ∧ a.values (fun j => (j : ℚ)) = [10, 13, 4, 5] ∧ d.Holds fun j => (j : ℚ) := by
  obtain ⟨a, b, d, ha, hb, hd⟩ :
      ∃ a b d, product.build = .ok a ∧ picked.build = .ok b ∧ a.ge b = .ok d :=
    ⟨_, _, _, rfl, rfl, rfl⟩
  obtain ⟨hmeans, -, hge, -⟩ := build_spec ha hb
  have hproduct : product.elements (fun j => (j : ℚ)) = [10, 13, 4, 5] := by decide +kernel
  have hpicked : picked.elements (fun j => (j : ℚ)) = [1, 1, 4, 2] := by decide +kernel
  refine ⟨a, b, d, ha, hb, hd, (hmeans.values _).trans hproduct, (hge.holds d hd _).mpr ?_⟩
  rw [hproduct, hpicked]
  norm_num [Elementwise, zipSpread]

end AffineTerm

end ConicForm
