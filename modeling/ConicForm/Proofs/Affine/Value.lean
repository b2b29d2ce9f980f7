import ConicForm.Affine.Basic
import ConicForm.Proofs.Matrix.Rows

/-!
# Values of affine expressions

Each operation on affine expressions, read at an assignment of the columns. A sum is read
through the elements that its operands spread over its size, and succeeds on expressions
within one model as soon as the shapes combine.

## Main definitions

* `Affine.Within`: expressions over the first columns of a model
* `Affine.value`: the value of an element at an assignment
* `Affine.spread`: the same, a single element standing for all positions

## Main results

* `Affine.exists_add`, `Affine.Within.add`: sums exist and stay within the model
* `Affine.value_add`, `Affine.value_sub`: the elements of sums and differences
* `Affine.value_leftMul`: the elements of products with a constant matrix
-/

namespace ConicForm

theorem Shape.elementwise_scalar (s : Shape) : s.elementwise .scalar = some s := by
  unfold elementwise
  split
  · simp [rank]
  · simp

theorem Shape.elementwise_self (s : Shape) : s.elementwise s = some s := by simp [elementwise]

/-- Shapes of one size combine. -/
theorem Shape.exists_elementwise {s t : Shape} (h : s.size = t.size) :
    ∃ r, s.elementwise t = some r ∧ r.size = t.size := by
  by_cases hr : t.rank ≤ s.rank
  · exact ⟨s, by simp [elementwise, h, hr], h⟩
  · exact ⟨t, by simp [elementwise, h, hr], rfl⟩

/-- A single element combines with every shape. -/
theorem Shape.exists_elementwise_one {s t : Shape} (h : t.size = 1) :
    ∃ r, s.elementwise t = some r ∧ r.size = s.size := by
  by_cases hs : s.size = t.size
  · obtain ⟨r, hr, hsize⟩ := exists_elementwise hs
    exact ⟨r, hr, hsize.trans hs.symm⟩
  · refine ⟨s, ?_, rfl⟩
    rw [elementwise, if_neg hs, if_pos h]

/-- Shapes combine if they have one size or one of them is a single element. -/
theorem Shape.exists_elementwise_iff {s t : Shape} :
    (∃ r, s.elementwise t = some r) ↔ s.size = t.size ∨ t.size = 1 ∨ s.size = 1 := by
  rw [← Option.ne_none_iff_exists', ne_eq, elementwise_eq_none_iff]
  tauto

/-- A combination has the size of one of its operands. -/
theorem Shape.size_eq_of_elementwise {s t r : Shape} (h : s.elementwise t = some r) :
    r.size = s.size ∨ r.size = t.size := by
  unfold elementwise at h
  split at h
  · split at h
    · exact .inl (congrArg size (Option.some.inj h)).symm
    · exact .inr (congrArg size (Option.some.inj h)).symm
  · split at h
    · exact .inl (congrArg size (Option.some.inj h)).symm
    · split at h
      · exact .inr (congrArg size (Option.some.inj h)).symm
      · cases h

namespace Affine

section Within

variable {α : Type} [Scalar α]

/-- Expressions over the first `n` columns of a model, constants among them. -/
structure Within (id : ModelId) (n : Nat) (a : Affine α) : Prop where
  owner : ∀ o ∈ a.owner, o = id
  ncols : a.linear.ncols ≤ n

variable {id : ModelId} {n : Nat} {a b c : Affine α}

theorem Within.mono {n' : Nat} (h : n ≤ n') (ha : a.Within id n) : a.Within id n' :=
  ⟨ha.owner, ha.ncols.trans h⟩

theorem Within.mergeOwners (ha : a.Within id n) (hb : b.Within id n) :
    mergeOwners a.owner b.owner = .ok (a.owner.or b.owner) :=
  mergeOwners_eq_ok_iff.mpr ⟨fun o ho p hp => (ha.owner o ho).trans (hb.owner p hp).symm, rfl⟩

/-- What a sum is made of. -/
theorem of_add_eq_ok (h : a.add b = .ok c) :
    ConicForm.mergeOwners a.owner b.owner = .ok c.owner ∧
      a.shape.elementwise b.shape = some c.shape ∧
      c.linear = (a.broadcast c.size).linear.add (b.broadcast c.size).linear ∧
      c.constant = List.zipWith (· + ·) (a.broadcast c.size).constant
        (b.broadcast c.size).constant := by
  obtain ⟨o, ho, h⟩ := exists_of_bind_eq_ok h
  split at h
  · cases h
  · next shape hs =>
    cases h
    exact ⟨ho, hs, rfl, rfl⟩

/-- Expressions whose owners and shapes combine have a sum. -/
theorem exists_add_of_owner {o : Option ModelId} {s : Shape}
    (ho : ConicForm.mergeOwners a.owner b.owner = .ok o)
    (hs : a.shape.elementwise b.shape = some s) :
    ∃ c, a.add b = .ok c ∧ c.owner = o ∧ c.shape = s := by
  unfold add
  simp only [ho, bind, Except.bind]
  split
  · next hnone => simp [hnone] at hs
  · next shape hsome =>
    obtain rfl : shape = s := by simpa [hsome] using hs
    exact ⟨_, rfl, rfl, rfl⟩

/-- Expressions of one model whose shapes combine have a sum. -/
theorem exists_add {s : Shape} (ha : a.Within id n) (hb : b.Within id n)
    (hs : a.shape.elementwise b.shape = some s) : ∃ c, a.add b = .ok c ∧ c.shape = s := by
  obtain ⟨c, hc, -, hcs⟩ := exists_add_of_owner (ha.mergeOwners hb) hs
  exact ⟨c, hc, hcs⟩

@[simp] theorem ncols_broadcast (m : Nat) : (a.broadcast m).linear.ncols = a.linear.ncols := by
  unfold broadcast
  split <;> rfl

theorem Within.add (ha : a.Within id n) (hb : b.Within id n) (h : a.add b = .ok c) :
    c.Within id n := by
  obtain ⟨ho, -, hl, -⟩ := of_add_eq_ok h
  refine ⟨fun o hc => ?_, ?_⟩
  · rw [ha.mergeOwners hb, Except.ok.injEq] at ho
    rw [← ho, Option.mem_def, Option.or_eq_some_iff] at hc
    rcases hc with hc | ⟨-, hc⟩
    · exact ha.owner o hc
    · exact hb.owner o hc
  · rw [hl, SparseMatrix.ncols_add, ncols_broadcast, ncols_broadcast]
    exact max_le ha.ncols hb.ncols

theorem Within.scale (ha : a.Within id n) (x : α) : (a.scale x).Within id n :=
  ⟨ha.owner, ha.ncols⟩

theorem Within.neg (ha : a.Within id n) : a.neg.Within id n := ha.scale _

/-- Expressions of one model whose shapes combine have a difference within the model. -/
theorem Within.exists_sub {s : Shape} (ha : a.Within id n) (hb : b.Within id n)
    (hs : a.shape.elementwise b.shape = some s) :
    ∃ c, a.sub b = .ok c ∧ c.shape = s ∧ c.Within id n := by
  obtain ⟨c, hc, hcs⟩ := exists_add ha hb.neg hs
  exact ⟨c, hc, hcs, ha.add hb.neg hc⟩

theorem Within.offset (ha : a.Within id n) (x : α) : (a.offset x).Within id n :=
  ⟨ha.owner, ha.ncols⟩

theorem Within.sum (ha : a.Within id n) : a.sum.Within id n := ⟨ha.owner, ha.ncols⟩

theorem Within.pick (ha : a.Within id n) (indices : List Nat) : (a.pick indices).Within id n :=
  ⟨ha.owner, ha.ncols⟩

theorem Within.reshape (ha : a.Within id n) (s : Shape) (h : s.size = a.size) :
    (a.reshape s h).Within id n :=
  ⟨ha.owner, ha.ncols⟩

theorem Within.broadcast (ha : a.Within id n) (m : Nat) : (a.broadcast m).Within id n :=
  ⟨by rw [owner_broadcast]; exact ha.owner, by rw [ncols_broadcast]; exact ha.ncols⟩

/-- A constant lies within every model. -/
theorem within_of_constant (ho : a.owner = none) (hc : a.linear.ncols = 0) : a.Within id n :=
  ⟨by simp [ho], by simp [hc]⟩

theorem within_number (x : α) : (number x).Within id n := within_of_constant rfl rfl

theorem within_zeros (s : Shape) : (zeros s : Affine α).Within id n := within_of_constant rfl rfl

theorem within_ofBlock {b : Block} (ho : b.owner = id) (hn : b.stop ≤ n) :
    (ofBlock b : Affine α).Within id n :=
  ⟨fun _ h => (Option.some.inj h).symm.trans ho, hn⟩

/-- A selection is as wide as the largest of its columns needs. -/
theorem max?_columns_eq_ncols (s : Selection) :
    (0 :: s.columns.map (· + 1)).max? = some (ofSelection s : Affine α).linear.ncols :=
  List.max?_cons'

@[simp] theorem size_ofBlock (b : Block) : (ofBlock b : Affine α).size = b.size := rfl

@[simp] theorem size_scale (x : α) : (a.scale x).size = a.size := rfl

@[simp] theorem size_neg : a.neg.size = a.size := rfl

@[simp] theorem size_offset (x : α) : (a.offset x).size = a.size := rfl

@[simp] theorem size_sum : a.sum.size = 1 := rfl

@[simp] theorem size_number (x : α) : (number x).size = 1 := rfl

end Within

/-! ## Values -/

variable {K : Type} [Field K] [LinearOrder K]

/-- The value of an element at an assignment of the columns. -/
def value (a : Affine K) (x : Nat → K) (i : Nat) : K :=
  a.linear.rowValue x i + a.constant.getD i 0

/-- The value at a position, where a single element stands for all positions. -/
def spread (a : Affine K) (x : Nat → K) (i : Nat) : K := a.value x (if a.size = 1 then 0 else i)

section Value

variable {a b c : Affine K} {x x' : Nat → K} {i : Nat}

theorem spread_of_lt (h : i < a.size) : a.spread x i = a.value x i := by
  unfold spread
  split
  · next h₁ => rw [show i = 0 by omega]
  · rfl

theorem spread_of_size_eq_one (h : a.size = 1) : a.spread x i = a.value x 0 := by
  simp [spread, h]

/-- An expression takes its value from the columns that it mentions. -/
theorem value_congr (h : ∀ j < a.linear.ncols, x j = x' j) (i : Nat) :
    a.value x i = a.value x' i := by
  rw [value, value, SparseMatrix.rowValue_congr h]

theorem Within.value_congr {id : ModelId} {n : Nat} (ha : a.Within id n)
    (h : ∀ j < n, x j = x' j) (i : Nat) : a.value x i = a.value x' i :=
  Affine.value_congr (fun j hj => h j (hj.trans_le ha.ncols)) i

/-- A column behind those of a model has no influence. -/
theorem Within.value_single {id : ModelId} {n j : Nat} (ha : a.Within id n) (hj : n ≤ j) (y : K)
    (i : Nat) : a.value (Pi.single j y) i = a.value 0 i := by
  refine ha.value_congr (fun k hk => ?_) i
  rw [Pi.zero_apply, Pi.single_eq_of_ne (hk.trans_le hj).ne]

theorem value_ofColumns {owner : ModelId} {columns : List Nat} {width : Nat}
    (hw : ∀ j ∈ columns, j < width) (hi : i < columns.length) :
    (ofColumns owner columns width : Affine K).value x i = x columns[i] := by
  have hrow : (ofColumns owner columns width : Affine K).linear.rowValue x i = x columns[i] := by
    show weightedSum _ (SparseMatrix.ofTriplets _ _ _).entries = _
    rw [SparseMatrix.weightedSum_ofTriplets_of_inRange, weightedSum, List.map_map]
    · show (columns.zipIdx.map fun q => (1 : K) * if q.2 = i then x q.1 else 0).sum = _
      rw [sum_map_zipIdx (fun j k => (1 : K) * if k = i then x j else 0) columns 0]
      simp only [one_mul]
      rw [Finset.sum_ite_eq', if_pos (Finset.mem_range.mpr hi), List.getD_eq_getElem _ _ hi]
    · intro e he
      obtain ⟨⟨j, k⟩, hjk, rfl⟩ := List.mem_map.mp he
      exact ⟨by simpa using List.snd_lt_of_mem_zipIdx hjk, hw j (List.fst_mem_of_mem_zipIdx hjk)⟩
  have hconst : (ofColumns owner columns width : Affine K).constant.getD i 0 = 0 := by
    show (List.replicate columns.length 0).getD i 0 = (0 : K)
    rw [List.getD_replicate _ hi]
  rw [value, hrow, hconst, add_zero]

theorem value_ofBlock {b : Block} (h : i < b.size) :
    (ofBlock b : Affine K).value x i = x (b.first + i) := by
  have hlen : i < b.columns.length := by simpa using h
  have hcolumns : (ofColumns b.owner b.columns b.stop : Affine K).value x i = x b.columns[i] :=
    value_ofColumns (fun j hj => (Block.mem_columns.mp hj).2) hlen
  refine hcolumns.trans ?_
  simp [Block.columns]

theorem value_ofSelection {s : Selection} (h : i < s.columns.length) :
    (ofSelection s : Affine K).value x i = x s.columns[i] := by
  obtain ⟨-, hmax⟩ := List.max?_eq_some_iff.mp (max?_columns_eq_ncols (α := K) s)
  refine value_ofColumns (fun j hj => ?_) h
  exact hmax _ (List.mem_cons_of_mem _ (List.mem_map_of_mem hj))

theorem spread_ofBlock {b : Block} (h : i < b.size) :
    (ofBlock b : Affine K).spread x i = x (b.first + i) := by
  rw [spread_of_lt (by exact h), value_ofBlock h]

@[simp] theorem value_number (y : K) : (number y).value x 0 = y := zero_add y

@[simp] theorem value_scale (y : K) : (a.scale y).value x i = a.value x i * y := by
  have hconst : (a.constant.map (· * y)).getD i 0 = a.constant.getD i 0 * y := by
    rw [List.getD_eq_getElem?_getD, List.getElem?_map, List.getD_eq_getElem?_getD]
    cases a.constant[i]? <;> simp
  show (a.linear.scale y).rowValue x i + (a.constant.map (· * y)).getD i 0 = _
  rw [SparseMatrix.rowValue_scale, hconst, value, add_mul]

@[simp] theorem value_neg : a.neg.value x i = -a.value x i := by
  rw [neg, value_scale, mul_neg_one]

@[simp] theorem spread_neg : a.neg.spread x i = -a.spread x i := value_neg

theorem value_offset (y : K) (h : i < a.size) : (a.offset y).value x i = a.value x i + y := by
  have hlen : i < a.constant.length := a.length_constant.symm ▸ h
  show a.linear.rowValue x i + (a.constant.map (· + y)).getD i 0 = _
  rw [value, add_assoc, List.getD_eq_getElem _ _ hlen,
    List.getD_eq_getElem _ _ (by simpa using hlen), List.getElem_map]

theorem value_sum : a.sum.value x 0 = ∑ i ∈ Finset.range a.size, a.value x i := by
  have hconst : Scalar.sum a.constant = ∑ i ∈ Finset.range a.size, a.constant.getD i 0 := by
    have hlen : a.size = a.constant.length := a.length_constant.symm
    have hsum := sum_map_zipIdx (fun (y : K) _ => y) a.constant 0
    rw [Scalar.sum_eq_sum, hlen, ← hsum]
    simp
  show a.linear.sumRows.rowValue x 0 + Scalar.sum a.constant = _
  rw [SparseMatrix.rowValue_sumRows, a.nrows_linear, hconst]
  exact Finset.sum_add_distrib.symm

theorem value_pick {indices : List Nat} {k : Nat} (hk : k < indices.length) :
    (a.pick indices).value x k = a.value x indices[k] := by
  have hconst : (indices.map fun i => a.constant.getD i 0).getD k 0 =
      a.constant.getD indices[k] 0 := by
    rw [List.getD_eq_getElem _ _ (by simpa using hk), List.getElem_map]
  show (a.linear.selectRows indices).rowValue x k + _ = _
  rw [SparseMatrix.rowValue_selectRows x _ hk]
  exact congrArg _ hconst

/-- A repeated element has its value at all positions. -/
theorem value_repeated {times : Nat} (h : a.size = 1) (hi : i < times) :
    (a.repeated times).value x i = a.value x 0 := by
  have hrows : a.linear.nrows = 1 := a.nrows_linear.trans h
  obtain ⟨y, hy⟩ := List.length_eq_one_iff.mp (a.length_constant.trans h)
  have hconst : ((List.replicate times a.constant).flatten).getD i 0 = a.constant.getD 0 0 := by
    rw [hy, List.flatten_replicate_singleton, List.getD_replicate _ hi]
    rfl
  show (a.linear.repeatRows times).rowValue x i + _ = _
  rw [SparseMatrix.rowValue_repeatRows x _ (by rwa [hrows, one_mul]), hrows, Nat.mod_one]
  exact congrArg _ hconst

theorem value_broadcast {n : Nat} (hn : a.size = n ∨ a.size = 1) (h : i < n) :
    (a.broadcast n).value x i = a.spread x i := by
  unfold broadcast
  split
  · next hsize => rw [spread_of_lt (hsize.symm ▸ h)]
  · next hsize =>
    have hone := hn.resolve_left hsize
    rw [value_repeated hone h, spread_of_size_eq_one hone]

theorem value_add (h : a.add b = .ok c) (hi : i < c.size) :
    c.value x i = a.spread x i + b.spread x i := by
  obtain ⟨-, hs, hl, hc⟩ := of_add_eq_ok h
  obtain ⟨hsa, hsb⟩ := Shape.size_of_elementwise hs
  have hna : (a.broadcast c.size).size = c.size := size_broadcast hsa
  have hnb : (b.broadcast c.size).size = c.size := size_broadcast hsb
  have hla : i < (a.broadcast c.size).constant.length := by
    rw [length_constant]
    exact hi.trans_eq hna.symm
  have hlb : i < (b.broadcast c.size).constant.length := by
    rw [length_constant]
    exact hi.trans_eq hnb.symm
  have hconst : c.constant.getD i 0 =
      (a.broadcast c.size).constant.getD i 0 + (b.broadcast c.size).constant.getD i 0 := by
    rw [hc, List.getD_eq_getElem _ _ (by simp [hla, hlb]), List.getElem_zipWith,
      List.getD_eq_getElem _ _ hla, List.getD_eq_getElem _ _ hlb]
  have hrows : (a.broadcast c.size).linear.nrows = (b.broadcast c.size).linear.nrows := by
    rw [nrows_linear, nrows_linear]
    exact hna.trans hnb.symm
  have hvalue : c.value x i = (a.broadcast c.size).value x i + (b.broadcast c.size).value x i := by
    rw [value, value, value, hconst, hl, SparseMatrix.rowValue_add x hrows]
    ring
  exact hvalue.trans (congrArg₂ (· + ·) (value_broadcast hsa hi) (value_broadcast hsb hi))

theorem value_sub (h : a.sub b = .ok c) (hi : i < c.size) :
    c.value x i = a.spread x i - b.spread x i := by
  rw [value_add h hi, spread_neg, sub_eq_add_neg]

/-- What a product is made of. -/
theorem of_leftMul_eq_ok {α : Type} [Scalar α] {a c : Affine α} {m : DenseMatrix α}
    (h : a.leftMul m = .ok c) :
    a.shape.leftProduct m.nrows m.ncols = some c.shape ∧ c.owner = a.owner ∧
      c.linear = .leftMul m a.linear a.shape.cols ∧
      c.constant = (m.mul (.ofValues a.shape.rows a.shape.cols a.constant)).toList := by
  unfold leftMul at h
  split at h
  · cases h
  · next shape hs =>
    cases h
    exact ⟨hs, rfl, rfl, rfl⟩

/-- The elements of a product are those of the matrix product with the block that the elements of
the right factor list row by row. -/
theorem value_leftMul {m : DenseMatrix K} (h : a.leftMul m = .ok c) (hi : i < c.size) :
    c.value x i = ∑ k ∈ Finset.range m.ncols,
      m.get (i / a.shape.cols) k * a.value x (k * a.shape.cols + i % a.shape.cols) := by
  obtain ⟨hs, -, hl, hc⟩ := of_leftMul_eq_ok h
  obtain ⟨-, hrows, -⟩ := Shape.leftProduct_eq_some_iff.mp hs
  have hlt : i < m.nrows * a.shape.cols := hi.trans_eq (Shape.size_of_leftProduct hs)
  have hmod : i % a.shape.cols < a.shape.cols :=
    Nat.mod_lt _ (Nat.pos_of_mul_pos_left (Nat.zero_lt_of_lt hlt))
  have hnrows : a.linear.nrows = m.ncols * a.shape.cols := by
    rw [a.nrows_linear, Shape.size, hrows]
  rw [value, hl, hc, SparseMatrix.rowValue_leftMul x m hnrows hlt,
    DenseMatrix.getD_toList_mul _ _ hlt, ← Finset.sum_add_distrib]
  refine Finset.sum_congr rfl fun k hk => ?_
  have hk : k < a.shape.rows := hrows.symm ▸ Finset.mem_range.mp hk
  show _ + m.get _ k * DenseMatrix.get _ k (i % a.shape.cols) = _
  rw [DenseMatrix.ofValues, DenseMatrix.get_ofFn hk hmod, value, mul_add]
  rfl

end Value

end Affine

end ConicForm
