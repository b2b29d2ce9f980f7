import ConicForm.Proofs.Canonical.Insertion

/-!
# What pieces demand of a canonical program

How many rows and auxiliary columns a piece contributes to a canonical program, and which records,
depends on its function and on the number of elements that the function is applied to. Pieces one
after another have their columns one after another, without gaps, and the rows of each are over the
declared columns and its own.

## Main definitions

* `Demand`: rows that are there, or a function of some elements
* `Demand.columns`, `Demand.rows`, `Demand.records`: what is demanded
* `Expansion.Meets`, `MeetAll`: expansions that meet a demand, and demands in order

## Main results

* `Piece.Scoped.meets`: the expansion of a piece meets its demand
* `exists_meetAll`: so do those of pieces one after another
-/

namespace ConicForm

/-- What a piece demands of a canonical program: room for rows that are there, or for a function of
`size` elements under its bound. -/
inductive Demand where
  | rows (count : Nat)
  | convex (kind : ConvexKind) (size : Nat)
  deriving DecidableEq, Repr

namespace Demand

/-- The number of auxiliary columns. -/
def columns : Demand → Nat
  | rows _ => 0
  | convex (.piecewise .abs) _ | convex (.piecewise .normInf) _ => 0
  | convex (.piecewise .norm1) n => n
  | convex (.conic .norm2) n => n + 1
  | convex (.conic .square) n => 3 * n
  | convex (.conic .sumSquares) n => n + 2
  | convex .exp _ => 0

/-- The number of rows. -/
def height : Demand → Nat
  | rows count => count
  | convex (.piecewise .abs) n | convex (.piecewise .normInf) n => 2 * n
  | convex (.piecewise .norm1) n => 2 * n + 1
  | convex (.conic .norm2) n => n + 1
  | convex (.conic .square) n => 3 * n
  | convex (.conic .sumSquares) n => n + 2
  | convex .exp _ => 0

/-- The records over auxiliary columns that start at `first`. -/
def records (first : Nat) : Demand → List (List Nat)
  | convex (.conic .norm2) n => [(first + n) :: List.range' first n]
  | convex (.conic .square) n =>
    (List.range n).map fun i => [first + 2 * n + i, first + i, first + n + i]
  | convex (.conic .sumSquares) n => [(first + n + 1) :: first :: List.range' (first + 1) n]
  | _ => []

/-- The lengths of the records. -/
def arities : Demand → List Nat
  | convex (.conic .norm2) n => [n + 1]
  | convex (.conic .square) n => List.replicate n 3
  | convex (.conic .sumSquares) n => [n + 2]
  | _ => []

/-- Whether the demand is that of a function that cones describe. -/
def isConic : Demand → Bool
  | convex (.conic _) _ => true
  | _ => false

theorem map_length_records (first : Nat) (d : Demand) :
    (d.records first).map List.length = d.arities := by
  rcases d with count | ⟨(k | k | _), n⟩
  · rfl
  · rfl
  · cases k <;> simp [records, arities, Function.comp_def]
  · rfl

/-- The columns of a square are those of half sums, of the input and of half differences. -/
example : (convex (.conic .square) 2).records 4 = [[8, 4, 6], [9, 5, 7]] := rfl

/-- The records of demands one after another, whose auxiliary columns start at `next`. -/
def recordsFrom (next : Nat) : List Demand → List (List Nat)
  | [] => []
  | d :: ds => d.records next ++ recordsFrom (next + d.columns) ds

theorem map_length_recordsFrom (next : Nat) (ds : List Demand) :
    (recordsFrom next ds).map List.length = ds.flatMap arities := by
  induction ds generalizing next with
  | nil => rfl
  | cons d ds ih =>
    rw [recordsFrom, List.map_append, map_length_records, ih, List.flatMap_cons]

end Demand

variable {α : Type} [Scalar α]

/-- A constraint demands room for its function. -/
def ConvexConstraint.demand {κ : Type} (kind : κ → ConvexKind) (c : ConvexConstraint κ α) :
    Demand :=
  .convex (kind c.kind) c.input.size

/-- What a piece demands. -/
def Piece.demand : Piece α → Demand
  | rows c => .rows c.length
  | piecewise c => c.demand .piecewise
  | conic c => c.demand .conic

/-! ## Expansions that meet a demand -/

/-- An expansion that contributes what is demanded, over auxiliary columns that start at `next`. -/
structure Expansion.Fills (next : Nat) (d : Demand) (e : Expansion α) : Prop where
  laid : Block.Laid next e.blocks
  width : e.width = d.columns
  height : (e.rows.map (·.length)).sum = d.height
  records : e.records = d.records next

/-- An expansion that contributes what is demanded, with rows over the first `n` columns and its own
ones only. -/
structure Expansion.Meets (n next : Nat) (d : Demand) (e : Expansion α) : Prop
    extends e.Fills next d where
  own : ∀ c ∈ e.rows, ∀ t ∈ c.linear.entries, t.col < n ∨ next ≤ t.col ∧ t.col < next + e.width

/-- Expansions one after another, from column `next` on, that meet demands in order. -/
inductive MeetAll (n : Nat) : Nat → List Demand → List (Expansion α) → Prop
  | nil (next) : MeetAll n next [] []
  | cons {next d e ds es} : e.Meets n next d → MeetAll n (next + d.columns) ds es →
      MeetAll n next (d :: ds) (e :: es)

namespace MeetAll

variable {n next : Nat} {ds : List Demand} {es : List (Expansion α)}

/-- The blocks of expansions one after another are one after another. -/
theorem laid (h : MeetAll n next ds es) : Block.Laid next (es.flatMap (·.blocks)) := by
  induction h with
  | nil => trivial
  | cons hmeets _ ih =>
    rw [List.flatMap_cons]
    refine Block.laid_append.mpr ⟨hmeets.laid, ?_⟩
    rw [← hmeets.width] at ih
    exact ih

theorem totalSize (h : MeetAll n next ds es) :
    Block.totalSize (es.flatMap (·.blocks)) = (ds.map Demand.columns).sum := by
  induction h with
  | nil => rfl
  | cons hmeets _ ih =>
    rw [List.flatMap_cons, Block.totalSize_append, ih, List.map_cons, List.sum_cons, ← hmeets.width]
    rfl

theorem height (h : MeetAll n next ds es) :
    ((es.flatMap (·.rows)).map (·.length)).sum = (ds.map Demand.height).sum := by
  induction h with
  | nil => rfl
  | cons hmeets _ ih =>
    rw [List.flatMap_cons, List.map_append, List.sum_append, ih, hmeets.height, List.map_cons,
      List.sum_cons]

theorem records (h : MeetAll n next ds es) :
    es.flatMap (·.records) = Demand.recordsFrom next ds := by
  induction h with
  | nil => rfl
  | cons hmeets _ ih => rw [List.flatMap_cons, ih, hmeets.records, Demand.recordsFrom]

end MeetAll

/-! ## The rows of a comparison -/

namespace Affine

variable {a b r : Affine α} {c : LinearConstraint α}

/-- A difference keeps the size of an operand that the other one fits. -/
theorem size_of_sub (h : a.sub b = .ok r) (hsize : b.size = a.size ∨ b.size = 1) :
    r.size = a.size := by
  obtain ⟨-, hs, -, -⟩ := of_add_eq_ok h
  have hr : r.size = a.size ∨ r.size = b.size := Shape.size_eq_of_elementwise hs
  have ha : a.size = r.size ∨ a.size = 1 := (Shape.size_of_elementwise hs).1
  omega

theorem length_of_sub_le (h : a.sub b = .ok r) (hc : r.le (.number 0) = .ok c)
    (hsize : b.size = a.size ∨ b.size = 1) : c.length = a.size := by
  rw [LinearConstraint.length, (of_le_zero_eq_ok hc).1, r.nrows_linear]
  exact size_of_sub h hsize

theorem length_of_sub_eq (h : a.sub b = .ok r) (hc : r.eq (.number 0) = .ok c)
    (hsize : b.size = a.size ∨ b.size = 1) : c.length = a.size := by
  rw [LinearConstraint.length, (of_eq_zero_eq_ok hc).1, r.nrows_linear]
  exact size_of_sub h hsize

end Affine

/-! ## The expansions of pieces -/

/-- Rows that are moved behind a gap leave it out. -/
theorem Expansion.Widens.outside {g : Gap} {e e' : Expansion α} (h : e.Widens g e') :
    ∀ c ∈ e'.rows, ∀ t ∈ c.linear.entries, g.Outside t.col :=
  List.forall_mem_map.mp
    (SparseMatrix.Widens.forall_outside (LinearConstraint.forall₂_widens_linear h.rows))

variable {id : ModelId} {n next : Nat} {e : Expansion α}

namespace ConvexConstraint

/-- Two rows for each element. -/
theorem sum_length_pair {k : Nat} {above below : LinearConstraint α} (habove : above.length = k)
    (hbelow : below.length = k) : ([above, below].map (·.length)).sum = 2 * k := by
  show above.length + (below.length + 0) = 2 * k
  omega

theorem fills_expandPiecewise {c : ConvexConstraint PiecewiseKind α}
    (hc : c.Scoped PiecewiseKind.elementwise id n) (h : c.expandPiecewise id next = .ok e) :
    e.Fills next (c.demand .piecewise) := by
  have hsize := hc.size
  unfold demand
  unfold expandPiecewise at h
  cases hk : c.kind
  all_goals
    rw [hk] at h hsize
    obtain ⟨r₁, hr₁, h⟩ := exists_of_bind_eq_ok h
    obtain ⟨above, hc₁, h⟩ := exists_of_bind_eq_ok h
    obtain ⟨r₂, hr₂, h⟩ := exists_of_bind_eq_ok h
    obtain ⟨below, hc₂, h⟩ := exists_of_bind_eq_ok h
  case abs =>
    cases h
    have habove := Affine.length_of_sub_le hr₁ hc₁ (.inl hsize)
    have hbelow := Affine.length_of_sub_le hr₂ hc₂ (.inl hsize)
    exact ⟨trivial, rfl, sum_length_pair habove hbelow, rfl⟩
  case normInf =>
    cases h
    have habove := Affine.length_of_sub_le hr₁ hc₁ (.inr hsize)
    have hbelow := Affine.length_of_sub_le hr₂ hc₂ (.inr hsize)
    exact ⟨trivial, rfl, sum_length_pair habove hbelow, rfl⟩
  case norm1 =>
    obtain ⟨r₃, hr₃, h⟩ := exists_of_bind_eq_ok h
    obtain ⟨total, hc₃, h⟩ := exists_of_bind_eq_ok h
    cases h
    have habove := Affine.length_of_sub_le hr₁ hc₁ (.inl rfl)
    have hbelow := Affine.length_of_sub_le hr₂ hc₂ (.inl rfl)
    have htotal := Affine.length_of_sub_le hr₃ hc₃ (.inr hsize)
    rw [Affine.size_neg] at hbelow
    rw [Affine.size_sum] at htotal
    refine ⟨⟨rfl, trivial⟩, rfl, ?_, rfl⟩
    show above.length + (below.length + (total.length + 0)) = 2 * c.input.size + 1
    omega

/-- The copies of the input and the bound of a norm. -/
theorem fills_expandNorm {input output : Affine α} (hsize : output.size = 1)
    (h : expandNorm id next input output = .ok e) :
    e.Fills next (.convex (.conic .norm2) input.size) := by
  obtain ⟨left, right, r₁, r₂, c₁, c₂, rfl, rfl, ⟨hr₁, hc₁⟩, ⟨hr₂, hc₂⟩, rfl⟩ :=
    of_expandNorm_eq_ok h
  have hleft := Affine.length_of_sub_eq hr₁ hc₁ (.inl rfl)
  have hright := Affine.length_of_sub_eq hr₂ hc₂ (.inl rfl)
  refine ⟨⟨rfl, rfl, trivial⟩, ?_, ?_, rfl⟩
  · show input.size + (output.size + 0) = input.size + 1
    rw [hsize]
  · show c₁.length + (c₂.length + 0) = input.size + 1
    rw [hleft, hright, hsize]

/-- The copies of the input and of half a sum and half a difference. -/
theorem fills_expandSquares {input output : Affine α}
    {records : Block → Block → Block → List (List Nat)} {d : Demand}
    (hcolumns : d.columns = output.size + (input.size + output.size))
    (hheight : d.height = output.size + (input.size + output.size))
    (hrecords : ∀ a₁ a₂ a₃ : Block, a₁.first = next → a₂.first = next + output.size →
      a₃.first = next + output.size + input.size → a₂.size = input.size →
      records a₁ a₂ a₃ = d.records next)
    (h : expandSquares id next input output records = .ok e) : e.Fills next d := by
  obtain ⟨a₁, a₂, a₃, r₁, r₂, r₃, c₁, c₂, c₃, rfl, rfl, rfl, ⟨hr₁, hc₁⟩, ⟨hr₂, hc₂⟩,
    ⟨hr₃, hc₃⟩, rfl⟩ := of_expandSquares_eq_ok h
  have hsum := Affine.length_of_sub_eq hr₁ hc₁ (.inl rfl)
  have hinput := Affine.length_of_sub_eq hr₂ hc₂ (.inl rfl)
  have hdifference := Affine.length_of_sub_eq hr₃ hc₃ (.inl rfl)
  refine ⟨⟨rfl, rfl, rfl, trivial⟩, hcolumns.symm, ?_, hrecords _ _ _ rfl rfl rfl rfl⟩
  show c₁.length + (c₂.length + (c₃.length + 0)) = d.height
  rw [hsum, hinput, hdifference, hheight]
  rfl

theorem fills_expandConic {c : ConvexConstraint ConicKind α}
    (hc : c.Scoped ConicKind.elementwise id n) (h : c.expandConic id next = .ok e) :
    e.Fills next (c.demand .conic) := by
  have hsize := hc.size
  unfold demand
  unfold expandConic at h
  cases hk : c.kind with
  | norm2 =>
    rw [hk] at h hsize
    exact fills_expandNorm hsize h
  | square =>
    rw [hk] at h hsize
    have hout : c.output.size = c.input.size := hsize
    refine fills_expandSquares ?_ ?_ (fun a₁ a₂ a₃ h₁ h₂ h₃ hs => ?_) h
    · rw [hout, Demand.columns]
      omega
    · rw [hout, Demand.height]
      omega
    · rw [elementRecords, h₁, h₂, h₃, hs, hout, Demand.records, Nat.two_mul, Nat.add_assoc next]
  | sumSquares =>
    rw [hk] at h hsize
    have hout : c.output.size = 1 := hsize
    refine fills_expandSquares ?_ ?_ (fun a₁ a₂ a₃ h₁ h₂ h₃ hs => ?_) h
    · rw [hout, Demand.columns]
      omega
    · rw [hout, Demand.height]
      omega
    · rw [jointRecord, Block.columns, h₁, h₂, h₃, hs, hout, Demand.records, Nat.add_right_comm]

end ConvexConstraint

namespace Piece

variable {p : Piece α}

theorem Scoped.fills (hp : p.Scoped id n) (h : p.expand id next = .ok e) :
    e.Fills next p.demand := by
  cases p with
  | rows c =>
    cases h
    exact ⟨trivial, rfl, rfl, rfl⟩
  | piecewise c => exact ConvexConstraint.fills_expandPiecewise hp h
  | conic c => exact ConvexConstraint.fills_expandConic hp h

/-- The rows of a piece over the first `n` columns are over these and its own ones. -/
theorem Scoped.own (hp : p.Scoped id n) (hn : n ≤ next) (h : p.expand id next = .ok e) :
    ∀ c ∈ e.rows, ∀ t ∈ c.linear.entries, t.col < n ∨ next ≤ t.col ∧ t.col < next + e.width := by
  obtain ⟨f, hf, -⟩ := hp.exists_expand
  obtain ⟨e', he', hscoped⟩ := (hp.mono hn).exists_expand
  obtain rfl := Except.ok.inj (he'.symm.trans h)
  obtain ⟨k, rfl⟩ := Nat.exists_eq_add_of_le hn
  have hshifts := hp.shifts_expand (g := ⟨n, k⟩) le_rfl hf h
  intro c hc t ht
  have hlt := (c.linear.in_range t ht).2.trans_le (hscoped.rows c hc)
  have hout := hshifts.outside c hc t ht
  unfold Gap.Outside Gap.stop at hout
  dsimp only at hout
  omega

/-- **The expansion of a piece meets its demand.** -/
theorem Scoped.meets (hp : p.Scoped id n) (hn : n ≤ next) (h : p.expand id next = .ok e) :
    e.Meets n next p.demand :=
  ⟨hp.fills h, hp.own hn h⟩

end Piece

/-- **The expansions of pieces one after another meet their demands in order.** -/
theorem exists_meetAll (hn : n ≤ next) {ps : List (Piece α)} (hps : ∀ p ∈ ps, p.Scoped id n)
    (h : expandAll id next ps = .ok e) : ∃ es, MeetAll n next (ps.map Piece.demand) es ∧
      e.blocks = es.flatMap (·.blocks) ∧ e.rows = es.flatMap (·.rows) ∧
      e.records = es.flatMap (·.records) := by
  -- on the pieces; each one starts where the demand of the one before ends
  induction ps generalizing next e with
  | nil =>
    cases h
    exact ⟨[], .nil next, rfl, rfl, rfl⟩
  | cons p ps ih =>
    obtain ⟨hp, hps⟩ := List.forall_mem_cons.mp hps
    obtain ⟨f, g, hf, hg, rfl⟩ := of_expandAll_cons_eq_ok h
    have hmeets := hp.meets hn hf
    rw [hmeets.width] at hg
    obtain ⟨es, hes, hblocks, hrows, hrecords⟩ := ih (hn.trans (Nat.le_add_right _ _)) hps hg
    refine ⟨f :: es, .cons hmeets hes, ?_, ?_, ?_⟩
    · rw [List.flatMap_cons, ← hblocks]
      rfl
    · rw [List.flatMap_cons, ← hrows]
      rfl
    · rw [List.flatMap_cons, ← hrecords]
      rfl

end ConicForm
