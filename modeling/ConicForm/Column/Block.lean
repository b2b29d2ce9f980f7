import ConicForm.Error

/-!
# Blocks of columns

The columns of a model are declared in blocks of consecutive columns, each with a shape
and a type. A selection picks elements of a block, in any order and with repetitions.

## Main definitions

* `ModelId`: the owner of columns
* `mergeOwners`: the owner of a combination of expressions
* `Block`, `Selection`: declared columns and references to their elements

## Main results

* `mergeOwners_eq_ok_iff`: two owners merge when they do not differ
* `Selection.mem_block_of_mem_columns`: a selection stays within its block
-/

namespace ConicForm

/-- The identity of a model. Models declared independently have different identities. -/
structure ModelId where
  number : Nat
  deriving DecidableEq, Repr

/-- The owner of a combination. Constants have no owner and adopt that of the other
operand; two different owners do not combine. -/
def mergeOwners : Option ModelId → Option ModelId → Except Error (Option ModelId)
  | some a, some b => if a = b then .ok (some a) else .error .ownership
  | some a, none => .ok (some a)
  | none, b => .ok b

theorem mergeOwners_eq_ok_iff {a b c : Option ModelId} :
    mergeOwners a b = .ok c ↔ (∀ x ∈ a, ∀ y ∈ b, x = y) ∧ c = a.or b := by
  cases a <;> cases b <;> simp [mergeOwners, eq_comm]
  split <;> simp_all

/-- A merge fails only for the reason of ownership. -/
theorem mergeOwners_eq_error {a b : Option ModelId} {e : Error}
    (h : mergeOwners a b = .error e) : e = .ownership := by
  unfold mergeOwners at h
  split at h
  · split at h <;> cases h
    rfl
  · cases h
  · cases h

/-- Consecutive columns of a model. -/
structure Block where
  owner : ModelId
  /-- The first column. -/
  first : Nat
  shape : Shape
  type : VariableType
  name : Option String
  deriving DecidableEq, Repr

namespace Block

/-- The number of columns. -/
def size (b : Block) : Nat := b.shape.size

/-- The column after the last one. -/
def stop (b : Block) : Nat := b.first + b.size

/-- The columns in order. -/
def columns (b : Block) : List Nat := List.range' b.first b.size

@[simp] theorem length_columns (b : Block) : b.columns.length = b.size := List.length_range'

@[simp] theorem mem_columns {b : Block} {j : Nat} : j ∈ b.columns ↔ b.first ≤ j ∧ j < b.stop := by
  simp [columns, stop, List.mem_range'_1]

/-- The number of columns of several blocks. -/
def totalSize : List Block → Nat
  | [] => 0
  | b :: bs => b.size + totalSize bs

@[simp] theorem totalSize_nil : totalSize [] = 0 := rfl

@[simp] theorem totalSize_cons (b : Block) (bs : List Block) :
    totalSize (b :: bs) = b.size + totalSize bs := rfl

@[simp] theorem totalSize_append (bs cs : List Block) :
    totalSize (bs ++ cs) = totalSize bs + totalSize cs := by
  induction bs with
  | nil => simp
  | cons b bs ih => simp only [List.cons_append, totalSize_cons, ih, Nat.add_assoc]

/-- The types of the columns of several blocks. -/
def types (bs : List Block) : List VariableType := bs.flatMap fun b => List.replicate b.size b.type

@[simp] theorem types_cons (b : Block) (bs : List Block) :
    types (b :: bs) = List.replicate b.size b.type ++ types bs := rfl

theorem mem_types_imp {bs : List Block} {t : VariableType} (h : t ∈ types bs) :
    ∃ b ∈ bs, t = b.type := by
  obtain ⟨b, hb, ht⟩ := List.mem_flatMap.mp h
  exact ⟨b, hb, List.eq_of_mem_replicate ht⟩

@[simp] theorem types_append (bs cs : List Block) : types (bs ++ cs) = types bs ++ types cs :=
  List.flatMap_append

@[simp] theorem length_types (bs : List Block) : (types bs).length = totalSize bs := by
  induction bs with
  | nil => rfl
  | cons b bs ih => simp [ih]

end Block

/-- Elements of a block, in a given order. -/
structure Selection where
  block : Block
  /-- The positions of the elements within the block. -/
  indices : List Nat
  lt_size : ∀ i ∈ indices, i < block.size
  deriving DecidableEq

namespace Selection

/-- The columns of the elements. -/
def columns (s : Selection) : List Nat := s.indices.map (s.block.first + ·)

@[simp] theorem length_columns (s : Selection) : s.columns.length = s.indices.length :=
  List.length_map _

theorem mem_block_of_mem_columns {s : Selection} {j : Nat} (h : j ∈ s.columns) :
    j ∈ s.block.columns := by
  obtain ⟨i, hi, rfl⟩ := List.mem_map.mp h
  have := s.lt_size i hi
  simp only [Block.mem_columns, Block.stop]
  omega

end Selection

/-- Reports the first of the indices that is not below `size`. -/
def checkIndices (indices : List Nat) (size : Nat) :
    Except Error (PLift (∀ i ∈ indices, i < size)) :=
  match h : indices.find? fun i => size ≤ i with
  | some i => .error (.indexOutOfRange i size)
  | none => .ok ⟨fun i hi => by simpa using List.find?_eq_none.mp h i hi⟩

namespace Block

/-- The elements at the given positions. -/
def select (b : Block) (indices : List Nat) : Except Error Selection := do
  let ⟨h⟩ ← checkIndices indices b.size
  return ⟨b, indices, h⟩

/-- The element at a position. -/
def get (b : Block) (index : Nat) : Except Error Selection := b.select [index]

/-- All elements in order. -/
def all (b : Block) : Selection := ⟨b, List.range b.size, fun _ h => List.mem_range.mp h⟩

end Block

end ConicForm
