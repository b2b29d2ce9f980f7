/-!
# Caches

A cache holds a derived value until the model changes. A handle names the value that was
stored, not only its content: two handles are the same when no value was stored between
them.

## Main definitions

* `Handle`: a stored value with the number of its storing
* `Cache`: the value stored last, if it is still valid
* `Cache.serve`: the cached value, or a new one that is then cached
-/

namespace ConicForm

variable {τ : Type}

/-- A value that a cache has stored. -/
structure Handle (τ : Type) where
  /-- How many values the cache had stored with this one. -/
  edition : Nat
  value : τ

/-- Whether two handles of one cache name the same stored value. -/
def Handle.same (h k : Handle τ) : Bool := h.edition == k.edition

/-- The value stored last, as long as it is valid. -/
structure Cache (τ : Type) where
  /-- How many values have been stored so far. -/
  edition : Nat
  value? : Option τ

namespace Cache

/-- A cache that has stored nothing. -/
def empty : Cache τ := ⟨0, none⟩

/-- The valid value. -/
def get? (c : Cache τ) : Option (Handle τ) := c.value?.map (⟨c.edition, ·⟩)

/-- Whether the cache has a valid value. -/
def isValid (c : Cache τ) : Bool := c.value?.isSome

/-- The cache without its value. -/
def invalidate (c : Cache τ) : Cache τ := { c with value? := none }

/-- Stores a value. -/
def set (c : Cache τ) (x : τ) : Handle τ × Cache τ := (⟨c.edition + 1, x⟩, ⟨c.edition + 1, some x⟩)

/-- The valid value, or the one built, which is then stored. Nothing changes if there is
none to build. -/
def serve {ε : Type} (c : Cache τ) (build : Unit → Except ε τ) :
    Except ε (Handle τ) × Cache τ :=
  match c.get? with
  | some h => (.ok h, c)
  | none =>
    match build () with
    | .error e => (.error e, c)
    | .ok x => let (h, c) := c.set x; (.ok h, c)

end Cache

end ConicForm
