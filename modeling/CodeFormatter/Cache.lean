/-!
# A cache of computed values

A value is computed at most once per key. A key gets its slot before its value is computed, so a
computation that fails leaves an empty slot behind; only filled slots can be seen.
-/

namespace CodeFormatter

/-- Keys with their slots; of two slots of one key the first counts. -/
structure Cache (κ ν : Type) where
  slots : List (κ × Option ν)

namespace Cache

variable {κ ν ε : Type} [BEq κ]

def empty : Cache κ ν := ⟨[]⟩

/-- The slot of a key, filled or not, and none if the key has none. -/
def slot? (c : Cache κ ν) (key : κ) : Option (Option ν) := c.slots.lookup key

/-- Gives a key a new slot in the place of the one it has. -/
def setSlot (c : Cache κ ν) (key : κ) (slot : Option ν) : Cache κ ν :=
  ⟨(key, slot) :: c.slots.filter (fun entry => !(entry.1 == key))⟩

def get? (c : Cache κ ν) (key : κ) : Option ν := (c.slot? key).join

def insert (c : Cache κ ν) (key : κ) (value : ν) : Cache κ ν := c.setSlot key (some value)

/-- The answer for a key, whether it was computed now, and the cache after that. -/
structure Resolved (κ ν ε : Type) where
  answer : Except ε ν
  computed : Bool
  cache : Cache κ ν

/-- The value of a key, computed if its slot is not filled. -/
def resolve (c : Cache κ ν) (key : κ) (compute : Unit → Except ε ν) : Resolved κ ν ε :=
  match c.get? key with
  | some value => ⟨.ok value, false, c⟩
  | none =>
    match compute () with
    | .ok value => ⟨.ok value, true, c.insert key value⟩
    | .error e => ⟨.error e, true, c.setSlot key none⟩

/-- The number of filled slots. -/
def size (c : Cache κ ν) : Nat := c.slots.countP (·.2.isSome)

def isEmpty (c : Cache κ ν) : Bool := c.size == 0

end Cache

end CodeFormatter
