import LazySession.Table

/-!
# A cache that forgets the oldest entry

The entries stand in the order in which their keys came in. A key that is set again keeps its
place; one that was forgotten comes in as the newest.
-/

namespace LazySession

structure Cache (α : Type) where
  /-- Oldest first. -/
  entries : Table α
  /-- How many entries are kept; none means all of them. -/
  capacity : Option Nat
  /-- A cache that is turned off keeps nothing. -/
  enabled : Bool
  hits : Nat
  misses : Nat
deriving Repr

namespace Cache

variable {α : Type}

/-- A cache of the given capacity, which is unbounded unless positive. -/
def ofCapacity (capacity : Int) : Cache α :=
  { entries := [], capacity := if capacity ≤ 0 then none else some capacity.toNat, enabled := true,
    hits := 0, misses := 0 }

def disabled : Cache α :=
  { entries := [], capacity := none, enabled := false, hits := 0, misses := 0 }

def size (c : Cache α) : Nat := c.entries.length

def get? (c : Cache α) (key : String) : Option α :=
  if c.enabled then c.entries.get? key else none

/-- Stores a value and forgets the oldest entries beyond the capacity. -/
def set (c : Cache α) (key : String) (a : α) : Cache α :=
  if c.enabled then
    let entries := c.entries.put key a
    { c with entries := match c.capacity with
      | none => entries
      | some n => entries.drop (entries.length - n) }
  else c

/-- What a look-up with a way to compute the value comes to. -/
structure Found (ε α : Type) where
  result : Except ε α
  /-- Whether the value was computed. -/
  computed : Bool
  cache : Cache α

/-- The value of a key, computed and stored if it is not there. A failure is not stored. -/
def find {ε : Type} (c : Cache α) (key : String) (compute : Unit → Except ε α) : Found ε α :=
  match c.get? key with
  | some a => { result := .ok a, computed := false, cache := { c with hits := c.hits + 1 } }
  | none =>
    let c := { c with misses := c.misses + 1 }
    match compute () with
    | .ok a => { result := .ok a, computed := true, cache := c.set key a }
    | .error e => { result := .error e, computed := true, cache := c }

/-- Like `find`, with a computation that cannot fail. -/
def memo (c : Cache α) (key : String) (compute : Unit → α) : α × Cache α :=
  let f : Found Empty α := c.find key fun u => .ok (compute u)
  match f.result with
  | .ok a => (a, f.cache)

end Cache

end LazySession
