import LazySession.Cache
import LazySession.Proofs.Table
import Mathlib.Data.Finmap

/-!
# A cache in parts

`Cache.Parts` keeps the values, the order of their keys and the counters apart and changes them one after
the other: a new key is put behind the others, its value is stored, and then the oldest keys are taken
away one by one, each from the order and from the values. Before a value is computed it is looked for
twice. `Cache.Parts.Mirrors` says that the parts fit together and are those of a `Cache`; every call
keeps it (`Cache.Parts.Mirrors.answer`).
-/

namespace LazySession

namespace Table

variable {α : Type}

theorem get?_drop {t : Table α} (hn : t.names.Nodup) (n : Nat) (x : String) :
    Table.get? (t.drop n) x = if x ∈ t.names.take n then none else t.get? x := by
  induction n generalizing t with
  | zero => simp
  | succ n ih =>
    cases t with
    | nil => simp [names]
    | cons p t =>
      obtain ⟨y, a⟩ := p
      obtain ⟨hy, hn⟩ := List.nodup_cons.mp (show (y :: Table.names t).Nodup from hn)
      rw [List.drop_succ_cons, ih hn]
      change _ = if x ∈ y :: (Table.names t).take n then _ else _
      by_cases hx : y = x
      · subst hx
        rw [if_pos List.mem_cons_self, if_neg fun h => hy (List.mem_of_mem_take h)]
        exact get?_eq_none.mpr hy
      · simp [get?, hx, Ne.symm hx]

end Table

namespace Cache

variable {ε α : Type}

structure Parts (α : Type) where
  data : Finmap fun _ : String => α
  /-- Oldest first. -/
  order : List String
  /-- How many entries are kept; 0 means all of them. -/
  capacity : Nat
  enabled : Bool
  hits : Nat
  misses : Nat

namespace Parts

def ofCapacity (capacity : Int) : Parts α :=
  { data := ∅, order := [], capacity := capacity.toNat, enabled := true, hits := 0, misses := 0 }

def disabled : Parts α :=
  { data := ∅, order := [], capacity := 0, enabled := false, hits := 0, misses := 0 }

def size (s : Parts α) : Nat := s.data.keys.card

def get? (s : Parts α) (key : String) : Option α :=
  if s.enabled then s.data.lookup key else none

/-- Takes the oldest keys away until there are no more than `n`. -/
def evict (n : Nat) (data : Finmap fun _ : String => α) :
    List String → (Finmap fun _ : String => α) × List String
  | [] => (data, [])
  | key :: order =>
    if n < (key :: order).length then evict n (data.erase key) order else (data, key :: order)

/-- Puts a new key behind the others, and stores the value. -/
def insert (s : Parts α) (key : String) (a : α) : Parts α :=
  { s with
    order := if key ∈ s.data then s.order else s.order ++ [key]
    data := s.data.insert key a }

def trim (s : Parts α) : Parts α :=
  if 0 < s.capacity then
    let (data, order) := evict s.capacity s.data s.order
    { s with data, order }
  else s

def set (s : Parts α) (key : String) (a : α) : Parts α :=
  if s.enabled then (s.insert key a).trim else s

/-- Computes a value that was not there. It may have come in since it was looked for. -/
def fill (s : Parts α) (key : String) (compute : Unit → Except ε α) : Except ε α × Bool × Parts α :=
  match s.get? key with
  | some a => (.ok a, false, s)
  | none =>
    let s := { s with misses := s.misses + 1 }
    match compute () with
    | .ok a => (.ok a, true, s.set key a)
    | .error e => (.error e, true, s)

/-- The value of a key, whether it was computed, and the parts afterwards. -/
def find (s : Parts α) (key : String) (compute : Unit → Except ε α) : Except ε α × Bool × Parts α :=
  match s.get? key with
  | some a => (.ok a, false, { s with hits := s.hits + 1 })
  | none => s.fill key compute

end Parts

/-! ## Calls -/

/-- A call of a cache. Of a computation, only what it comes to is of interest. -/
inductive Call (ε α : Type)
  | get (key : String)
  | set (key : String) (a : α)
  | find (key : String) (outcome : Except ε α)

/-- What a call gives back. -/
inductive Answer (ε α : Type)
  | value (a : Option α)
  | stored
  | found (result : Except ε α) (computed : Bool)
deriving DecidableEq

/-- All calls one after the other. -/
def run {σ : Type} (step : σ → Call ε α → Answer ε α × σ) (s : σ) :
    List (Call ε α) → List (Answer ε α) × σ
  | [] => ([], s)
  | call :: calls =>
    let (a, s) := step s call
    let (answers, s) := run step s calls
    (a :: answers, s)

def answer (c : Cache α) : Call ε α → Answer ε α × Cache α
  | .get key => (.value (c.get? key), c)
  | .set key a => (.stored, c.set key a)
  | .find key outcome =>
    let f := c.find key fun _ => outcome
    (.found f.result f.computed, f.cache)

def Parts.answer (s : Parts α) : Call ε α → Answer ε α × Parts α
  | .get key => (.value (s.get? key), s)
  | .set key a => (.stored, s.set key a)
  | .find key outcome =>
    let (result, computed, s) := s.find key fun _ => outcome
    (.found result computed, s)

namespace Parts

/-! ## Taking keys away -/

theorem evict_order (n : Nat) (data : Finmap fun _ : String => α) (order : List String) :
    (evict n data order).2 = order.drop (order.length - n) := by
  induction order generalizing data with
  | nil => simp [evict]
  | cons key order ih =>
    unfold evict
    split
    · rename_i hn
      rw [List.length_cons] at hn
      rw [ih, List.length_cons, Nat.succ_sub (by omega), List.drop_succ_cons]
    · rename_i hn
      rw [Nat.sub_eq_zero_of_le (by omega), List.drop_zero]

theorem lookup_evict (n : Nat) (data : Finmap fun _ : String => α) (order : List String) (x : String) :
    (evict n data order).1.lookup x =
      if x ∈ order.take (order.length - n) then none else data.lookup x := by
  induction order generalizing data with
  | nil => simp [evict]
  | cons key order ih =>
    unfold evict
    split
    · rename_i hn
      rw [List.length_cons] at hn
      rw [ih, List.length_cons, Nat.succ_sub (by omega), List.take_succ_cons]
      by_cases hx : x = key
      · rw [hx, Finmap.lookup_erase, if_pos List.mem_cons_self, ite_self]
      · simp only [List.mem_cons, hx, false_or, Finmap.lookup_erase_ne hx]
    · rename_i hn
      rw [Nat.sub_eq_zero_of_le (Nat.le_of_not_lt hn), List.take_zero, if_neg List.not_mem_nil]

/-! ## The cache of the parts -/

/-- The parts fit together: they have the entries of the cache, in its order, and its counters. -/
structure Mirrors (s : Parts α) (c : Cache α) : Prop where
  nodup : s.order.Nodup
  names : c.entries.names = s.order
  value : ∀ key, c.entries.get? key = s.data.lookup key
  capacity : c.capacity = if 0 < s.capacity then some s.capacity else none
  enabled : c.enabled = s.enabled
  hits : c.hits = s.hits
  misses : c.misses = s.misses

namespace Mirrors

variable {s : Parts α} {c : Cache α}

theorem mem_order (m : s.Mirrors c) (key : String) : key ∈ s.order ↔ key ∈ s.data := by
  rw [← m.names, ← Table.get?_isSome, m.value, Finmap.lookup_isSome]

theorem size (m : s.Mirrors c) : c.size = s.size := by
  have hkeys : s.data.keys = s.order.toFinset := by
    ext key
    rw [Finmap.mem_keys, List.mem_toFinset, m.mem_order]
  rw [Parts.size, hkeys, List.toFinset_card_of_nodup m.nodup, ← m.names, Table.names, List.length_map,
    Cache.size]

theorem get? (m : s.Mirrors c) (key : String) : c.get? key = s.get? key := by
  unfold Cache.get? Parts.get?
  rw [m.enabled, m.value]

theorem insert (m : s.Mirrors c) (key : String) (a : α) :
    (s.insert key a).Mirrors { c with entries := c.entries.put key a } where
  nodup := by
    have hn := Table.nodup_put (m.names ▸ m.nodup) key a
    simpa only [Table.names_put, m.names, m.mem_order, Parts.insert] using hn
  names := by simp only [Table.names_put, m.names, m.mem_order, Parts.insert]
  value x := by
    rw [Table.get?_put, m.value, Parts.insert]
    by_cases hx : x = key
    · rw [hx, Finmap.lookup_insert, if_pos rfl]
    · rw [Finmap.lookup_insert_of_ne _ hx, if_neg (Ne.symm hx)]
  capacity := m.capacity
  enabled := m.enabled
  hits := m.hits
  misses := m.misses

theorem trim (m : s.Mirrors c) :
    s.trim.Mirrors { c with entries := match c.capacity with
      | none => c.entries
      | some n => c.entries.drop (c.entries.length - n) } := by
  have hlen : c.entries.length = s.order.length := by rw [← m.names, Table.names, List.length_map]
  unfold Parts.trim
  split
  · rename_i hpos
    have hcap := m.capacity
    rw [if_pos hpos] at hcap
    simp only [hcap, hlen]
    exact
      { m with
        nodup := by
          rw [evict_order]
          exact m.nodup.sublist (List.drop_sublist _ _)
        names := by
          rw [evict_order, ← m.names]
          exact List.map_drop
        value := fun x => by
          rw [Table.get?_drop (m.names ▸ m.nodup), lookup_evict, m.names, m.value]
        capacity := m.capacity ▸ hcap.symm }
  · rename_i hpos
    have hcap := m.capacity
    rw [if_neg hpos] at hcap
    simp only [hcap]
    exact { m with capacity := m.capacity ▸ hcap.symm }

theorem set (m : s.Mirrors c) (key : String) (a : α) : (s.set key a).Mirrors (c.set key a) := by
  unfold Parts.set Cache.set
  by_cases he : s.enabled = true
  · rw [if_pos he, if_pos (m.enabled.trans he)]
    exact (m.insert key a).trim
  · rw [if_neg he, if_neg (m.enabled ▸ he)]
    exact m

theorem answer (m : s.Mirrors c) (call : Call ε α) :
    (s.answer call).1 = (c.answer call).1 ∧ (s.answer call).2.Mirrors (c.answer call).2 := by
  cases call with
  | get key => exact ⟨congrArg Answer.value (m.get? key).symm, m⟩
  | set key a => exact ⟨rfl, m.set key a⟩
  | find key outcome =>
    have hmiss : Mirrors { s with misses := s.misses + 1 } { c with misses := c.misses + 1 } :=
      { m with misses := by rw [m.misses] }
    unfold Cache.answer Parts.answer Cache.find Parts.find Parts.fill
    simp only [m.get?]
    cases hg : s.get? key with
    | some a => exact ⟨rfl, { m with hits := by simp only [m.hits] }⟩
    | none =>
      cases outcome with
      | error e => exact ⟨rfl, hmiss⟩
      | ok a => exact ⟨rfl, hmiss.set key a⟩

theorem run (m : s.Mirrors c) (calls : List (Call ε α)) :
    (Cache.run Parts.answer s calls).1 = (Cache.run Cache.answer c calls).1 ∧
      (Cache.run Parts.answer s calls).2.Mirrors (Cache.run Cache.answer c calls).2 := by
  induction calls generalizing s c with
  | nil => exact ⟨rfl, m⟩
  | cons call calls ih =>
    obtain ⟨ha, hm⟩ := m.answer call
    obtain ⟨hanswers, hm⟩ := ih hm
    exact ⟨congrArg₂ List.cons ha hanswers, hm⟩

end Mirrors

end Parts

end Cache

end LazySession
