import LazySession.Proofs.Cache.Parts
import Mathlib.Data.List.DropRight

/-!
# First in, first out

What a cache holds can be told from what was stored, without a cache: a key arrives when it is stored and
is not among the newest keys that there is room for, and it is these newest keys that are held, each with
the value stored last (`Cache.Keeps`). Every call keeps this (`Cache.Keeps.answer`), so it is true after
any calls, of the cache and of its parts (`Cache.Making.first_in_first_out`).
-/

namespace LazySession

namespace Cache

variable {ε α : Type}

/-! ## Arrivals -/

/-- The newest keys that there is room for. -/
def newest (room : Option Nat) (keys : List String) : List String :=
  match room with
  | none => keys
  | some n => keys.rtake n

/-- A key that is stored goes behind those that arrived before it, unless there is still room for it
where it is. -/
def arrive (room : Option Nat) (before : List String) (key : String) : List String :=
  if key ∈ newest room before then before else before ++ [key]

/-- The arrivals when these keys are stored one after the other. -/
def arrivals (room : Option Nat) (keys : List String) : List String :=
  keys.foldl (arrive room) []

theorem newest_sublist (room : Option Nat) (keys : List String) : (newest room keys).Sublist keys := by
  cases room with
  | none => exact List.Sublist.refl _
  | some n => exact List.drop_sublist _ _

theorem newest_nil (room : Option Nat) : newest room [] = [] :=
  List.sublist_nil.mp (newest_sublist room [])

theorem newest_newest (room : Option Nat) (keys : List String) :
    newest room (newest room keys) = newest room keys := by
  cases room with
  | none => rfl
  | some n => simp [newest, List.rtake_eq_reverse_take_reverse, List.take_take]

theorem newest_newest_append (room : Option Nat) (keys : List String) (key : String) :
    newest room (newest room keys ++ [key]) = newest room (keys ++ [key]) := by
  cases room with
  | none => rfl
  | some n =>
    cases n with
    | zero => simp [newest]
    | succ n =>
      simp only [newest, List.rtake_concat_succ]
      simp [List.rtake_eq_reverse_take_reverse, List.take_take]

theorem newest_arrive (room : Option Nat) (before : List String) (key : String) :
    newest room (arrive room before key) =
      newest room (if key ∈ newest room before then newest room before
        else newest room before ++ [key]) := by
  unfold arrive
  split
  · exact (newest_newest room before).symm
  · exact (newest_newest_append room before key).symm

theorem arrivals_append (room : Option Nat) (keys : List String) (key : String) :
    arrivals room (keys ++ [key]) = arrive room (arrivals room keys) key := by
  simp [arrivals]

/-! ## Looking for a value -/

section
variable {c : Cache α} {key : String} {compute : Unit → Except ε α}

theorem find_of_some {a : α} (h : c.get? key = some a) :
    c.find key compute = ⟨.ok a, false, { c with hits := c.hits + 1 }⟩ := by
  unfold find
  rw [h]

theorem find_of_error {e : ε} (h : c.get? key = none) (he : compute () = .error e) :
    c.find key compute = ⟨.error e, true, { c with misses := c.misses + 1 }⟩ := by
  unfold find
  rw [h]
  simp only [he]

theorem find_of_ok {a : α} (h : c.get? key = none) (ha : compute () = .ok a) :
    c.find key compute = ⟨.ok a, true, Cache.set { c with misses := c.misses + 1 } key a⟩ := by
  unfold find
  rw [h]
  simp only [ha]

end

theorem answer_find_cases (c : Cache α) (key : String) (outcome : Except ε α) :
    (∃ a, c.get? key = some a ∧
      c.answer (.find key outcome) = (.found (.ok a) false, { c with hits := c.hits + 1 })) ∨
    (∃ e, c.get? key = none ∧ outcome = .error e ∧
      c.answer (.find key outcome) = (.found (.error e) true, { c with misses := c.misses + 1 })) ∨
    ∃ a, c.get? key = none ∧ outcome = .ok a ∧ c.answer (.find key outcome) =
      (.found (.ok a) true, Cache.set { c with misses := c.misses + 1 } key a) := by
  cases hg : c.get? key with
  | some a =>
    refine .inl ⟨a, rfl, ?_⟩
    rw [answer, find_of_some hg]
  | none =>
    cases outcome with
    | error e =>
      refine .inr (.inl ⟨e, rfl, rfl, ?_⟩)
      rw [answer, find_of_error hg (by rfl)]
    | ok a =>
      refine .inr (.inr ⟨a, rfl, rfl, ?_⟩)
      rw [answer, find_of_ok hg (by rfl)]

/-! ## What the calls have stored -/

/-- What a call has stored, going by its answer: what was set, or was computed without a failure. -/
def Call.stores : Call ε α → Answer ε α → Option (String × α)
  | .set key a, _ => some (key, a)
  | .find key _, .found (.ok a) true => some (key, a)
  | _, _ => none

/-- What the calls have stored, one after the other. -/
def stored (calls : List (Call ε α)) (answers : List (Answer ε α)) : List (String × α) :=
  (calls.zip answers).filterMap fun (call, answer) => call.stores answer

def Call.isFind : Call ε α → Bool
  | .find .. => true
  | _ => false

/-- The value that was stored last for a key. -/
def latest (log : List (String × α)) (key : String) : Option α :=
  Table.get? log.reverse key

theorem latest_append (log : List (String × α)) (key : String) (a : α) (x : String) :
    latest (log ++ [(key, a)]) x = if key = x then some a else latest log x := by
  simp [latest, Table.get?]

/-- The cache holds what it has room for of what was stored. A cache that is turned off has room for
nothing. -/
structure Keeps (room : Option Nat) (log : List (String × α)) (c : Cache α) : Prop where
  bound : room = if c.enabled then c.capacity else some 0
  nodup : c.entries.names.Nodup
  names : c.entries.names = newest room (arrivals room (Table.names log))
  value : ∀ key ∈ c.entries.names, c.entries.get? key = latest log key

namespace Keeps

variable {room : Option Nat} {log : List (String × α)} {c : Cache α}

theorem get? (k : Keeps room log c) (key : String) : c.get? key = c.entries.get? key := by
  unfold Cache.get?
  by_cases he : c.enabled = true
  · rw [if_pos he]
  · have hroom := k.bound
    rw [if_neg he] at hroom
    have hnames := k.names
    rw [hroom, newest, List.rtake_zero] at hnames
    rw [if_neg he, eq_comm, Table.get?_eq_none, hnames]
    exact List.not_mem_nil

theorem size_le (k : Keeps room log c) {n : Nat} (hn : room = some n) : c.size ≤ n := by
  have hlen := congrArg List.length k.names
  rw [Table.names, List.length_map, hn, newest, List.rtake, List.length_drop] at hlen
  rw [Cache.size, hlen]
  omega

theorem names_set (k : Keeps room log c) (he : c.enabled = true) (key : String) (a : α) :
    (c.set key a).entries.names = newest room (c.entries.put key a).names := by
  have hroom := k.bound
  rw [if_pos he] at hroom
  rw [Cache.set, if_pos he, hroom]
  cases c.capacity with
  | none => rfl
  | some n =>
    simp only [newest, List.rtake, Table.names, List.length_map]
    exact List.map_drop

theorem get?_set (k : Keeps room log c) (he : c.enabled = true) (key : String) (a : α) {x : String}
    (hx : x ∈ (c.set key a).entries.names) :
    (c.set key a).entries.get? x = (c.entries.put key a).get? x := by
  have hn := Table.nodup_put k.nodup key a
  rw [Cache.set, if_pos he] at hx ⊢
  cases hcap : c.capacity with
  | none => rfl
  | some n =>
    simp only [hcap] at hx ⊢
    rw [Table.get?_drop hn, if_neg]
    refine fun htake => List.disjoint_take_drop hn (Nat.le_refl _) htake ?_
    rwa [Table.names, List.map_drop] at hx

theorem set (k : Keeps room log c) (key : String) (a : α) :
    Keeps room (log ++ [(key, a)]) (c.set key a) := by
  have hlog : Table.names (log ++ [(key, a)]) = Table.names log ++ [key] := List.map_append
  by_cases he : c.enabled = true
  · have hnames := k.names_set he key a
    have hput := Table.names_put c.entries key a
    exact
      { bound := by rw [Cache.set, if_pos he]; exact k.bound
        nodup := by
          rw [hnames]
          exact (Table.nodup_put k.nodup key a).sublist (newest_sublist room _)
        names := by rw [hnames, hput, k.names, hlog, arrivals_append, newest_arrive]
        value := fun x hx => by
          rw [k.get?_set he key a hx, Table.get?_put, latest_append]
          by_cases hkey : key = x
          · rw [if_pos hkey, if_pos hkey]
          · rw [if_neg hkey, if_neg hkey]
            rw [hnames] at hx
            have hold := (newest_sublist room _).subset hx
            rw [hput] at hold
            refine k.value x ?_
            split at hold
            · exact hold
            · exact (List.mem_append.mp hold).resolve_right fun h => hkey (List.mem_singleton.mp h).symm }
  · have hroom := k.bound
    rw [if_neg he] at hroom
    have hnames := k.names
    rw [Cache.set, if_neg he]
    exact
      { k with
        names := by rw [hnames, hroom, newest, newest, List.rtake_zero, List.rtake_zero]
        value := fun x hx => by
          rw [hnames, hroom, newest, List.rtake_zero] at hx
          cases hx }

theorem counted (k : Keeps room log c) (hits misses : Nat) :
    Keeps room log { c with hits, misses } where
  bound := k.bound
  nodup := k.nodup
  names := k.names
  value := k.value

theorem answer (k : Keeps room log c) (call : Call ε α) :
    Keeps room (log ++ (call.stores (c.answer call).1).toList) (c.answer call).2 := by
  cases call with
  | get key => simpa [Cache.answer, Call.stores] using k
  | set key a => simpa [Cache.answer, Call.stores] using k.set key a
  | find key outcome =>
    rcases c.answer_find_cases key outcome with ⟨a, -, h⟩ | ⟨e, -, -, h⟩ | ⟨a, -, -, h⟩
    · rw [h]
      simpa [Call.stores] using k.counted (c.hits + 1) c.misses
    · rw [h]
      simpa [Call.stores] using k.counted c.hits (c.misses + 1)
    · rw [h]
      exact (k.counted c.hits (c.misses + 1)).set key a

theorem run (k : Keeps room log c) (calls : List (Call ε α)) :
    Keeps room (log ++ stored calls (Cache.run Cache.answer c calls).1)
      (Cache.run Cache.answer c calls).2 := by
  induction calls generalizing log c with
  | nil => simpa [stored, Cache.run] using k
  | cons call calls ih =>
    have hrest := ih (k.answer call)
    have hlog : stored (call :: calls) (Cache.run Cache.answer c (call :: calls)).1 =
        (call.stores (c.answer call).1).toList ++
          stored calls (Cache.run Cache.answer (c.answer call).2 calls).1 := by
      simp only [stored, Cache.run, List.zip_cons_cons, List.filterMap_cons]
      cases call.stores (c.answer call).1 <;> rfl
    rw [hlog, ← List.append_assoc]
    exact hrest

end Keeps

/-! ## Counting -/

theorem counters_set (c : Cache α) (key : String) (a : α) :
    (c.set key a).hits = c.hits ∧ (c.set key a).misses = c.misses := by
  unfold Cache.set
  split <;> exact ⟨rfl, rfl⟩

theorem counters_answer (c : Cache α) (call : Call ε α) :
    (c.answer call).2.hits + (c.answer call).2.misses =
      c.hits + c.misses + if call.isFind then 1 else 0 := by
  cases call with
  | get key => rfl
  | set key a =>
    obtain ⟨hh, hm⟩ := c.counters_set key a
    simp [answer, Call.isFind, hh, hm]
  | find key outcome =>
    rcases c.answer_find_cases key outcome with ⟨a, -, h⟩ | ⟨e, -, -, h⟩ | ⟨a, -, -, h⟩
    · simp only [h, Call.isFind, if_true]
      omega
    · simp only [h, Call.isFind, if_true]
      omega
    · obtain ⟨hh, hm⟩ := counters_set { c with misses := c.misses + 1 } key a
      simp only [h, Call.isFind, if_true, hh, hm]
      omega

theorem counters_run (c : Cache α) (calls : List (Call ε α)) :
    (run answer c calls).2.hits + (run answer c calls).2.misses =
      c.hits + c.misses + calls.countP Call.isFind := by
  induction calls generalizing c with
  | nil => rfl
  | cons call calls ih =>
    have hstep := c.counters_answer call
    have hrest := ih (c.answer call).2
    rw [List.countP_cons]
    change (run answer (c.answer call).2 calls).2.hits + (run answer (c.answer call).2 calls).2.misses = _
    omega

/-! ## Any calls -/

/-- How a cache can be made: with a capacity, or turned off. -/
inductive Making
  | sized (capacity : Int)
  | off

namespace Making

def cache : Making → Cache α
  | sized capacity => .ofCapacity capacity
  | off => .disabled

def parts : Making → Parts α
  | sized capacity => .ofCapacity capacity
  | off => .disabled

/-- How many entries are held; none means all of them. -/
def room : Making → Option Nat
  | sized capacity => if 0 < capacity then some capacity.toNat else none
  | off => some 0

/-- What is true of a cache `c`, and of a cache `s` in parts, after some calls with their answers. -/
structure FirstInFirstOut (m : Making) (calls : List (Call ε α)) (answers : List (Answer ε α))
    (s : Parts α) (c : Cache α) : Prop where
  nodup : s.order.Nodup
  mem_order (key : String) : key ∈ s.order ↔ key ∈ s.data
  newest : s.order = newest m.room (arrivals m.room (Table.names (stored calls answers)))
  latest (key : String) : key ∈ s.order → s.data.lookup key = latest (stored calls answers) key
  size_le (capacity : Int) : m = .sized capacity → 0 < capacity → (s.size : Int) ≤ capacity
  entries : c.entries.names = s.order
  get? (key : String) : c.get? key = s.data.lookup key
  size : c.size = s.size
  hits : c.hits = s.hits
  misses : c.misses = s.misses
  find_stored (key : String) (a : α) (compute : Unit → Except ε α) : c.get? key = some a →
    c.find key compute = ⟨.ok a, false, { c with hits := c.hits + 1 }⟩
  find_failed (key : String) (e : ε) (compute : Unit → Except ε α) : c.get? key = none →
    compute () = .error e → c.find key compute = ⟨.error e, true, { c with misses := c.misses + 1 }⟩
  find_computed (key : String) (a : α) (compute : Unit → Except ε α) : c.get? key = none →
    compute () = .ok a →
    c.find key compute = ⟨.ok a, true, Cache.set { c with misses := c.misses + 1 } key a⟩
  counted : c.hits + c.misses = calls.countP Call.isFind

theorem mirrors (m : Making) : (m.parts : Parts α).Mirrors m.cache := by
  cases m with
  | sized capacity =>
    have hcap : (if capacity ≤ 0 then none else some capacity.toNat) =
        if 0 < capacity.toNat then some capacity.toNat else none := by
      by_cases h : capacity ≤ 0
      · rw [if_pos h, if_neg (by omega)]
      · rw [if_neg h, if_pos (by omega)]
    exact ⟨List.nodup_nil, rfl, fun _ => rfl, hcap, rfl, rfl, rfl⟩
  | off => exact ⟨List.nodup_nil, rfl, fun _ => rfl, rfl, rfl, rfl, rfl⟩

theorem keeps (m : Making) : Keeps m.room [] (m.cache : Cache α) := by
  cases m with
  | sized capacity =>
    have hroom : (if 0 < capacity then some capacity.toNat else none) =
        if capacity ≤ 0 then none else some capacity.toNat := by
      by_cases h : 0 < capacity
      · rw [if_pos h, if_neg (by omega)]
      · rw [if_neg h, if_pos (by omega)]
    exact ⟨hroom, List.nodup_nil, (newest_nil _).symm, nofun⟩
  | off => exact ⟨rfl, List.nodup_nil, (newest_nil _).symm, nofun⟩

theorem counters (m : Making) : (m.cache : Cache α).hits + (m.cache : Cache α).misses = 0 := by
  cases m <;> rfl

/-- Whatever the calls were, a cache and its parts have given the same answers. The order of the keys has
no double entries, agrees with the stored values, and holds the newest arrivals, each with its last value;
a value that is there is not computed, a failure stores nothing, and every search has been counted. -/
theorem first_in_first_out (m : Making) (calls : List (Call ε α)) :
    (run Parts.answer m.parts calls).1 = (run answer m.cache calls).1 ∧
      FirstInFirstOut m calls (run answer m.cache calls).1 (run Parts.answer m.parts calls).2
        (run answer m.cache calls).2 := by
  obtain ⟨hanswers, hm⟩ := m.mirrors.run calls
  have hk := m.keeps.run calls
  have hcount := counters_run m.cache calls
  rw [List.nil_append] at hk
  rw [m.counters, Nat.zero_add] at hcount
  refine ⟨hanswers, ?_⟩
  exact
    { nodup := hm.nodup
      mem_order := hm.mem_order
      newest := by rw [← hm.names, hk.names]
      latest := fun key hkey => by
        rw [← hm.value]
        exact hk.value key (hm.names ▸ hkey)
      size_le := fun capacity hsized hpos => by
        have hle := hk.size_le (n := capacity.toNat) (by rw [hsized, room, if_pos hpos])
        rw [← hm.size]
        omega
      entries := hm.names
      get? := fun key => by rw [hk.get?, hm.value]
      size := hm.size
      hits := hm.hits
      misses := hm.misses
      find_stored := fun _ _ _ h => find_of_some h
      find_failed := fun _ _ _ h he => find_of_error h he
      find_computed := fun _ _ _ h ha => find_of_ok h ha
      counted := hcount }

/-- Setting a key again does not make it newer, and a key that was forgotten comes in as the newest. -/
example : (run (ε := Empty) answer (sized 2).cache
    [.set "a" 1, .set "b" 2, .set "a" 10, .set "c" 3, .set "a" 4, .get "a"]).2.entries =
      [("c", 3), ("a", 4)] := by decide

end Making

end Cache

end LazySession
