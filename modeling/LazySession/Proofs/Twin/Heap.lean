import LazySession.Proofs.Twin.Value
import Mathlib.Data.Finset.Card

/-!
# Heaps that differ in addresses only

`Heap.Twin o p h h'`: what is paired by `p` in the two heaps is the same but for paired addresses,
and what `o` keeps apart in the second heap is as it was. Both heaps may have more than that.

`Heap.Twin.lookup`, `Heap.Twin.inspect`: names have twins as values, and twins have the same text.
-/

namespace LazySession

/-- No more addresses are taken. -/
structure Heap.SmallerThan (h h' : Heap) : Prop where
  thunks : h.thunks.size ≤ h'.thunks.size
  cells : h.cells.size ≤ h'.cells.size
  scopes : h.scopes.size ≤ h'.scopes.size

/-! ## One more pair -/

def pairUp (r : Nat → Nat → Prop) (a b : Nat) : Nat → Nat → Prop :=
  fun x y => r x y ∨ (x = a ∧ y = b)

namespace Pairing

variable (p : Pairing) {a b : Nat}

def addThunk (a b : ThunkId) : Pairing := { p with thunks := pairUp p.thunks a b }

def addCell (a b : CellId) : Pairing := { p with cells := pairUp p.cells a b }

def addScope (a b : ScopeId) : Pairing := { p with scopes := pairUp p.scopes a b }

theorem within_addThunk : p.Within (p.addThunk a b) := ⟨.inl, id, id⟩

theorem within_addCell : p.Within (p.addCell a b) := ⟨id, .inl, id⟩

theorem within_addScope : p.Within (p.addScope a b) := ⟨id, id, .inl⟩

/-- `q` has all pairs of `p`, and further ones of addresses that are new to both heaps. -/
structure Extends (p q : Pairing) (h h' : Heap) : Prop where
  within : p.Within q
  thunks : ∀ {a b}, q.thunks a b → p.thunks a b ∨ h.thunks.size ≤ a ∧ h'.thunks.size ≤ b
  cells : ∀ {a b}, q.cells a b → p.cells a b ∨ h.cells.size ≤ a ∧ h'.cells.size ≤ b
  scopes : ∀ {a b}, q.scopes a b → p.scopes a b ∨ h.scopes.size ≤ a ∧ h'.scopes.size ≤ b

variable {p} {q r : Pairing} {h h' g g' : Heap}

theorem Extends.refl (p : Pairing) (h h' : Heap) : p.Extends p h h' := ⟨.refl p, .inl, .inl, .inl⟩

theorem Extends.trans (e : p.Extends q h h') (e' : q.Extends r g g') (hg : h.SmallerThan g)
    (hg' : h'.SmallerThan g') : p.Extends r h h' where
  within := e.within.trans e'.within
  thunks hr := (e'.thunks hr).elim e.thunks fun hn =>
    .inr ⟨hg.thunks.trans hn.1, hg'.thunks.trans hn.2⟩
  cells hr := (e'.cells hr).elim e.cells fun hn => .inr ⟨hg.cells.trans hn.1, hg'.cells.trans hn.2⟩
  scopes hr := (e'.scopes hr).elim e.scopes fun hn =>
    .inr ⟨hg.scopes.trans hn.1, hg'.scopes.trans hn.2⟩

theorem extends_addThunk (p : Pairing) (h h' : Heap) :
    p.Extends (p.addThunk h.thunks.size h'.thunks.size) h h' :=
  ⟨p.within_addThunk, fun hr => hr.imp_right fun hn => ⟨hn.1.ge, hn.2.ge⟩, .inl, .inl⟩

theorem extends_addCell (p : Pairing) (h h' : Heap) :
    p.Extends (p.addCell h.cells.size h'.cells.size) h h' :=
  ⟨p.within_addCell, .inl, fun hr => hr.imp_right fun hn => ⟨hn.1.ge, hn.2.ge⟩, .inl⟩

theorem extends_addScope (p : Pairing) (h h' : Heap) :
    p.Extends (p.addScope h.scopes.size h'.scopes.size) h h' :=
  ⟨p.within_addScope, .inl, .inl, fun hr => hr.imp_right fun hn => ⟨hn.1.ge, hn.2.ge⟩⟩

end Pairing

/-! ## Arrays -/

/-- Paired places hold related things. The places in `away` have no partner, and they hold what they
held in `old`. -/
structure Mirrors {α : Type} (r : Nat → Nat → Prop) (R : α → α → Prop) (away : Nat → Prop)
    (old xs ys : Array α) : Prop where
  unique : OneToOne r
  related : ∀ {a b}, r a b → ∃ x y, xs[a]? = some x ∧ ys[b]? = some y ∧ R x y
  apart : ∀ {b}, away b → (∀ a, ¬ r a b) ∧ b < old.size ∧ ys[b]? = old[b]?

namespace Mirrors

variable {α : Type} {r : Nat → Nat → Prop} {R S : α → α → Prop} {away : Nat → Prop}
variable {old xs ys : Array α} {a b : Nat}

theorem imp (m : Mirrors r R away old xs ys) (hRS : ∀ x y, R x y → S x y) :
    Mirrors r S away old xs ys where
  unique := m.unique
  related h := by
    obtain ⟨x, y, hx, hy, hxy⟩ := m.related h
    exact ⟨x, y, hx, hy, hRS x y hxy⟩
  apart := m.apart

theorem lt (m : Mirrors r R away old xs ys) (h : r a b) : a < xs.size ∧ b < ys.size := by
  obtain ⟨x, y, hx, hy, -⟩ := m.related h
  exact ⟨(Array.getElem?_eq_some_iff.mp hx).1, (Array.getElem?_eq_some_iff.mp hy).1⟩

theorem get (m : Mirrors r R away old xs ys) (h : r a b) {x : α} (hx : xs[a]? = some x) :
    ∃ y, ys[b]? = some y ∧ R x y := by
  obtain ⟨x', y, hx', hy, hxy⟩ := m.related h
  rw [hx] at hx'
  cases hx'
  exact ⟨y, hy, hxy⟩

theorem push (m : Mirrors r R away old xs ys) {x y : α} (hRS : ∀ x y, R x y → S x y)
    (hxy : S x y) : Mirrors (pairUp r xs.size ys.size) S away old (xs.push x) (ys.push y) where
  unique := by
    rintro a b a' b' (h | ⟨rfl, rfl⟩) (h' | ⟨rfl, rfl⟩)
    · exact m.unique h h'
    · have := m.lt h
      omega
    · have := m.lt h'
      omega
    · simp
  related := by
    rintro a b (h | ⟨rfl, rfl⟩)
    · obtain ⟨x', y', hx, hy, hx'y'⟩ := m.related h
      have := m.lt h
      refine ⟨x', y', ?_, ?_, hRS _ _ hx'y'⟩
      · rw [Array.getElem?_push, if_neg (by omega), hx]
      · rw [Array.getElem?_push, if_neg (by omega), hy]
    · exact ⟨x, y, by simp, by simp, hxy⟩
  apart {b} h := by
    obtain ⟨hfree, hlt, hold⟩ := m.apart h
    -- it is there still, so it is not the new place
    have hb : b < ys.size := by
      rw [Array.getElem?_eq_getElem hlt] at hold
      exact (Array.getElem?_eq_some_iff.mp hold).1
    refine ⟨?_, hlt, ?_⟩
    · rintro a (h | ⟨-, rfl⟩)
      · exact hfree a h
      · omega
    · rw [Array.getElem?_push, if_neg (by omega), hold]

theorem modify (m : Mirrors r R away old xs ys) (h : r a b) {f g : α → α}
    (hfg : ∀ x y, xs[a]? = some x → ys[b]? = some y → R x y → R (f x) (g y)) :
    Mirrors r R away old (xs.modify a f) (ys.modify b g) where
  unique := m.unique
  related {a' b'} h' := by
    obtain ⟨x, y, hx, hy, hxy⟩ := m.related h'
    have hiff := m.unique h h'
    by_cases ha : a = a'
    · obtain rfl := hiff.mp ha
      subst ha
      exact ⟨f x, g y, by simp [Array.getElem?_modify, hx], by simp [Array.getElem?_modify, hy],
        hfg x y hx hy hxy⟩
    · have hb : b ≠ b' := fun he => ha (hiff.mpr he)
      exact ⟨x, y, by simp [Array.getElem?_modify, ha, hx], by simp [Array.getElem?_modify, hb, hy],
        hxy⟩
  apart {b'} h' := by
    obtain ⟨hfree, hlt, hold⟩ := m.apart h'
    have hb : b ≠ b' := by
      rintro rfl
      exact hfree a h
    refine ⟨hfree, hlt, ?_⟩
    rw [Array.getElem?_modify, if_neg hb, hold]

end Mirrors

/-! ## Heaps -/

inductive ThunkState.Twin (p : Pairing) : ThunkState → ThunkState → Prop
  | pending : Twin p .pending .pending
  | forcing : Twin p .forcing .forcing
  | done {v v' : Value} (h : v.Twin p v') : Twin p (.done v) (.done v')

structure Thunk.Twin (p : Pairing) (t t' : Thunk) : Prop where
  name : t'.name = t.name
  source : t'.source = t.source
  want : t'.want = t.want
  code : Option.Rel (fun c c' => c'.1 = c.1 ∧ p.scopes c.2 c'.2) t.code t'.code
  state : t.state.Twin p t'.state

structure Scope.Twin (p : Pairing) (s s' : Scope) : Prop where
  vars : s.vars.Twin (Value.Held p) s'.vars
  outer : Option.Rel p.scopes s.outer s'.outer

/-- A heap and what is kept apart of it. -/
structure Outside where
  heap : Heap
  thunks : ThunkId → Prop
  cells : CellId → Prop
  scopes : ScopeId → Prop

/-- The scope was made after the one around it. -/
def Heap.Nested (h : Heap) (id : ScopeId) : Prop :=
  ∀ s o, h.scopes[id]? = some s → s.outer = some o → o < id

structure Heap.Twin (o : Outside) (p : Pairing) (h h' : Heap) : Prop where
  thunks : Mirrors p.thunks (Thunk.Twin p) o.thunks o.heap.thunks h.thunks h'.thunks
  cells : Mirrors p.cells (Option.Rel (Value.Twin p)) o.cells o.heap.cells h.cells h'.cells
  scopes : Mirrors p.scopes (Scope.Twin p) o.scopes o.heap.scopes h.scopes h'.scopes
  nested : ∀ {a b}, p.scopes a b → h.Nested a ∧ h'.Nested b

section
variable {p q : Pairing}

theorem ThunkState.Twin.mono {s s' : ThunkState} (h : s.Twin p s') (hw : p.Within q) :
    s.Twin q s' := by
  cases h with
  | pending => exact .pending
  | forcing => exact .forcing
  | done h => exact .done (h.mono hw)

theorem Thunk.Twin.mono {t t' : Thunk} (h : t.Twin p t') (hw : p.Within q) : t.Twin q t' where
  name := h.name
  source := h.source
  want := h.want
  code := rel_imp h.code fun _ _ hc => ⟨hc.1, hw.scopes hc.2⟩
  state := h.state.mono hw

theorem Scope.Twin.mono {s s' : Scope} (h : s.Twin p s') (hw : p.Within q) : s.Twin q s' where
  vars := h.vars.imp fun _ _ hv => hv.mono hw
  outer := rel_imp h.outer fun _ _ ho => hw.scopes ho

end

namespace Heap

variable {o : Outside} {p : Pairing} {h h' : Heap}

theorem Twin.unique (ht : h.Twin o p h') : p.Unique :=
  ⟨ht.thunks.unique, ht.cells.unique, ht.scopes.unique⟩

/-! ### Reading -/

theorem Twin.lookup (ht : h.Twin o p h') (x : String) (a : ScopeId) : ∀ {b : ScopeId}, p.scopes a b →
    Option.Rel (Value.Held p) (h.lookup a x) (h'.lookup b x) := by
  induction a using Nat.strongRecOn with
  | ind a ih =>
    intro b hab
    obtain ⟨s, s', hs, hs', htwin⟩ := ht.scopes.related hab
    obtain ⟨hin, hin'⟩ := ht.nested hab
    rw [Heap.lookup, Heap.lookup, hs, hs']
    simp only
    rcases rel_cases (htwin.vars.get? x) with ⟨hx, hx'⟩ | ⟨v, v', hx, hx', hv⟩
    · -- both go to the scope around
      rcases rel_cases htwin.outer with ⟨ho, ho'⟩ | ⟨i, j, ho, ho', hij⟩
      · simp only [hx, hx', ho, ho']
        exact .none
      · have hi := hin s i hs ho
        simp only [hx, hx', ho, ho', hi, hin' s' j hs' ho', if_true]
        exact ih i hi hij
    · simp only [hx, hx']
      exact .some hv

theorem Twin.getCell? (ht : h.Twin o p h') {a b : CellId} (hab : p.cells a b) :
    Option.Rel (Value.Twin p) (h.getCell? a) (h'.getCell? b) := by
  obtain ⟨c, c', hc, hc', hcc⟩ := ht.cells.related hab
  simp only [Heap.getCell?, hc, hc', Option.join_some]
  exact hcc

/-! ### Texts -/

/-- With as many steps as there are cells besides those seen, a further step changes nothing. -/
theorem inspectFrom_succ {C : CellId → Prop}
    (hC : ∀ id, C id → id < h.cells.size ∧ ∀ v, h.getCell? id = some v →
      (∀ t, v ≠ .thunk t) ∧ ∀ c, v = .cell c → C c) (n : Nat) :
    ∀ {seen : List CellId} {v : Value}, seen.Nodup → (∀ id ∈ seen, id < h.cells.size) →
      h.cells.size ≤ n + seen.length → (∀ t, v ≠ .thunk t) → (∀ c, v = .cell c → C c) →
      h.inspectFrom (n + 1) seen v = h.inspectFrom n seen v := by
  induction n with
  | zero =>
    intro seen v hn hlt hle hv hc
    cases v with
    | cell id =>
      -- all cells have been seen
      have hmem : id ∈ seen := by
        have hsub : seen.toFinset ⊆ Finset.range h.cells.size := fun x hx =>
          Finset.mem_range.mpr (hlt x (List.mem_toFinset.mp hx))
        have hcard : (Finset.range h.cells.size).card ≤ seen.toFinset.card := by
          rw [Finset.card_range, List.toFinset_card_of_nodup hn]
          omega
        have heq := Finset.eq_of_subset_of_card_le hsub hcard
        rw [← List.mem_toFinset, heq]
        exact Finset.mem_range.mpr (hC id (hc id rfl)).1
      simp [inspectFrom, hmem]
    | thunk id => exact absurd rfl (hv id)
    | _ => simp [inspectFrom]
  | succ n ih =>
    intro seen v hn hlt hle hv hc
    cases v with
    | cell id =>
      obtain ⟨hid, hcontent⟩ := hC id (hc id rfl)
      simp only [inspectFrom]
      split
      · rfl
      · rename_i hnot
        split
        · rename_i u hu
          obtain ⟨hu₁, hu₂⟩ := hcontent u hu
          have hseen : (id :: seen).Nodup := List.nodup_cons.mpr ⟨by simpa using hnot, hn⟩
          rw [ih hseen ?_ ?_ hu₁ hu₂]
          · intro i hi
            rcases List.mem_cons.mp hi with rfl | hi
            · exact hid
            · exact hlt i hi
          · simp only [List.length_cons]
            omega
        · rfl
    | thunk id => exact absurd rfl (hv id)
    | _ => simp [inspectFrom]

theorem inspectFrom_of_le {C : CellId → Prop}
    (hC : ∀ id, C id → id < h.cells.size ∧ ∀ v, h.getCell? id = some v →
      (∀ t, v ≠ .thunk t) ∧ ∀ c, v = .cell c → C c) {v : Value} (hv : ∀ t, v ≠ .thunk t)
    (hc : ∀ c, v = .cell c → C c) {n m : Nat} (hn : h.cells.size ≤ n) (hnm : n ≤ m) :
    h.inspectFrom m [] v = h.inspectFrom n [] v := by
  induction m, hnm using Nat.le_induction with
  | base => rfl
  | succ m hm ih =>
    rw [inspectFrom_succ hC m List.nodup_nil nofun (by simp; omega) hv hc, ih]

theorem mem_twin (hu : OneToOne p.cells) {seen seen' : List CellId}
    (hs : List.Forall₂ p.cells seen seen') {a b : CellId} (hab : p.cells a b) :
    seen'.contains b = seen.contains a := by
  induction hs with
  | nil => rfl
  | cons hx _ ih =>
    have hiff := hu hab hx
    simp only [List.contains_cons, ih]
    congr 1
    rw [Bool.eq_iff_iff]
    simp [hiff]

theorem Twin.inspectFrom (ht : h.Twin o p h') (n : Nat) : ∀ {seen seen' : List CellId} {v v' : Value},
    List.Forall₂ p.cells seen seen' → v.Twin p v' →
      h'.inspectFrom n seen' v' = h.inspectFrom n seen v := by
  induction n with
  | zero =>
    intro seen seen' v v' _ hv
    cases hv with
    | closure hc => simp only [Heap.inspectFrom, hc.inspect]
    | partialApp hf hlength _ => simp only [Heap.inspectFrom, hf.inspect, hlength]
    | _ => simp only [Heap.inspectFrom]
  | succ n ih =>
    intro seen seen' v v' hs hv
    cases hv with
    | closure hc => simp only [Heap.inspectFrom, hc.inspect]
    | partialApp hf hlength _ => simp only [Heap.inspectFrom, hf.inspect, hlength]
    | @cell a b hab =>
      simp only [Heap.inspectFrom, mem_twin ht.cells.unique hs hab]
      split
      · rfl
      · rcases rel_cases (ht.getCell? hab) with ⟨hc, hc'⟩ | ⟨v, v', hc, hc', hcc⟩
        · simp only [hc, hc']
        · simp only [hc, hc', ih (.cons hab hs) hcc]
    | _ => simp only [Heap.inspectFrom]

theorem Twin.inspect (ht : h.Twin o p h') {v v' : Value} (hv : v.Twin p v') :
    h'.inspect v' = h.inspect v := by
  have hC : ∀ id, (∃ b, p.cells id b) → id < h.cells.size ∧ ∀ v, h.getCell? id = some v →
      (∀ t, v ≠ .thunk t) ∧ ∀ c, v = .cell c → ∃ b, p.cells c b := by
    rintro a ⟨b, hab⟩
    refine ⟨(ht.cells.lt hab).1, fun v hv => ?_⟩
    obtain ⟨hn, -⟩ | ⟨u, v', hu, -, htwin⟩ := rel_cases (ht.getCell? hab)
    · simp [hn] at hv
    obtain rfl := Option.some.inj (hv.symm.trans hu)
    exact ⟨htwin.not_thunk.1, by rintro c rfl; cases htwin with | cell h => exact ⟨_, h⟩⟩
  have hC' : ∀ id, (∃ a, p.cells a id) → id < h'.cells.size ∧ ∀ v, h'.getCell? id = some v →
      (∀ t, v ≠ .thunk t) ∧ ∀ c, v = .cell c → ∃ a, p.cells a c := by
    rintro b ⟨a, hab⟩
    refine ⟨(ht.cells.lt hab).2, fun v hv => ?_⟩
    obtain ⟨-, hn⟩ | ⟨v', u, -, hu, htwin⟩ := rel_cases (ht.getCell? hab)
    · simp [hn] at hv
    obtain rfl := Option.some.inj (hv.symm.trans hu)
    exact ⟨htwin.not_thunk.2, by rintro c rfl; cases htwin with | cell h => exact ⟨_, h⟩⟩
  have hc : ∀ c, v = .cell c → ∃ b, p.cells c b := by rintro c rfl; cases hv with | cell h => exact ⟨_, h⟩
  have hc' : ∀ c, v' = .cell c → ∃ a, p.cells a c := by rintro c rfl; cases hv with | cell h => exact ⟨_, h⟩
  -- both texts are those with the larger number of steps
  unfold Heap.inspect
  rw [← inspectFrom_of_le hC hv.not_thunk.1 hc (Nat.le_add_right _ h.thunks.size)
      (Nat.le_max_left _ (h'.cells.size + h'.thunks.size)),
    ← inspectFrom_of_le hC' hv.not_thunk.2 hc' (Nat.le_add_right _ h'.thunks.size)
      (Nat.le_max_right (h.cells.size + h.thunks.size) _)]
  exact ht.inspectFrom _ .nil hv

/-! ### Writing -/

theorem nested_push {id : ScopeId} {s : Scope} (hid : id < h.scopes.size) (hn : h.Nested id) :
    Nested { h with scopes := h.scopes.push s } id := by
  intro s' i hs' hi
  rw [Array.getElem?_push, if_neg (Nat.ne_of_lt hid)] at hs'
  exact hn s' i hs' hi

theorem nested_size {vars : Table Value} {outer : Option ScopeId}
    (ho : ∀ i, outer = some i → i < h.scopes.size) :
    (h.newScope vars outer).2.Nested h.scopes.size := by
  intro s i hs hi
  simp only [Heap.newScope, Array.getElem?_push, if_true, Option.some.injEq] at hs
  subst hs
  exact ho i hi

theorem nested_setVar {id scope : ScopeId} {x : String} {v : Value} (hn : h.Nested id) :
    (h.setVar scope x v).Nested id := by
  intro s i hs hi
  simp only [Heap.setVar, Array.getElem?_modify] at hs
  split at hs
  · obtain ⟨s₀, hs₀, rfl⟩ := Option.map_eq_some_iff.mp hs
    exact hn s₀ i hs₀ hi
  · exact hn s i hs hi

theorem setIfInBounds_eq_modify {α : Type} (xs : Array α) (i : Nat) (x : α) :
    xs.setIfInBounds i x = xs.modify i fun _ => x := by
  apply Array.ext_getElem?
  intro j
  rw [Array.getElem?_setIfInBounds, Array.getElem?_modify]
  split
  · rename_i hij
    subst hij
    split
    · rename_i hlt
      simp [hlt]
    · rename_i hge
      simp [Nat.le_of_not_lt hge]
  · rfl

theorem Twin.newThunk (ht : h.Twin o p h') {t t' : Thunk} (htt : t.Twin p t') :
    (h.newThunk t).2.Twin o (p.addThunk h.thunks.size h'.thunks.size) (h'.newThunk t').2 where
  thunks := ht.thunks.push (fun _ _ h => h.mono p.within_addThunk) (htt.mono p.within_addThunk)
  cells := ht.cells.imp fun _ _ h => rel_imp h fun _ _ h => h.mono p.within_addThunk
  scopes := ht.scopes.imp fun _ _ h => h.mono p.within_addThunk
  nested := ht.nested

theorem Twin.newCell (ht : h.Twin o p h') {c c' : Option Value} (hc : Option.Rel (Value.Twin p) c c') :
    (h.newCell c).2.Twin o (p.addCell h.cells.size h'.cells.size) (h'.newCell c').2 where
  thunks := ht.thunks.imp fun _ _ h => h.mono p.within_addCell
  cells := ht.cells.push (fun _ _ h => rel_imp h fun _ _ h => h.mono p.within_addCell)
    (rel_imp hc fun _ _ h => h.mono p.within_addCell)
  scopes := ht.scopes.imp fun _ _ h => h.mono p.within_addCell
  nested := ht.nested

theorem Twin.newScope (ht : h.Twin o p h') {vars vars' : Table Value} {outer outer' : Option ScopeId}
    (hv : vars.Twin (Value.Held p) vars') (ho : Option.Rel p.scopes outer outer') :
    (h.newScope vars outer).2.Twin o (p.addScope h.scopes.size h'.scopes.size)
      (h'.newScope vars' outer').2 where
  thunks := ht.thunks.imp fun _ _ h => h.mono p.within_addScope
  cells := ht.cells.imp fun _ _ h => rel_imp h fun _ _ h => h.mono p.within_addScope
  scopes := ht.scopes.push (fun _ _ h => h.mono p.within_addScope)
    (Scope.Twin.mono ⟨hv, ho⟩ p.within_addScope)
  nested := by
    have hlt : ∀ i, outer = some i → i < h.scopes.size := by
      rintro i rfl
      obtain ⟨hn, -⟩ | ⟨a, b, ha, -, hab⟩ := rel_cases ho
      · cases hn
      · cases ha
        exact (ht.scopes.lt hab).1
    have hlt' : ∀ i, outer' = some i → i < h'.scopes.size := by
      rintro i rfl
      obtain ⟨-, hn⟩ | ⟨a, b, -, hb, hab⟩ := rel_cases ho
      · cases hn
      · cases hb
        exact (ht.scopes.lt hab).2
    rintro a b (hab | ⟨rfl, rfl⟩)
    · exact ⟨nested_push (ht.scopes.lt hab).1 (ht.nested hab).1,
        nested_push (ht.scopes.lt hab).2 (ht.nested hab).2⟩
    · exact ⟨nested_size hlt, nested_size hlt'⟩

theorem Twin.setThunk (ht : h.Twin o p h') {a b : ThunkId} (hab : p.thunks a b) {s s' : ThunkState}
    (hs : s.Twin p s') : (h.setThunk a s).Twin o p (h'.setThunk b s') where
  thunks := by
    simp only [Heap.setThunk]
    refine ht.thunks.modify hab ?_
    exact fun _ _ _ _ h => ⟨h.name, h.source, h.want, h.code, hs⟩
  cells := ht.cells
  scopes := ht.scopes
  nested := ht.nested

theorem Twin.setVar (ht : h.Twin o p h') {a b : ScopeId} (hab : p.scopes a b) (x : String)
    {v v' : Value} (hv : v.Held p v') : (h.setVar a x v).Twin o p (h'.setVar b x v') where
  thunks := ht.thunks
  cells := ht.cells
  scopes := by
    simp only [Heap.setVar]
    refine ht.scopes.modify hab ?_
    exact fun _ _ _ _ h => ⟨h.vars.put x hv, h.outer⟩
  nested hcd := ⟨nested_setVar (ht.nested hcd).1, nested_setVar (ht.nested hcd).2⟩

theorem Twin.setCell (ht : h.Twin o p h') {a b : CellId} (hab : p.cells a b) {v v' : Value}
    (hv : v.Twin p v') : (h.setCell a v).Twin o p (h'.setCell b v') where
  thunks := ht.thunks
  cells := by
    simp only [Heap.setCell, setIfInBounds_eq_modify]
    refine ht.cells.modify hab ?_
    exact fun _ _ _ _ _ => .some hv
  scopes := ht.scopes
  nested := ht.nested

/-! ### Definitions -/

theorem smallerThan_newBinding (h : Heap) (b : Binding) (scope : ScopeId) (source : String)
    (want : Option BaseType) (x : String) :
    h.SmallerThan ((h.newBinding b scope source want).2.setVar scope x
      (h.newBinding b scope source want).1) := by
  unfold Heap.newBinding
  split
  · exact ⟨le_rfl, le_rfl, by simp [Heap.setVar]⟩
  · exact ⟨by simp [Heap.setVar, Heap.newThunk], le_rfl, by simp [Heap.setVar, Heap.newThunk]⟩

theorem Twin.newBinding (ht : h.Twin o p h') (b : Binding) {scope scope' : ScopeId}
    (hs : p.scopes scope scope') (source : String) (want : Option BaseType) :
    ∃ q, p.Extends q h h' ∧ (h.newBinding b scope source want).1.Held q
        (h'.newBinding b scope' source want).1 ∧
      (h.newBinding b scope source want).2.Twin o q (h'.newBinding b scope' source want).2 := by
  unfold Heap.newBinding
  split
  · exact ⟨p, .refl p h h', .value (.closure ⟨hs, rfl⟩), ht⟩
  · exact ⟨_, Pairing.extends_addThunk p h h', .thunk (.inr ⟨rfl, rfl⟩),
      ht.newThunk ⟨rfl, rfl, rfl, .some ⟨rfl, hs⟩, .pending⟩⟩

theorem Twin.newBindings {scope scope' : ScopeId} (source : String) (bs : List Binding) :
    ∀ {p : Pairing} {h h' : Heap}, h.Twin o p h' → p.scopes scope scope' →
      ∃ q, p.Extends q h h' ∧ (h.newBindings bs scope source).Twin o q
        (h'.newBindings bs scope' source) := by
  induction bs with
  | nil => exact fun ht _ => ⟨_, .refl _ _ _, ht⟩
  | cons b bs ih =>
    intro p h h' ht hs
    obtain ⟨q, hq, hv, ht'⟩ := ht.newBinding b hs source none
    have hs' := hq.within.scopes hs
    obtain ⟨r, hr, ht''⟩ := ih (ht'.setVar hs' b.name hv) hs'
    exact ⟨r, hq.trans hr (h.smallerThan_newBinding b scope source none b.name)
      (h'.smallerThan_newBinding b scope' source none b.name), ht''⟩

end Heap

end LazySession
