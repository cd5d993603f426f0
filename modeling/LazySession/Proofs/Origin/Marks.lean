import LazySession.Proofs.Scope.Application
import Mathlib.Data.Set.Basic
import Mathlib.Logic.Relation

/-!
# The code that a value leads to

Labels tell, for things in the heap, in which places of which sources the code is written that they
may lead to. `Heap.Inside`: whatever has a label leads only to code in the places of it, and to
things whose labels are within. So a value never leads further than when it was made.
-/

namespace LazySession

/-- Places in sources. -/
abbrev Marks := Set (String × Pos)

/-! ## Places of expressions -/

namespace Expr

/-- The first expression stands in the second one, and not in another part of it. -/
inductive Part : Expr → Expr → Prop
  | function {fn : Expr} {args : List Expr} : Part fn (.app fn args)
  | argument {fn a : Expr} {args : List Expr} (h : a ∈ args) : Part a (.app fn args)
  | left {p : Pos} {op : Operator} {l r : Expr} : Part l (.binary p op l r)
  | right {p : Pos} {op : Operator} {l r : Expr} : Part r (.binary p op l r)
  | negated {p : Pos} {e : Expr} : Part e (.negate p e)
  | lambdaBody {p : Pos} {param : Param} {more : List Param} {e : Expr} :
    Part e (.lambda p param more e)
  | bound {p : Pos} {binds : List Binding} {e : Expr} {b : Binding} (h : b ∈ binds) :
    Part b.body (.letIn p binds e)
  | letBody {p : Pos} {binds : List Binding} {e : Expr} : Part e (.letIn p binds e)
  | test {p : Pos} {test yes no : Expr} : Part test (.cond p test yes no)
  | yes {p : Pos} {test yes no : Expr} : Part yes (.cond p test yes no)
  | no {p : Pos} {test yes no : Expr} : Part no (.cond p test yes no)

/-- The positions of an expression and of everything that stands in it. -/
def places (e : Expr) : Set Pos := {p | ∃ x, Relation.ReflTransGen Part x e ∧ x.pos = p}

variable {M N : Marks} {source : String} {e x : Expr}

theorem pos_mem_places (e : Expr) : e.pos ∈ e.places := ⟨e, .refl, rfl⟩

theorem Part.places_subset (h : Part x e) : x.places ⊆ e.places := by
  rintro p ⟨y, hy, hp⟩
  exact ⟨y, hy.tail h, hp⟩

/-- The expression is written in marked places of the source. -/
def Lies (M : Marks) (source : String) (e : Expr) : Prop := ∀ p ∈ e.places, (source, p) ∈ M

theorem Lies.pos (h : e.Lies M source) : (source, e.pos) ∈ M := h _ e.pos_mem_places

theorem Lies.part (h : e.Lies M source) (hx : Part x e) : x.Lies M source :=
  fun p hp => h p (hx.places_subset hp)

theorem Lies.mono (h : e.Lies M source) (hM : M ⊆ N) : e.Lies N source := fun p hp => hM (h p hp)

theorem places_var (p : Pos) (name : String) : (var p name).places = {p} := by
  ext q
  constructor
  · rintro ⟨x, hx, rfl⟩
    rcases hx.cases_tail with rfl | ⟨z, -, hz⟩
    · rfl
    · cases hz
  · rintro rfl
    exact pos_mem_places _

theorem lies_ofOperator {p : Pos} (h : (source, p) ∈ M) (op : Operator) (scope : ScopeId) :
    (Closure.ofOperator p op scope source).body.Lies M source := by
  rintro q ⟨x, hx, rfl⟩
  have hvar : ∀ {name : String}, Relation.ReflTransGen Part x (.var p name) → x.pos = p := by
    intro name hx
    have hmem : x.pos ∈ (var p name).places := ⟨x, hx, rfl⟩
    rwa [places_var] at hmem
  suffices hp : x.pos = p by rw [hp]; exact h
  rcases hx.cases_tail with rfl | ⟨z, hx, hz⟩
  · rfl
  · cases hz <;> exact hvar hx

end Expr

/-! ## Labels -/

/-- Labels for some of the things of a kind. -/
abbrev Labeling := Nat → Option Marks

/-- All labels stay. -/
def Labeling.Extends (f g : Labeling) : Prop := ∀ id N, f id = some N → g id = some N

section
variable {f : Labeling} {id i : Nat} {M N : Marks}

theorem Labeling.extends_update (h : f id = none) (M : Marks) :
    f.Extends (Function.update f id (some M)) := by
  intro i N hN
  have hne : i ≠ id := by
    rintro rfl
    rw [h] at hN
    cases hN
  rw [Function.update_of_ne hne, hN]

theorem Labeling.update_cases (h : Function.update f id (some M) i = some N) :
    i = id ∧ N = M ∨ f i = some N := by
  by_cases hi : i = id
  · subst hi
    rw [Function.update_self] at h
    exact .inl ⟨rfl, (Option.some.inj h).symm⟩
  · rw [Function.update_of_ne hi] at h
    exact .inr h

end

/-- For things in the heap, the places of the code that they may lead to. -/
structure Labels where
  scopes : Labeling
  thunks : Labeling
  cells : Labeling

/-- There is a label, and it is within `M`. -/
def Covers (M : Marks) (label : Option Marks) : Prop := ∃ N, label = some N ∧ N ⊆ M

theorem Covers.mono {M N : Marks} {label : Option Marks} (h : Covers M label) (hM : M ⊆ N) :
    Covers N label := by
  obtain ⟨K, hK, hsub⟩ := h
  exact ⟨K, hK, hsub.trans hM⟩

namespace Labels

/-- `L'` has the labels of `L`, and may have more. -/
structure Extends (L L' : Labels) : Prop where
  scopes : L.scopes.Extends L'.scopes
  thunks : L.thunks.Extends L'.thunks
  cells : L.cells.Extends L'.cells

def empty : Labels := ⟨fun _ => none, fun _ => none, fun _ => none⟩

def setScope (L : Labels) (id : ScopeId) (M : Marks) : Labels :=
  { L with scopes := Function.update L.scopes id (some M) }

def setThunk (L : Labels) (id : ThunkId) (M : Marks) : Labels :=
  { L with thunks := Function.update L.thunks id (some M) }

def setCell (L : Labels) (id : CellId) (M : Marks) : Labels :=
  { L with cells := Function.update L.cells id (some M) }

/-- The labels with further marks on all of them. -/
def widen (L : Labels) (S : Marks) : Labels where
  scopes i := (L.scopes i).map (· ∪ S)
  thunks i := (L.thunks i).map (· ∪ S)
  cells i := (L.cells i).map (· ∪ S)

variable {L L' L'' : Labels} {M : Marks}

theorem Extends.refl (L : Labels) : L.Extends L := ⟨fun _ _ h => h, fun _ _ h => h, fun _ _ h => h⟩

theorem Extends.trans (h : L.Extends L') (h' : L'.Extends L'') : L.Extends L'' :=
  ⟨fun id N hN => h'.scopes id N (h.scopes id N hN), fun id N hN => h'.thunks id N (h.thunks id N hN),
    fun id N hN => h'.cells id N (h.cells id N hN)⟩

theorem extends_setScope {id : ScopeId} (h : L.scopes id = none) (M : Marks) :
    L.Extends (L.setScope id M) :=
  ⟨Labeling.extends_update h M, fun _ _ hN => hN, fun _ _ hN => hN⟩

theorem extends_setThunk {id : ThunkId} (h : L.thunks id = none) (M : Marks) :
    L.Extends (L.setThunk id M) :=
  ⟨fun _ _ hN => hN, Labeling.extends_update h M, fun _ _ hN => hN⟩

theorem extends_setCell {id : CellId} (h : L.cells id = none) (M : Marks) :
    L.Extends (L.setCell id M) :=
  ⟨fun _ _ hN => hN, fun _ _ hN => hN, Labeling.extends_update h M⟩

theorem covers_setScope (L : Labels) (id : ScopeId) (M : Marks) :
    Covers M ((L.setScope id M).scopes id) :=
  ⟨M, Function.update_self .., subset_rfl⟩

theorem covers_setThunk (L : Labels) (id : ThunkId) (M : Marks) :
    Covers M ((L.setThunk id M).thunks id) :=
  ⟨M, Function.update_self .., subset_rfl⟩

theorem covers_setCell (L : Labels) (id : CellId) (M : Marks) :
    Covers M ((L.setCell id M).cells id) :=
  ⟨M, Function.update_self .., subset_rfl⟩

theorem Extends.covers_scope (h : L.Extends L') {id : ScopeId} (hM : Covers M (L.scopes id)) :
    Covers M (L'.scopes id) := by
  obtain ⟨N, hN, hsub⟩ := hM
  exact ⟨N, h.scopes id N hN, hsub⟩

theorem Extends.covers_thunk (h : L.Extends L') {id : ThunkId} (hM : Covers M (L.thunks id)) :
    Covers M (L'.thunks id) := by
  obtain ⟨N, hN, hsub⟩ := hM
  exact ⟨N, h.thunks id N hN, hsub⟩

theorem Extends.covers_cell (h : L.Extends L') {id : CellId} (hM : Covers M (L.cells id)) :
    Covers M (L'.cells id) := by
  obtain ⟨N, hN, hsub⟩ := hM
  exact ⟨N, h.cells id N hN, hsub⟩

end Labels

theorem Covers.widen {M S : Marks} {label : Option Marks} (h : Covers M label) :
    Covers (M ∪ S) (label.map (· ∪ S)) := by
  obtain ⟨N, rfl, hsub⟩ := h
  exact ⟨N ∪ S, rfl, Set.union_subset_union_left S hsub⟩

/-! ## Values -/

structure Closure.Inside (L : Labels) (M : Marks) (c : Closure) : Prop where
  scope : Covers M (L.scopes c.scope)
  body : c.body.Lies M c.source

def Callable.Inside (L : Labels) (M : Marks) : Callable → Prop
  | .closure c => c.Inside L M
  | _ => True

/-- The value leads only to code in marked places. -/
inductive Value.Inside (L : Labels) (M : Marks) : Value → Prop
  | alone {v : Value} (hv : v.isAlone) : Inside L M v
  | closure {c : Closure} (hc : c.Inside L M) : Inside L M (.closure c)
  | partialApp {fn : Callable} {args : List Value} (hf : fn.Inside L M)
    (ha : ∀ a ∈ args, Inside L M a) : Inside L M (.partialApp fn args)
  | cell {id : CellId} (hid : Covers M (L.cells id)) : Inside L M (.cell id)
  | thunk {id : ThunkId} (hid : Covers M (L.thunks id)) : Inside L M (.thunk id)

structure Scope.Inside (L : Labels) (M : Marks) (s : Scope) : Prop where
  vars : ∀ x v, s.vars.get? x = some v → v.Inside L M
  outer : ∀ o, s.outer = some o → Covers M (L.scopes o)

/-- The thunk has an expression, and neither it nor the value leads to code elsewhere. -/
structure Thunk.Inside (L : Labels) (M : Marks) (t : Thunk) : Prop where
  code : ∃ e scope, t.code = some (e, scope) ∧ Covers M (L.scopes scope) ∧ e.Lies M t.source
  done : ∀ v, t.state = .done v → v.Inside L M

/-- Whatever has a label is there and leads only to code in the places of it. -/
structure Heap.Inside (L : Labels) (h : Heap) : Prop where
  scopes : ∀ id N, L.scopes id = some N → ∃ s, h.scopes[id]? = some s ∧ s.Inside L N
  thunks : ∀ id N, L.thunks id = some N → ∃ t, h.thunks[id]? = some t ∧ t.Inside L N
  cells : ∀ id N, L.cells id = some N → ∃ c, h.cells[id]? = some c ∧ ∀ v, c = some v → v.Inside L N

section
variable {L L' : Labels} {M M' N : Marks} {h h' : Heap}

theorem Heap.inside_empty (h : Heap) : h.Inside .empty := ⟨nofun, nofun, nofun⟩

theorem Closure.Inside.mono {c : Closure} (hc : c.Inside L M) (hL : L.Extends L') (hM : M ⊆ M') :
    c.Inside L' M' :=
  ⟨(hL.covers_scope hc.scope).mono hM, hc.body.mono hM⟩

theorem Callable.Inside.mono {fn : Callable} (hf : fn.Inside L M) (hL : L.Extends L')
    (hM : M ⊆ M') : fn.Inside L' M' := by
  cases fn with
  | closure c => exact Closure.Inside.mono hf hL hM
  | _ => trivial

theorem Value.Inside.mono {v : Value} (hv : v.Inside L M) (hL : L.Extends L') (hM : M ⊆ M') :
    v.Inside L' M' := by
  induction hv with
  | alone hv => exact .alone hv
  | closure hc => exact .closure (hc.mono hL hM)
  | partialApp hf _ ha => exact .partialApp (hf.mono hL hM) ha
  | cell hid => exact .cell ((hL.covers_cell hid).mono hM)
  | thunk hid => exact .thunk ((hL.covers_thunk hid).mono hM)

theorem Scope.Inside.mono {s : Scope} (hs : s.Inside L M) (hL : L.Extends L') : s.Inside L' M :=
  ⟨fun x v hx => (hs.vars x v hx).mono hL subset_rfl, fun o ho => hL.covers_scope (hs.outer o ho)⟩

theorem Thunk.Inside.mono {t : Thunk} (ht : t.Inside L M) (hL : L.Extends L') : t.Inside L' M := by
  obtain ⟨e, scope, hc, hs, he⟩ := ht.code
  exact ⟨⟨e, scope, hc, hL.covers_scope hs, he⟩, fun v hv => (ht.done v hv).mono hL subset_rfl⟩

/-! ### More marks everywhere -/

theorem Closure.Inside.widen {c : Closure} (hc : c.Inside L M) (S : Marks) :
    c.Inside (L.widen S) (M ∪ S) :=
  ⟨hc.scope.widen, hc.body.mono Set.subset_union_left⟩

theorem Value.Inside.widen {v : Value} (hv : v.Inside L M) (S : Marks) :
    v.Inside (L.widen S) (M ∪ S) := by
  induction hv with
  | alone hv => exact .alone hv
  | closure hc => exact .closure (hc.widen S)
  | @partialApp fn args hf _ ha =>
    refine .partialApp ?_ ha
    cases fn with
    | closure c => exact Closure.Inside.widen hf S
    | _ => trivial
  | cell hid => exact .cell hid.widen
  | thunk hid => exact .thunk hid.widen

theorem Heap.Inside.widen (hh : h.Inside L) (S : Marks) : h.Inside (L.widen S) where
  scopes id N hN := by
    obtain ⟨K, hK, rfl⟩ := Option.map_eq_some_iff.mp hN
    obtain ⟨s, hs, hin⟩ := hh.scopes id K hK
    exact ⟨s, hs, fun x v hx => (hin.vars x v hx).widen S, fun o ho => (hin.outer o ho).widen⟩
  thunks id N hN := by
    obtain ⟨K, hK, rfl⟩ := Option.map_eq_some_iff.mp hN
    obtain ⟨t, ht, ⟨e, scope, hc, hs, he⟩, hdone⟩ := hh.thunks id K hK
    exact ⟨t, ht, ⟨e, scope, hc, hs.widen, he.mono Set.subset_union_left⟩,
      fun v hv => (hdone v hv).widen S⟩
  cells id N hN := by
    obtain ⟨K, hK, rfl⟩ := Option.map_eq_some_iff.mp hN
    obtain ⟨c, hc, hv⟩ := hh.cells id K hK
    exact ⟨c, hc, fun v he => (hv v he).widen S⟩

/-! ## What is found in the heap -/

theorem Heap.Inside.lookup (hh : h.Inside L) {x : String} {v : Value} (scope : ScopeId) :
    Covers M (L.scopes scope) → h.lookup scope x = some v → v.Inside L M := by
  induction scope using Nat.strongRecOn generalizing M with
  | _ scope ih =>
    rintro ⟨N, hN, hsub⟩ hl
    obtain ⟨⟨vars, outer⟩, hi, hin⟩ := hh.scopes scope N hN
    rw [Heap.lookup_eq hi] at hl
    cases hx : vars.get? x with
    | some a =>
      rw [hx, Option.some_or] at hl
      cases hl
      exact (hin.vars x _ hx).mono (.refl L) hsub
    | none =>
      rw [hx, Option.none_or] at hl
      obtain ⟨o, ho, hl⟩ := Option.bind_eq_some_iff.mp hl
      split at hl
      · rename_i hlt
        exact ih o hlt ((hin.outer o ho).mono hsub) hl
      · cases hl

theorem Heap.Inside.thunkValue? (hh : h.Inside L) {id : ThunkId} {v : Value}
    (hid : Covers M (L.thunks id)) (hv : h.thunkValue? id = some v) : v.Inside L M := by
  obtain ⟨N, hN, hsub⟩ := hid
  obtain ⟨t, ht, hin⟩ := hh.thunks id N hN
  unfold Heap.thunkValue? at hv
  rw [ht] at hv
  split at hv
  · rename_i v' heq
    cases heq
    cases hv
    exact (hin.done _ rfl).mono (.refl L) hsub
  · cases hv

theorem Heap.Inside.getCell? (hh : h.Inside L) {id : CellId} {v : Value}
    (hid : Covers M (L.cells id)) (hv : h.getCell? id = some v) : v.Inside L M := by
  obtain ⟨N, hN, hsub⟩ := hid
  obtain ⟨c, hc, hin⟩ := hh.cells id N hN
  rw [Heap.getCell?, hc] at hv
  exact (hin v hv).mono (.refl L) hsub

theorem Heap.Inside.toHost (hh : h.Inside L) {v u : Value} (hv : v.Inside L M)
    (hu : h.toHost v = .object u) : u.Inside L M := by
  have step : ∀ (n : Nat) (v : Value), v.Inside L M → h.toHostFrom n v = .object u →
      u.Inside L M := by
    intro n
    induction n with
    | zero =>
      intro v hv hu
      cases HostValue.eq_of_ofValue hu
      exact hv
    | succ n ih =>
      intro v hv hu
      cases hv with
      | thunk hid =>
        simp only [Heap.toHostFrom] at hu
        split at hu
        · rename_i v' hv'
          exact ih v' (hh.thunkValue? hid hv') hu
        · cases hu
          exact .thunk hid
      | alone ha =>
        have hu' : HostValue.ofValue v = .object u := by
          cases v <;> first | exact hu | cases ha
        cases HostValue.eq_of_ofValue hu'
        exact .alone ha
      | closure hc => cases hu; exact .closure hc
      | partialApp hf ha => cases hu; exact .partialApp hf ha
      | cell hid => cases hu; exact .cell hid
  exact step _ v hv hu

theorem Value.Inside.callable? {v : Value} (hv : v.Inside L M) {f : Callable}
    {before : List Value} (hc : v.callable? = some (f, before)) :
    f.Inside L M ∧ ∀ a ∈ before, a.Inside L M := by
  cases hv with
  | alone ha =>
    cases v with
    | builtin b => cases hc; exact ⟨trivial, nofun⟩
    | host d =>
      simp only [Value.callable?] at hc
      split at hc
      · cases hc; exact ⟨trivial, nofun⟩
      · cases hc
    | closure _ | partialApp _ _ => cases ha
    | _ => cases hc
  | closure hs => cases hc; exact ⟨hs, nofun⟩
  | partialApp hf ha =>
    simp only [Value.callable?] at hc
    split at hc
    · cases hc; exact ⟨hf, ha⟩
    · cases hc
  | cell hid => cases hc
  | thunk hid => cases hc

/-! ## Changes of the heap -/

namespace Heap

theorem Inside.scopes_none (hh : h.Inside L) : L.scopes h.scopes.size = none := by
  refine Option.eq_none_iff_forall_ne_some.mpr fun N hN => ?_
  obtain ⟨s, hs, -⟩ := hh.scopes _ N hN
  exact Nat.lt_irrefl _ (Array.getElem?_eq_some_iff.mp hs).1

theorem Inside.thunks_none (hh : h.Inside L) : L.thunks h.thunks.size = none := by
  refine Option.eq_none_iff_forall_ne_some.mpr fun N hN => ?_
  obtain ⟨t, ht, -⟩ := hh.thunks _ N hN
  exact Nat.lt_irrefl _ (Array.getElem?_eq_some_iff.mp ht).1

theorem Inside.cells_none (hh : h.Inside L) : L.cells h.cells.size = none := by
  refine Option.eq_none_iff_forall_ne_some.mpr fun N hN => ?_
  obtain ⟨c, hc, -⟩ := hh.cells _ N hN
  exact Nat.lt_irrefl _ (Array.getElem?_eq_some_iff.mp hc).1

/-- There are further labels: it is enough to look at what got one. -/
theorem Inside.extends (hh : h.Inside L) (hL : L.Extends L')
    (hs : ∀ id N, L'.scopes id = some N → L.scopes id = some N ∨
      ∃ s, h.scopes[id]? = some s ∧ s.Inside L' N)
    (ht : ∀ id N, L'.thunks id = some N → L.thunks id = some N ∨
      ∃ t, h.thunks[id]? = some t ∧ t.Inside L' N)
    (hc : ∀ id N, L'.cells id = some N → L.cells id = some N ∨
      ∃ c, h.cells[id]? = some c ∧ ∀ v, c = some v → v.Inside L' N) : h.Inside L' where
  scopes id N hN := by
    rcases hs id N hN with hold | hnew
    · obtain ⟨s, hs, hin⟩ := hh.scopes id N hold
      exact ⟨s, hs, hin.mono hL⟩
    · exact hnew
  thunks id N hN := by
    rcases ht id N hN with hold | hnew
    · obtain ⟨t, ht, hin⟩ := hh.thunks id N hold
      exact ⟨t, ht, hin.mono hL⟩
    · exact hnew
  cells id N hN := by
    rcases hc id N hN with hold | hnew
    · obtain ⟨c, hc, hin⟩ := hh.cells id N hold
      exact ⟨c, hc, fun v hv => (hin v hv).mono hL subset_rfl⟩
    · exact hnew

theorem Inside.grows (hh : h.Inside L) (g : h.Grows (fun _ => False) h') : h'.Inside L where
  scopes id N hN := by
    obtain ⟨s, hs, hin⟩ := hh.scopes id N hN
    exact ⟨s, g.scopes id s hs, hin⟩
  thunks id N hN := by
    obtain ⟨t, ht, hin⟩ := hh.thunks id N hN
    obtain ⟨state, ht', hstate⟩ := g.thunks id t ht
    obtain rfl := hstate False.elim
    exact ⟨t, ht', hin⟩
  cells id N hN := by
    obtain ⟨c, hc, hin⟩ := hh.cells id N hN
    exact ⟨c, g.cells id c hc, hin⟩

theorem Inside.newScope (hh : h.Inside L) {vars : Table Value} {outer : Option ScopeId}
    (hv : ∀ x v, vars.get? x = some v → v.Inside L M)
    (ho : ∀ o, outer = some o → Covers M (L.scopes o)) :
    (h.newScope vars outer).2.Inside (L.setScope h.scopes.size M) := by
  have hL := Labels.extends_setScope hh.scopes_none M
  refine (hh.grows ((Grows.refl _ h).newScope vars outer)).extends hL (fun id N hN => ?_)
    (fun _ _ hN => .inl hN) fun _ _ hN => .inl hN
  rcases Labeling.update_cases hN with ⟨rfl, rfl⟩ | hold
  · refine .inr ⟨⟨vars, outer⟩, Array.getElem?_push_size, fun x v hx => ?_, fun o hso => ?_⟩
    · exact (hv x v hx).mono hL subset_rfl
    · exact hL.covers_scope (ho o hso)
  · exact .inl hold

theorem Inside.newThunk (hh : h.Inside L) {t : Thunk} (ht : t.Inside L M) :
    (h.newThunk t).2.Inside (L.setThunk h.thunks.size M) := by
  have hL := Labels.extends_setThunk hh.thunks_none M
  refine (hh.grows ((Grows.refl _ h).newThunk t)).extends hL (fun _ _ hN => .inl hN)
    (fun id N hN => ?_) fun _ _ hN => .inl hN
  rcases Labeling.update_cases hN with ⟨rfl, rfl⟩ | hold
  · exact .inr ⟨t, Array.getElem?_push_size, ht.mono hL⟩
  · exact .inl hold

theorem Inside.newCell (hh : h.Inside L) {a : Value} (ha : a.Inside L M) :
    (h.newCell (some a)).2.Inside (L.setCell h.cells.size M) := by
  have hL := Labels.extends_setCell hh.cells_none M
  refine (hh.grows ((Grows.refl _ h).newCell (some a))).extends hL (fun _ _ hN => .inl hN)
    (fun _ _ hN => .inl hN) fun id N hN => ?_
  rcases Labeling.update_cases hN with ⟨rfl, rfl⟩ | hold
  · refine .inr ⟨some a, Array.getElem?_push_size, fun v hv => ?_⟩
    cases hv
    exact ha.mono hL subset_rfl
  · exact .inl hold

/-- A thunk gets another state; its value does not lead beyond its label. -/
theorem Inside.setThunk (hh : h.Inside L) (id : ThunkId) {state : ThunkState}
    (hv : ∀ v N, state = .done v → L.thunks id = some N → v.Inside L N) :
    (h.setThunk id state).Inside L where
  scopes := hh.scopes
  thunks i N hN := by
    obtain ⟨t, ht, hin⟩ := hh.thunks i N hN
    by_cases he : id = i
    · subst he
      exact ⟨{ t with state }, by simp [Heap.setThunk, Array.getElem?_modify, ht], hin.code,
        fun v hs => hv v N hs hN⟩
    · exact ⟨t, by simp [Heap.setThunk, Array.getElem?_modify, he, ht], hin⟩
  cells := hh.cells

theorem Inside.setCell (hh : h.Inside L) (id : CellId) {a : Value}
    (ha : ∀ N, L.cells id = some N → a.Inside L N) : (h.setCell id a).Inside L where
  scopes := hh.scopes
  thunks := hh.thunks
  cells i N hN := by
    obtain ⟨c, hc, hin⟩ := hh.cells i N hN
    by_cases he : id = i
    · subst he
      have hlt := (Array.getElem?_eq_some_iff.mp hc).1
      refine ⟨some a, by simp [Heap.setCell, hlt], fun v hv => ?_⟩
      cases hv
      exact ha N hN
    · exact ⟨c, by simp [Heap.setCell, he, hc], hin⟩

theorem Inside.setVar (hh : h.Inside L) (id : ScopeId) (name : String) {v : Value}
    (hv : ∀ N, L.scopes id = some N → v.Inside L N) : (h.setVar id name v).Inside L where
  scopes i N hN := by
    obtain ⟨s, hs, hin⟩ := hh.scopes i N hN
    by_cases he : id = i
    · subst he
      refine ⟨{ s with vars := s.vars.put name v }, by simp [scopes_setVar, hs], fun x u hx => ?_,
        hin.outer⟩
      rw [Table.get?_put] at hx
      split at hx
      · cases hx
        exact hv N hN
      · exact hin.vars x u hx
    · exact ⟨s, by rw [scopes_setVar, if_neg he, hs], hin⟩
  thunks := hh.thunks
  cells := hh.cells

/-! ### Definitions -/

/-- A binding is made in a scope; its code lies where the scope may lead to. -/
theorem Inside.newBinding (hh : h.Inside L) {b : Binding} {source : String} (hb : b.body.Lies M source)
    {scope : ScopeId} (hs : Covers M (L.scopes scope)) (want : Option BaseType) :
    ∃ L', L.Extends L' ∧ (h.newBinding b scope source want).2.Inside L' ∧
      (h.newBinding b scope source want).1.Inside L' M := by
  unfold Heap.newBinding
  split
  · exact ⟨L, .refl L, hh, .closure ⟨hs, hb⟩⟩
  · refine ⟨_, Labels.extends_setThunk hh.thunks_none M, hh.newThunk ?_,
      .thunk (L.covers_setThunk _ M)⟩
    exact ⟨⟨b.body, scope, rfl, hs, hb⟩, nofun⟩

/-- Definitions are made in a scope; their code lies where the scope may lead to. -/
theorem Inside.define (hh : h.Inside L) {scope : ScopeId} (hs : L.scopes scope = some M)
    {defs : List Definition} (hd : ∀ d ∈ defs, d.binding.body.Lies M d.source) :
    ∃ L', L.Extends L' ∧ (Loader.defineAll scope defs h).2.Inside L' ∧
      ∀ p ∈ (Loader.defineAll scope defs h).1, p.2.Inside L' M := by
  unfold Loader.defineAll
  refine List.foldlRecOn (motive := fun q : Table Value × Heap => ∃ L', L.Extends L' ∧
    q.2.Inside L' ∧ ∀ p ∈ q.1, p.2.Inside L' M) _ _ ⟨L, .refl L, hh, nofun⟩ ?_
  rintro ⟨fields, h₁⟩ ⟨L₁, hL₁, hh₁, hf⟩ d hdm
  have hs₁ := hL₁.scopes _ _ hs
  obtain ⟨L₂, hL₂, hh₂, hv⟩ := hh₁.newBinding (hd d hdm) ⟨M, hs₁, subset_rfl⟩ d.want
  simp only at hf ⊢
  generalize h₁.newBinding d.binding scope d.source d.want = p at hh₂ hv ⊢
  obtain ⟨v, h₂⟩ := p
  refine ⟨L₂, hL₁.trans hL₂, hh₂.setVar scope _ fun N hN => ?_, ?_⟩
  · rw [hL₂.scopes _ _ hs₁] at hN
    cases hN
    exact hv
  · exact Table.forall_put (P := fun _ u => u.Inside L₂ M)
      (fun p hp => (hf p hp).mono hL₂ subset_rfl) hv

end Heap

end

end LazySession
