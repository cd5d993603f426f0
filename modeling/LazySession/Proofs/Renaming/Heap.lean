import LazySession.Proofs.Twin.Value

/-!
# Heaps that differ in names

Thunks may have other numbers in another heap, and the code in it may come from sources of other
names: a `Renaming` says which of them stand for which. Cells and scopes have the same numbers. Some
of them were there before and are out of sight, and so are values of the host.

`Heap.Renamed.lookup`, `Heap.Renamed.inspect`: a name has values that stand for each other, and those
have the same text.
-/

namespace LazySession

/-- The thunks and sources that stand for each other, and the first cell and scope in sight. -/
structure Renaming where
  sources : String → String → Prop
  thunks : ThunkId → ThunkId → Prop
  cell : CellId
  scope : ScopeId

/-! ## Arrays -/

/-- Arrays of one size with related things in the places that stand for each other. A place that is
added stands for itself. -/
structure Corresponds {α : Type} (ρ : Nat → Nat → Prop) (R : α → α → Prop) (xs ys : Array α) :
    Prop where
  size : ys.size = xs.size
  unique : OneToOne ρ
  later : ∀ i, xs.size ≤ i → ρ i i
  related : ∀ {a b}, ρ a b → Option.Rel R xs[a]? ys[b]?

namespace Corresponds

variable {α : Type} {ρ : Nat → Nat → Prop} {R : α → α → Prop} {xs ys : Array α}

theorem push (c : Corresponds ρ R xs ys) {x y : α} (hxy : R x y) :
    Corresponds ρ R (xs.push x) (ys.push y) where
  size := by simp [c.size]
  unique := c.unique
  later i hi := c.later i (Nat.le_of_succ_le (by simpa using hi))
  related {a b} hab := by
    -- the new place stands for the new place only
    have hnew := c.unique hab (c.later xs.size (Nat.le_refl _))
    rw [Array.getElem?_push, Array.getElem?_push, c.size]
    by_cases ha : a = xs.size
    · rw [if_pos ha, if_pos (hnew.mp ha)]
      exact .some hxy
    · rw [if_neg ha, if_neg (ha ∘ hnew.mpr)]
      exact c.related hab

theorem modify (c : Corresponds ρ R xs ys) {a b : Nat} (hab : ρ a b) {f g : α → α}
    (hfg : ∀ x y, R x y → R (f x) (g y)) : Corresponds ρ R (xs.modify a f) (ys.modify b g) where
  size := by simp [c.size]
  unique := c.unique
  later i hi := c.later i (by simpa using hi)
  related {a' b'} hab' := by
    have hsame := c.unique hab hab'
    rw [Array.getElem?_modify, Array.getElem?_modify]
    by_cases ha : a = a'
    · rw [if_pos ha, if_pos (hsame.mp ha)]
      rcases rel_cases (c.related hab') with ⟨hx, hy⟩ | ⟨x, y, hx, hy, hxy⟩
      · rw [hx, hy]
        exact .none
      · rw [hx, hy]
        exact .some (hfg x y hxy)
    · rw [if_neg ha, if_neg (ha ∘ hsame.mpr)]
      exact c.related hab'

end Corresponds

/-- The same number, not below a bound. -/
def sameFrom (n : Nat) (a b : Nat) : Prop := b = a ∧ n ≤ a

theorem oneToOne_sameFrom (n : Nat) : OneToOne (sameFrom n) := by
  rintro a b a' b' ⟨rfl, -⟩ ⟨rfl, -⟩
  exact Iff.rfl

/-! ## Values -/

/-- Functions that differ in their sources only. -/
structure Closure.Renamed (r : Renaming) (c c' : Closure) : Prop where
  scope : r.scope ≤ c.scope
  source : r.sources c.source c'.source
  same : c' = { c with source := c'.source }

inductive Callable.Renamed (r : Renaming) : Callable → Callable → Prop
  | closure {c c' : Closure} (h : c.Renamed r c') : Renamed r (.closure c) (.closure c')
  | builtin (b : Builtin) : Renamed r (.builtin b) (.builtin b)

/-- Values that stand for each other. -/
inductive Value.Renamed (r : Renaming) : Value → Value → Prop
  | int (v : Int64) : Renamed r (.int v) (.int v)
  | bool (b : Bool) : Renamed r (.bool b) (.bool b)
  | str (s : String) : Renamed r (.str s) (.str s)
  | unit : Renamed r .unit .unit
  | closure {c c' : Closure} (h : c.Renamed r c') : Renamed r (.closure c) (.closure c')
  | builtin (b : Builtin) : Renamed r (.builtin b) (.builtin b)
  | partialApp {fn fn' : Callable} {args args' : List Value} (hf : fn.Renamed r fn')
    (hlength : args.length = args'.length) (ha : ∀ x ∈ args.zip args', Renamed r x.1 x.2) :
    Renamed r (.partialApp fn args) (.partialApp fn' args')
  | cell {id : CellId} (h : r.cell ≤ id) : Renamed r (.cell id) (.cell id)
  | thunk {a b : ThunkId} (h : r.thunks a b) : Renamed r (.thunk a) (.thunk b)

abbrev Value.AllRenamed (r : Renaming) : List Value → List Value → Prop :=
  List.Forall₂ (Value.Renamed r)

section
variable {r : Renaming}

namespace Closure

variable {c c' : Closure}

theorem Renamed.params (h : c.Renamed r c') : c'.params = c.params := by rw [h.same]; rfl

theorem Renamed.arity (h : c.Renamed r c') : c'.arity = c.arity := by rw [h.same]; rfl

theorem Renamed.inspect (h : c.Renamed r c') : c'.inspect = c.inspect := by rw [h.same]; rfl

theorem Renamed.body (h : c.Renamed r c') : c'.body = c.body := by rw [h.same]

theorem Renamed.scope_eq (h : c.Renamed r c') : c'.scope = c.scope := by rw [h.same]

theorem Renamed.traceName (h : c.Renamed r c') : c'.traceName = c.traceName := by rw [h.same]; rfl

end Closure

namespace Callable

variable {f f' : Callable}

theorem Renamed.arity (h : f.Renamed r f') : f'.arity = f.arity := by
  cases h with
  | closure h => exact h.arity
  | builtin b => rfl

theorem Renamed.inspect (h : f.Renamed r f') : f'.inspect = f.inspect := by
  cases h with
  | closure h => exact h.inspect
  | builtin b => rfl

end Callable

namespace Value

variable {v v' : Value}

theorem Renamed.int? (h : v.Renamed r v') : v'.int? = v.int? := by cases h <;> rfl

theorem Renamed.bool? (h : v.Renamed r v') : v'.bool? = v.bool? := by cases h <;> rfl

theorem Renamed.str? (h : v.Renamed r v') : v'.str? = v.str? := by cases h <;> rfl

theorem Renamed.isUnit (h : v.Renamed r v') : v'.isUnit = v.isUnit := by cases h <;> rfl

theorem Renamed.typeName (h : v.Renamed r v') : v'.typeName = v.typeName := by cases h <;> rfl

theorem Renamed.conforms (h : v.Renamed r v') (t : BaseType) : v'.conforms t = v.conforms t := by
  cases t <;> simp only [Value.conforms, h.int?, h.bool?, h.str?, h.isUnit]

theorem renamed_of_isPlain (h : v.isPlain) : v.Renamed r v := by
  cases v with
  | int v => exact .int v
  | bool b => exact .bool b
  | str s => exact .str s
  | unit => exact .unit
  | _ => cases h

theorem renamed_partialApp {fn fn' : Callable} {args args' : List Value} (hf : fn.Renamed r fn')
    (ha : AllRenamed r args args') : (Value.partialApp fn args).Renamed r (.partialApp fn' args') :=
  .partialApp hf ha.length_eq fun _ hx => (List.forall₂_iff_zip.mp ha).2 hx

theorem Renamed.callable? (h : v.Renamed r v') :
    Option.Rel (fun x y => x.1.Renamed r y.1 ∧ AllRenamed r x.2 y.2) v.callable? v'.callable? := by
  cases h with
  | closure h => exact .some ⟨.closure h, .nil⟩
  | builtin b => exact .some ⟨.builtin b, .nil⟩
  | partialApp hf hlength ha =>
    simp only [Value.callable?, hf.arity, ← hlength]
    split
    · exact .some ⟨hf, List.forall₂_iff_zip.mpr ⟨hlength, fun hx => ha _ hx⟩⟩
    · exact .none
  | _ => exact .none

end Value

/-! ## Operators and parameters -/

namespace Operator

variable {a a' b b' : Value}

theorem eval_renamed (op : Operator) (ha : a.Renamed r a') (hb : b.Renamed r b') :
    op.eval a' b' = op.eval a b := by
  have hequal : equal? a' b' = equal? a b := by
    simp only [equal?, ha.int?, ha.str?, ha.bool?, ha.isUnit, hb.int?, hb.str?, hb.bool?, hb.isUnit]
  have hcompare : compare? a' b' = compare? a b := by
    simp only [compare?, ha.int?, ha.str?, hb.int?, hb.str?]
  simp only [eval, hequal, hcompare, ha.int?, ha.str?, ha.typeName, hb.int?, hb.str?, hb.bool?,
    hb.typeName]

theorem shortcut_renamed (op : Operator) (ha : a.Renamed r a') : op.shortcut a' = op.shortcut a := by
  simp only [shortcut, ha.bool?, ha.typeName]

end Operator

/-- The parameters of a function take both lists of arguments, or neither. -/
theorem Closure.bindParams_renamed (ps : List Param) :
    ∀ {args args' : List Value}, Value.AllRenamed r args args' →
      (∃ v v', bindParams ps args = .error v ∧ bindParams ps args' = .error v' ∧ v.Renamed r v') ∨
      (∃ t t', bindParams ps args = .ok t ∧ bindParams ps args' = .ok t' ∧
        t.Twin (Value.Renamed r) t') := by
  induction ps with
  | nil => intro args args' _; exact .inr ⟨[], [], rfl, rfl, .nil⟩
  | cons param ps ih =>
    intro args args' h
    cases h with
    | nil => cases param <;> exact .inr ⟨[], [], rfl, rfl, .nil⟩
    | @cons v v' vs vs' hv hvs =>
      cases param with
      | named x =>
        rcases ih hvs with ⟨u, u', he, he', hu⟩ | ⟨t, t', he, he', ht⟩
        · exact .inl ⟨u, u', by simp only [bindParams, he]; rfl, by simp only [bindParams, he']; rfl,
            hu⟩
        · exact .inr ⟨(x, v) :: t, (x, v') :: t', by simp only [bindParams, he]; rfl,
            by simp only [bindParams, he']; rfl, .cons ⟨rfl, hv⟩ ht⟩
      | unit =>
        simp only [bindParams, hv.isUnit]
        split
        · exact ih hvs
        · exact .inl ⟨v, v', rfl, rfl, hv⟩

/-! ## Heaps -/

inductive ThunkState.Renamed (r : Renaming) : ThunkState → ThunkState → Prop
  | pending : Renamed r .pending .pending
  | forcing : Renamed r .forcing .forcing
  | done {v v' : Value} (h : v.Renamed r v') : Renamed r (.done v) (.done v')

/-- What a frame remembers of thunks that stand for each other. -/
structure Thunk.Called (r : Renaming) (t t' : Thunk) : Prop where
  name : t'.name = t.name
  source : r.sources t.source t'.source
  want : t'.want = t.want

structure Thunk.Renamed (r : Renaming) (t t' : Thunk) : Prop extends Thunk.Called r t t' where
  code : t'.code = t.code
  scope : ∀ e id, t.code = some (e, id) → r.scope ≤ id
  state : t.state.Renamed r t'.state

/-- Scopes may have their names in another order. -/
structure Scope.Renamed (r : Renaming) (s s' : Scope) : Prop where
  vars : ∀ x, Option.Rel (Value.Renamed r) (s.vars.get? x) (s'.vars.get? x)
  outer : s'.outer = s.outer
  inner : ∀ id, s.outer = some id → r.scope ≤ id

structure Heap.Renamed (r : Renaming) (h h' : Heap) : Prop where
  thunks : Corresponds r.thunks (Thunk.Renamed r) h.thunks h'.thunks
  cells : Corresponds (sameFrom r.cell) (Option.Rel (Value.Renamed r)) h.cells h'.cells
  scopes : Corresponds (sameFrom r.scope) (Scope.Renamed r) h.scopes h'.scopes

namespace Heap

variable {h h' : Heap}

/-! ### Reading -/

theorem Renamed.lookup (hh : h.Renamed r h') (x : String) (id : ScopeId) : r.scope ≤ id →
    Option.Rel (Value.Renamed r) (h.lookup id x) (h'.lookup id x) := by
  -- outer scopes have smaller numbers, and are in sight as well
  induction id using Nat.strongRecOn with
  | ind id ih =>
    intro hid
    rw [Heap.lookup, Heap.lookup]
    rcases rel_cases (hh.scopes.related ⟨rfl, hid⟩) with ⟨hs, hs'⟩ | ⟨s, s', hs, hs', hss⟩
    · rw [hs, hs']
      exact .none
    · simp only [hs, hs', hss.outer]
      rcases rel_cases (hss.vars x) with ⟨hx, hx'⟩ | ⟨v, v', hx, hx', hv⟩
      · simp only [hx, hx']
        cases ho : s.outer with
        | none => exact .none
        | some o =>
          simp only
          split
          · exact ih o ‹_› (hss.inner o ho)
          · exact .none
      · simp only [hx, hx']
        exact .some hv

theorem Renamed.getCell? (hh : h.Renamed r h') {id : CellId} (hid : r.cell ≤ id) :
    Option.Rel (Value.Renamed r) (h.getCell? id) (h'.getCell? id) := by
  unfold Heap.getCell?
  rcases rel_cases (hh.cells.related ⟨rfl, hid⟩) with ⟨hc, hc'⟩ | ⟨c, c', hc, hc', hcc⟩
  · rw [hc, hc']
    exact .none
  · rw [hc, hc']
    exact hcc

theorem Renamed.thunk_cases (hh : h.Renamed r h') {a b : ThunkId} (hab : r.thunks a b) :
    (h.thunks[a]? = none ∧ h'.thunks[b]? = none) ∨
      ∃ t t', h.thunks[a]? = some t ∧ h'.thunks[b]? = some t' ∧ t.Renamed r t' :=
  rel_cases (hh.thunks.related hab)

theorem Renamed.inspectFrom (hh : h.Renamed r h') (n : Nat) : ∀ (seen : List CellId) {v v' : Value},
    v.Renamed r v' → h'.inspectFrom n seen v' = h.inspectFrom n seen v := by
  induction n with
  | zero =>
    intro seen v v' hv
    cases hv with
    | closure hc => simp only [Heap.inspectFrom, hc.inspect]
    | partialApp hf hlength _ => simp only [Heap.inspectFrom, hf.inspect, hlength]
    | thunk hab =>
      unfold Heap.inspectFrom
      rcases hh.thunk_cases hab with ⟨ht, ht'⟩ | ⟨t, t', ht, ht', htt⟩
      · simp only [ht, ht']
      · simp only [ht, ht', htt.name]
    | _ => simp only [Heap.inspectFrom]
  | succ n ih =>
    intro seen v v' hv
    cases hv with
    | closure hc => simp only [Heap.inspectFrom, hc.inspect]
    | partialApp hf hlength _ => simp only [Heap.inspectFrom, hf.inspect, hlength]
    | cell hid =>
      simp only [Heap.inspectFrom]
      split
      · rfl
      · rcases rel_cases (hh.getCell? hid) with ⟨hc, hc'⟩ | ⟨u, u', hc, hc', hu⟩
        · simp only [hc, hc']
        · simp only [hc, hc', ih _ hu]
    | thunk hab =>
      unfold Heap.inspectFrom
      rcases hh.thunk_cases hab with ⟨ht, ht'⟩ | ⟨⟨_, _, _, _, st⟩, ⟨_, _, _, _, st'⟩, ht, ht', htt⟩
      · simp only [ht, ht']
      · have hname := htt.name
        have hstate := htt.state
        simp only at hname hstate
        simp only [ht, ht', hname]
        cases hstate with
        | pending => rfl
        | forcing => rfl
        | done hv => exact ih seen hv
    | _ => simp only [Heap.inspectFrom]

theorem Renamed.inspect (hh : h.Renamed r h') {v v' : Value} (hv : v.Renamed r v') :
    h'.inspect v' = h.inspect v := by
  unfold Heap.inspect
  rw [hh.cells.size, hh.thunks.size]
  exact hh.inspectFrom _ [] hv

/-! ### Writing -/

theorem Renamed.newThunk (hh : h.Renamed r h') {t t' : Thunk} (ht : t.Renamed r t') :
    (h.newThunk t).2.Renamed r (h'.newThunk t').2 :=
  ⟨hh.thunks.push ht, hh.cells, hh.scopes⟩

theorem Renamed.setThunk (hh : h.Renamed r h') {a b : ThunkId} (hab : r.thunks a b)
    {s s' : ThunkState} (hs : s.Renamed r s') : (h.setThunk a s).Renamed r (h'.setThunk b s') where
  thunks := by
    simp only [Heap.setThunk]
    refine hh.thunks.modify hab ?_
    exact fun _ _ ht => ⟨⟨ht.name, ht.source, ht.want⟩, ht.code, ht.scope, hs⟩
  cells := hh.cells
  scopes := hh.scopes

theorem Renamed.newCell (hh : h.Renamed r h') {v v' : Value} (hv : v.Renamed r v') :
    (h.newCell (some v)).2.Renamed r (h'.newCell (some v')).2 :=
  ⟨hh.thunks, hh.cells.push (.some hv), hh.scopes⟩

theorem Renamed.newScope (hh : h.Renamed r h') {vars vars' : Table Value} {outer : Option ScopeId}
    (hs : Scope.Renamed r ⟨vars, outer⟩ ⟨vars', outer⟩) :
    (h.newScope vars outer).2.Renamed r (h'.newScope vars' outer).2 :=
  ⟨hh.thunks, hh.cells, hh.scopes.push hs⟩

theorem Renamed.setVar (hh : h.Renamed r h') {id : ScopeId} (hid : r.scope ≤ id) (x : String)
    {v v' : Value} (hv : v.Renamed r v') : (h.setVar id x v).Renamed r (h'.setVar id x v') where
  thunks := hh.thunks
  cells := hh.cells
  scopes := by
    simp only [Heap.setVar]
    refine hh.scopes.modify ⟨rfl, hid⟩ ?_
    refine fun s s' hs => ⟨fun y => ?_, hs.outer, hs.inner⟩
    simp only [Table.get?_put]
    split
    · exact .some hv
    · exact hs.vars y

theorem Renamed.size_cells (hh : h.Renamed r h') :
    h'.cells.size = h.cells.size ∧ r.cell ≤ h.cells.size :=
  ⟨hh.cells.size, (hh.cells.later _ (Nat.le_refl _)).2⟩

theorem Renamed.size_scopes (hh : h.Renamed r h') :
    h'.scopes.size = h.scopes.size ∧ r.scope ≤ h.scopes.size :=
  ⟨hh.scopes.size, (hh.scopes.later _ (Nat.le_refl _)).2⟩

theorem Renamed.newBinding (hh : h.Renamed r h') (b : Binding) {scope : ScopeId}
    (hs : r.scope ≤ scope) {source source' : String} (hsource : r.sources source source')
    (want : Option BaseType) :
    (h.newBinding b scope source want).1.Renamed r (h'.newBinding b scope source' want).1 ∧
      (h.newBinding b scope source want).2.Renamed r (h'.newBinding b scope source' want).2 := by
  unfold Heap.newBinding
  split
  · exact ⟨.closure ⟨hs, hsource, rfl⟩, hh⟩
  · refine ⟨.thunk ?_, hh.newThunk ⟨⟨rfl, hsource, rfl⟩, rfl, ?_, .pending⟩⟩
    · simp only [Heap.newThunk, hh.thunks.size]
      exact hh.thunks.later _ (Nat.le_refl _)
    · rintro _ _ ⟨⟩
      exact hs

theorem Renamed.newBindings {scope : ScopeId} (hs : r.scope ≤ scope) {source source' : String}
    (hsource : r.sources source source') (bs : List Binding) : ∀ {h h' : Heap}, h.Renamed r h' →
      (h.newBindings bs scope source).Renamed r (h'.newBindings bs scope source') := by
  induction bs with
  | nil => exact fun hh => hh
  | cons b bs ih =>
    intro h h' hh
    obtain ⟨hv, hh'⟩ := hh.newBinding b hs hsource none
    exact ih (hh'.setVar hs b.name hv)

end Heap

end

end LazySession
