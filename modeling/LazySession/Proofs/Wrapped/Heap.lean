import LazySession.Eval.Apply
import LazySession.Proofs.Eval.Primitive
import LazySession.Proofs.Table

/-!
# Values without wrappers

An integer, a text or a Boolean is a value of its own, or it comes from the host in a wrapper.
`Value.bare` takes the wrapper off; whether Booleans are to lose theirs is a parameter. All that looks
at values and heaps finds the same without wrappers. The one exception are texts: a Boolean of the host
is shown in the host's way, so the text of a value is the same only if it shows none of them:
`Heap.inspect_bare`.
-/

namespace LazySession

variable {bools : Bool}

/-! ## Host data -/

namespace HostData

/-- What a datum wraps, if that is a value of the language: an integer of 64 bits, a text or a
Boolean. -/
def bare (bools : Bool) (d : HostData) : Value :=
  match d.content with
  | .int v => if (Int64.ofInt v).toInt = v then .int (Int64.ofInt v) else .host d
  | .text s => .str s
  | .bool b => if bools then .bool b else .host d
  | _ => .host d

theorem bare_ofInt64 (v : Int64) : (ofInt64 v).bare bools = .int v := by
  simp [bare, ofInt64]

theorem bare_ofText (s : String) : (ofText s).bare bools = .str s := rfl

theorem bare_ofBool (b : Bool) : (ofBool b).bare true = .bool b := rfl

theorem bare_cases (bools : Bool) (d : HostData) :
    d.bare bools = .host d ∨
    (∃ v : Int64, d.content = .int v.toInt ∧ d.bare bools = .int v) ∨
    (∃ s, d.content = .text s ∧ d.bare bools = .str s) ∨
    (∃ b, bools = true ∧ d.content = .bool b ∧ d.bare bools = .bool b) := by
  unfold bare
  split
  · rename_i v hv
    split
    · rename_i hfits
      exact .inr (.inl ⟨_, by rw [hv, hfits], rfl⟩)
    · exact .inl rfl
  · exact .inr (.inr (.inl ⟨_, ‹_›, rfl⟩))
  · split
    · exact .inr (.inr (.inr ⟨_, ‹_›, ‹_›, rfl⟩))
    · exact .inl rfl
  · exact .inl rfl

end HostData

/-! ## Values -/

namespace Value

mutual

/-- The value without wrappers; what a function has been given loses them too. -/
def bare (bools : Bool) : Value → Value
  | .partialApp fn args => .partialApp fn (bareAll bools args)
  | .host d => d.bare bools
  | v => v

def bareAll (bools : Bool) : List Value → List Value
  | [] => []
  | v :: vs => bare bools v :: bareAll bools vs

end

theorem bareAll_eq_map (vs : List Value) : bareAll bools vs = vs.map (bare bools) := by
  induction vs with
  | nil => rfl
  | cons v vs ih => rw [bareAll, ih, List.map_cons]

variable (v : Value)

theorem int?_bare : (v.bare bools).int? = v.int? := by
  cases v with
  | host d =>
    rcases d.bare_cases bools with h | ⟨i, hc, h⟩ | ⟨s, hc, h⟩ | ⟨b, -, hc, h⟩ <;>
      simp [bare, int?, HostData.int?, *]
  | _ => rfl

theorem str?_bare : (v.bare bools).str? = v.str? := by
  cases v with
  | host d =>
    rcases d.bare_cases bools with h | ⟨i, hc, h⟩ | ⟨s, hc, h⟩ | ⟨b, -, hc, h⟩ <;>
      simp [bare, str?, HostData.text?, *]
  | _ => rfl

theorem bool?_bare : (v.bare bools).bool? = v.bool? := by
  cases v with
  | host d =>
    rcases d.bare_cases bools with h | ⟨i, hc, h⟩ | ⟨s, hc, h⟩ | ⟨b, -, hc, h⟩ <;>
      simp [bare, bool?, HostData.bool?, *]
  | _ => rfl

theorem isUnit_bare : (v.bare bools).isUnit = v.isUnit := by
  cases v with
  | host d =>
    rcases d.bare_cases bools with h | ⟨i, hc, h⟩ | ⟨s, hc, h⟩ | ⟨b, -, hc, h⟩ <;> rw [bare, h] <;> rfl
  | _ => rfl

theorem typeName_bare : (v.bare bools).typeName = v.typeName := by
  cases v with
  | host d =>
    rcases d.bare_cases bools with h | ⟨i, hc, h⟩ | ⟨s, hc, h⟩ | ⟨b, -, hc, h⟩ <;>
      simp [bare, typeName, HostData.typeName, *]
  | _ => rfl

theorem conforms_bare (t : BaseType) : (v.bare bools).conforms t = v.conforms t := by
  cases t <;> simp only [conforms, int?_bare, str?_bare, bool?_bare, isUnit_bare]

theorem callable?_bare :
    (v.bare bools).callable? = v.callable?.map fun p => (p.1, p.2.map (bare bools)) := by
  cases v with
  | host d =>
    have hdata : ∀ c, d.content = c → (∀ name held, c ≠ .func name held) → d.arity? = none := by
      intro c hc hne
      unfold HostData.arity?
      split
      · exact absurd (hc.symm.trans ‹_›) (hne _ _)
      · rfl
    rcases d.bare_cases bools with h | ⟨i, hc, h⟩ | ⟨s, hc, h⟩ | ⟨b, -, hc, h⟩
    · simp only [bare, h, callable?]
      split <;> rfl
    all_goals simp [bare, h, callable?, hdata _ hc nofun]
  | partialApp fn args =>
    simp only [bare, callable?, bareAll_eq_map, List.length_map]
    split <;> rfl
  | _ => rfl

theorem bare_of_isPlain {v : Value} (h : v.isPlain) : v.bare bools = v := by
  cases v <;> first | rfl | cases h

theorem bare_ne_thunk {v : Value} (h : ∀ id, v ≠ .thunk id) (id : ThunkId) :
    v.bare bools ≠ .thunk id := by
  cases v with
  | host d =>
    rcases d.bare_cases bools with h | ⟨i, hc, h⟩ | ⟨s, hc, h⟩ | ⟨b, -, hc, h⟩ <;> rw [bare, h] <;> nofun
  | thunk id' => exact absurd rfl (h id')
  | _ => nofun

end Value

/-! ## Operators and parameters -/

namespace Operator

variable (op : Operator) (l r : Value)

theorem eval_bare : op.eval (l.bare bools) (r.bare bools) = op.eval l r := by
  have hequal : equal? (l.bare bools) (r.bare bools) = equal? l r := by
    simp only [equal?, Value.int?_bare, Value.str?_bare, Value.bool?_bare, Value.isUnit_bare]
  have hcompare : compare? (l.bare bools) (r.bare bools) = compare? l r := by
    simp only [compare?, Value.int?_bare, Value.str?_bare]
  simp only [eval, hequal, hcompare, Value.int?_bare, Value.str?_bare, Value.bool?_bare,
    Value.typeName_bare]

theorem shortcut_bare : op.shortcut (l.bare bools) = op.shortcut l := by
  simp only [shortcut, Value.bool?_bare, Value.typeName_bare]

end Operator

/-- Variables without wrappers. -/
def Table.bare (bools : Bool) (t : Table Value) : Table Value :=
  t.map fun p => (p.1, p.2.bare bools)

theorem Closure.bindParams_bare (ps : List Param) : ∀ args : List Value,
    bindParams ps (args.map (Value.bare bools)) = match bindParams ps args with
      | .error v => .error (v.bare bools)
      | .ok t => .ok (t.bare bools) := by
  induction ps with
  | nil => exact fun args => rfl
  | cons param ps ih =>
    intro args
    cases args with
    | nil => cases param <;> rfl
    | cons v vs =>
      cases param with
      | named x =>
        simp only [List.map_cons, bindParams, ih vs]
        cases bindParams ps vs <;> rfl
      | unit =>
        simp only [List.map_cons, bindParams, Value.isUnit_bare, ih vs]
        split <;> rfl

/-! ## Heaps -/

def ThunkState.bare (bools : Bool) : ThunkState → ThunkState
  | .done v => .done (v.bare bools)
  | state => state

def Thunk.bare (bools : Bool) (t : Thunk) : Thunk := { t with state := t.state.bare bools }

def Scope.bare (bools : Bool) (s : Scope) : Scope := { s with vars := s.vars.bare bools }

theorem modify_map {α β : Type} (f : α → β) (g : α → α) (k : β → β) (h : ∀ x, k (f x) = f (g x))
    (xs : Array α) (i : Nat) : (xs.map f).modify i k = (xs.modify i g).map f := by
  apply Array.ext_getElem?
  intro j
  simp only [Array.getElem?_modify, Array.getElem?_map]
  split
  · cases xs[j]? <;> simp [h]
  · rfl

namespace Heap

/-- The heap with no wrapper in it. -/
def bare (bools : Bool) (h : Heap) : Heap where
  thunks := h.thunks.map (·.bare bools)
  cells := h.cells.map (·.map (·.bare bools))
  scopes := h.scopes.map (·.bare bools)

variable (h : Heap)

theorem thunks_bare (id : ThunkId) :
    (h.bare bools).thunks[id]? = h.thunks[id]?.map (·.bare bools) := by
  simp [bare]

theorem getCell?_bare (id : CellId) :
    (h.bare bools).getCell? id = (h.getCell? id).map (·.bare bools) := by
  unfold getCell?
  simp only [bare, Array.getElem?_map]
  cases h.cells[id]? <;> rfl

theorem lookup_bare (x : String) (id : ScopeId) :
    (h.bare bools).lookup id x = (h.lookup id x).map (·.bare bools) := by
  induction id using Nat.strongRecOn with
  | ind id ih =>
    rw [lookup, lookup]
    simp only [bare, Array.getElem?_map]
    cases h.scopes[id]? with
    | none => rfl
    | some s =>
      simp only [Option.map_some, Scope.bare, Table.bare, Table.get?_map_snd]
      cases s.vars.get? x with
      | some v => rfl
      | none =>
        cases s.outer with
        | none => rfl
        | some o =>
          simp only [Option.map_none]
          split
          · exact ih o ‹_›
          · rfl

/-! ### Changes -/

theorem setThunk_bare (id : ThunkId) (state : ThunkState) :
    (h.bare bools).setThunk id (state.bare bools) = (h.setThunk id state).bare bools :=
  congrArg (fun thunks => { h.bare bools with thunks })
    (modify_map (Thunk.bare bools) (fun t => { t with state }) _ (fun _ => rfl) h.thunks id)

theorem newCell_bare (bools : Bool) (c : Option Value) :
    (h.bare bools).newCell (c.map (·.bare bools)) =
      ((h.newCell c).1, (h.newCell c).2.bare bools) := by
  simp [bare, newCell]

theorem newScope_bare (bools : Bool) (vars : Table Value) (outer : Option ScopeId) :
    (h.bare bools).newScope (vars.bare bools) outer =
      ((h.newScope vars outer).1, (h.newScope vars outer).2.bare bools) := by
  simp [bare, newScope, Scope.bare]

theorem setVar_bare (id : ScopeId) (x : String) (v : Value) :
    (h.bare bools).setVar id x (v.bare bools) = (h.setVar id x v).bare bools :=
  congrArg (fun scopes => { h.bare bools with scopes })
    (modify_map (Scope.bare bools) (fun s => { s with vars := s.vars.put x v }) _
      (fun s => congrArg (Scope.mk · s.outer) (Table.put_map_snd (Value.bare bools) s.vars x v))
      h.scopes id)

theorem newBinding_bare (b : Binding) (scope : ScopeId) (source : String) (want : Option BaseType) :
    (h.bare bools).newBinding b scope source want = ((h.newBinding b scope source want).1.bare bools,
      (h.newBinding b scope source want).2.bare bools) := by
  unfold newBinding
  split
  · rfl
  · simp [bare, newThunk, Thunk.bare, ThunkState.bare, Value.bare]

theorem newBindings_bare (bs : List Binding) (scope : ScopeId) (source : String) :
    (h.bare bools).newBindings bs scope source = (h.newBindings bs scope source).bare bools := by
  induction bs generalizing h with
  | nil => rfl
  | cons b bs ih =>
    simp only [newBindings, List.foldl_cons] at ih ⊢
    rw [newBinding_bare, setVar_bare, ih]

/-! ### Texts -/

/-- The text of a value, following at most `steps` cells and thunks, shows a Boolean of the host. -/
def showsHostBoolFrom : (steps : Nat) → (seen : List CellId) → Value → Bool
  | _, _, .host d => d.bool?.isSome
  | steps + 1, seen, .cell id =>
    !seen.contains id && match h.getCell? id with
      | some v => showsHostBoolFrom steps (id :: seen) v
      | none => false
  | steps + 1, seen, .thunk id => match h.thunkValue? id with
    | some v => showsHostBoolFrom steps seen v
    | none => false
  | _, _, _ => false

/-- The text of a value shows a Boolean of the host. -/
def showsHostBool (v : Value) : Bool :=
  h.showsHostBoolFrom (h.cells.size + h.thunks.size) [] v

variable {h}

theorem inspectFrom_bare_host {d : HostData} (hd : bools = true → d.bool? = none) (steps : Nat)
    (seen : List CellId) :
    (h.bare bools).inspectFrom steps seen (d.bare bools) = h.inspectFrom steps seen (.host d) := by
  rcases d.bare_cases bools with he | ⟨v, hc, he⟩ | ⟨s, hc, he⟩ | ⟨b, hb, hc, he⟩
  · simp only [he, inspectFrom]
  · simp [he, inspectFrom, HostData.inspect, HostData.text, hc, Text.ofInt64]
  · simp [he, inspectFrom, HostData.inspect, HostData.text, hc]
  · simp [HostData.bool?, hc, hb] at hd

theorem inspectFrom_bare (n : Nat) : ∀ {seen : List CellId} {v : Value},
    (bools = true → h.showsHostBoolFrom n seen v = false) →
      (h.bare bools).inspectFrom n seen (v.bare bools) = h.inspectFrom n seen v := by
  induction n with
  | zero =>
    intro seen v hv
    cases v with
    | host d => exact inspectFrom_bare_host (by simpa [showsHostBoolFrom] using hv) 0 seen
    | partialApp fn args => simp only [Value.bare, inspectFrom, Value.bareAll_eq_map, List.length_map]
    | thunk id =>
      unfold inspectFrom
      simp only [Value.bare, thunks_bare]
      cases h.thunks[id]? <;> rfl
    | _ => simp only [Value.bare, inspectFrom]
  | succ n ih =>
    intro seen v hv
    cases v with
    | host d => exact inspectFrom_bare_host (by simpa [showsHostBoolFrom] using hv) (n + 1) seen
    | partialApp fn args => simp only [Value.bare, inspectFrom, Value.bareAll_eq_map, List.length_map]
    | cell id =>
      simp only [showsHostBoolFrom] at hv
      simp only [Value.bare, inspectFrom, getCell?_bare]
      split
      · rfl
      · rename_i hseen
        cases hc : h.getCell? id with
        | none => rfl
        | some u =>
          simp only [hc, Bool.eq_false_iff.mpr hseen, Bool.not_false, Bool.true_and] at hv
          simp only [Option.map_some, ih hv]
    | thunk id =>
      simp only [showsHostBoolFrom, thunkValue?] at hv
      unfold inspectFrom
      simp only [Value.bare, thunks_bare]
      rcases ht : h.thunks[id]? with _ | ⟨name, code, source, want, _ | _ | u⟩
      · rfl
      · rfl
      · rfl
      · simp only [ht] at hv
        exact ih hv
    | _ => simp only [Value.bare, inspectFrom]

theorem inspect_bare {v : Value} (hv : bools = true → h.showsHostBool v = false) :
    (h.bare bools).inspect (v.bare bools) = h.inspect v := by
  have hsize : (h.bare bools).cells.size + (h.bare bools).thunks.size =
      h.cells.size + h.thunks.size := by
    simp [bare]
  rw [inspect, inspect, hsize]
  exact inspectFrom_bare _ hv

end Heap

end LazySession
