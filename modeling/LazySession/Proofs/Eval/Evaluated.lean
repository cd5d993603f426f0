import LazySession.Proofs.Eval.Tasks

/-!
# Only variables hold thunks

In a heap that only the language has written to, thunks are found in variables and nowhere else: a
cell, the value of a thunk or an argument has been evaluated before it was put there.
`Machine.proper_next`: evaluation keeps it so, if the functions of the host make no thunks.
-/

namespace LazySession

namespace Value

/-- Neither a thunk nor a function that waits for further arguments. -/
def isAtom : Value → Bool
  | thunk _ | partialApp _ _ => false
  | _ => true

/-- No thunk, and nothing that holds one. -/
inductive Evaluated : Value → Prop
  | atom {v : Value} (h : v.isAtom) : Evaluated v
  | partialApp {fn : Callable} {args : List Value} (h : ∀ a ∈ args, Evaluated a) :
    Evaluated (.partialApp fn args)

theorem isAtom_of_isPlain {v : Value} (h : v.isPlain) : v.isAtom := by
  cases v <;> first | rfl | cases h

theorem Evaluated.ne_thunk {v : Value} (h : v.Evaluated) (id : ThunkId) : v ≠ .thunk id := by
  rintro rfl
  cases h with
  | atom h => cases h

theorem Evaluated.callable? {v : Value} (h : v.Evaluated) {f : Callable} {before : List Value}
    (hc : v.callable? = some (f, before)) : ∀ a ∈ before, a.Evaluated := by
  cases h with
  | partialApp h =>
    simp only [Value.callable?] at hc
    split at hc
    · cases hc; exact h
    · cases hc
  | atom h =>
    cases v with
    | partialApp fn args => cases h
    | host d =>
      simp only [Value.callable?] at hc
      split at hc
      · cases hc; exact List.forall_mem_nil _
      · cases hc
    | closure c | builtin b => cases hc; exact List.forall_mem_nil _
    | _ => cases hc

end Value

/-- The functions of the host make no thunks: an object that one of them gives has been evaluated, or
is a thunk that it was given. -/
def HostLibrary.MakesNoThunks (lib : HostLibrary) : Prop :=
  ∀ name held args vs, lib.call name held args = .ok vs →
    (∀ v, .object v ∈ args → v.Evaluated ∨ ∃ id, v = .thunk id) →
    ∀ v, .object v ∈ vs → v.Evaluated ∨ (∃ id, v = .thunk id) ∧ .object v ∈ args

theorem HostLibrary.makesNoThunks_empty : HostLibrary.empty.MakesNoThunks := by
  intro name held args vs hvs _ v hv
  cases hvs
  cases hv

/-! ## Heaps -/

namespace Heap

/-- What a variable may hold. -/
def Admits (h : Heap) (v : Value) : Prop :=
  v.Evaluated ∨ ∃ id, v = .thunk id ∧ id < h.thunks.size

/-- Thunks are held by variables only. -/
structure Proper (h : Heap) : Prop where
  thunks : ∀ (id : ThunkId) t v, h.thunks[id]? = some t → t.state = .done v → v.Evaluated
  cells : ∀ id v, h.getCell? id = some v → v.Evaluated
  scopes : ∀ (id : ScopeId) sc x v, h.scopes[id]? = some sc → sc.vars.get? x = some v → h.Admits v

variable {h h' : Heap}

theorem Admits.mono {v : Value} (hv : h.Admits v) (hle : h.thunks.size ≤ h'.thunks.size) :
    h'.Admits v := by
  refine hv.imp id fun ht => ?_
  obtain ⟨id, rfl, hlt⟩ := ht
  exact ⟨id, rfl, Nat.lt_of_lt_of_le hlt hle⟩

namespace Proper

theorem lookup (hh : h.Proper) {x : String} {v : Value} (scope : ScopeId)
    (hl : h.lookup scope x = some v) : h.Admits v := by
  induction scope using Nat.strongRecOn with
  | _ scope ih =>
    cases hs : h.scopes[scope]? with
    | none =>
      rw [Heap.lookup] at hl
      simp [hs] at hl
    | some sc =>
      obtain ⟨vars, outer⟩ := sc
      rw [lookup_eq hs] at hl
      cases hx : vars.get? x with
      | some a =>
        rw [hx, Option.some_or] at hl
        cases hl
        exact hh.scopes scope _ x v hs hx
      | none =>
        rw [hx, Option.none_or] at hl
        obtain ⟨o, ho, hl⟩ := Option.bind_eq_some_iff.mp hl
        split at hl
        · rename_i hlt
          exact ih o hlt hl
        · cases hl

theorem setThunk (hh : h.Proper) (id : ThunkId) {state : ThunkState}
    (hs : ∀ v, state = .done v → v.Evaluated) : (h.setThunk id state).Proper where
  thunks i t v ht hv := by
    simp only [Heap.setThunk, Array.getElem?_modify] at ht
    split at ht
    · obtain ⟨t', -, rfl⟩ := Option.map_eq_some_iff.mp ht
      exact hs v hv
    · exact hh.thunks i t v ht hv
  cells := hh.cells
  scopes i sc x v hi hx := (hh.scopes i sc x v hi hx).mono (by simp [Heap.setThunk])

theorem newThunk (hh : h.Proper) {t : Thunk} (ht : t.state = .pending) :
    (h.newThunk t).2.Proper where
  thunks i u v hu hv := by
    simp only [Heap.newThunk, Array.getElem?_push] at hu
    split at hu
    · cases hu
      rw [ht] at hv
      cases hv
    · exact hh.thunks i u v hu hv
  cells := hh.cells
  scopes i sc x v hi hx := (hh.scopes i sc x v hi hx).mono (by simp [Heap.newThunk])

theorem newCell (hh : h.Proper) {v : Value} (hv : v.Evaluated) : (h.newCell (some v)).2.Proper where
  thunks := hh.thunks
  cells i u hu := by
    simp only [Heap.newCell, getCell?, Array.getElem?_push] at hu
    split at hu
    · cases hu
      exact hv
    · exact hh.cells i u hu
  scopes := hh.scopes

theorem newScope (hh : h.Proper) {vars : Table Value} (outer : Option ScopeId)
    (hv : ∀ x v, vars.get? x = some v → h.Admits v) : (h.newScope vars outer).2.Proper where
  thunks := hh.thunks
  cells := hh.cells
  scopes i sc x v hi hx := by
    simp only [Heap.newScope, Array.getElem?_push] at hi
    split at hi
    · cases hi
      exact hv x v hx
    · exact hh.scopes i sc x v hi hx

theorem setVar (hh : h.Proper) (scope : ScopeId) (name : String) {v : Value} (hv : h.Admits v) :
    (h.setVar scope name v).Proper where
  thunks := hh.thunks
  cells := hh.cells
  scopes i sc x u hi hx := by
    simp only [Heap.setVar, Array.getElem?_modify] at hi
    split at hi
    · obtain ⟨sc', hi', rfl⟩ := Option.map_eq_some_iff.mp hi
      rw [Table.get?_put] at hx
      split at hx
      · cases hx
        exact hv
      · exact hh.scopes i sc' x u hi' hx
    · exact hh.scopes i sc x u hi hx

theorem newBinding (hh : h.Proper) (b : Binding) (scope : ScopeId) (source : String)
    (want : Option BaseType) :
    (h.newBinding b scope source want).2.Proper ∧
      (h.newBinding b scope source want).2.Admits (h.newBinding b scope source want).1 := by
  unfold Heap.newBinding
  split
  · exact ⟨hh, .inl (.atom rfl)⟩
  · exact ⟨hh.newThunk rfl, .inr ⟨_, rfl, by simp [Heap.newThunk]⟩⟩

theorem newBindings (scope : ScopeId) (source : String) (bs : List Binding) :
    ∀ {h : Heap}, h.Proper → (h.newBindings bs scope source).Proper := by
  induction bs with
  | nil => exact fun hh => hh
  | cons b bs ih =>
    intro h hh
    obtain ⟨hp, hv⟩ := hh.newBinding b scope source none
    exact ih (hp.setVar scope b.name hv)

theorem toHostFrom {v : Value} (hv : v.Evaluated) (steps : Nat) :
    h.toHostFrom steps v = .ofValue v := by
  cases v with
  | thunk id => exact absurd rfl (hv.ne_thunk id)
  | _ => cases steps <;> rfl

theorem evaluated_toHost {v u : Value} (hv : v.Evaluated) (hu : h.toHost v = .object u) :
    u.Evaluated := by
  rw [Heap.toHost, toHostFrom hv] at hu
  rw [← HostValue.eq_of_ofValue hu]
  exact hv

theorem toHost (hh : h.Proper) {v u : Value} (hv : h.Admits v) (hu : h.toHost v = .object u) :
    u.Evaluated ∨ ∃ id, u = .thunk id := by
  rcases hv with hv | ⟨id, rfl, hlt⟩
  · exact .inl (evaluated_toHost hv hu)
  · obtain ⟨n, hn⟩ := Nat.exists_eq_succ_of_ne_zero (Nat.ne_of_gt (Nat.zero_lt_of_lt hlt))
    rw [Heap.toHost, hn, Heap.toHostFrom] at hu
    split at hu
    · rename_i w hw
      obtain ⟨t, ht, hdone⟩ := Heap.thunkValue?_eq_some.mp hw
      have hev := hh.thunks id t w ht hdone
      rw [toHostFrom hev] at hu
      rw [← HostValue.eq_of_ofValue hu]
      exact .inl hev
    · cases hu
      exact .inr ⟨id, rfl⟩

end Proper

end Heap

/-! ## Application -/

namespace Applied

/-- The value in it has been evaluated, and the other arguments have `P`. -/
def Evaluated (P : Value → Prop) : Applied → Prop
  | done (.ok v) => v.Evaluated
  | done (.error _) => True
  | enter _ _ others => ∀ a ∈ others, P a
  | again v others => v.Evaluated ∧ ∀ a ∈ others, P a

/-- No expression is evaluated any more. -/
def Ends : Applied → Prop
  | done _ => True
  | enter _ _ _ => False
  | again v _ => v.callable? = none

variable {P : Value → Prop}

theorem evaluated_give {v : Value} {others : List Value} (hv : v.Evaluated)
    (ho : ∀ a ∈ others, P a) : (give v others).Evaluated P := by
  cases others with
  | nil => exact hv
  | cons a as => exact ⟨hv, ho⟩

theorem ends_give {v : Value} (hv : v.callable? = none) (others : List Value) :
    (give v others).Ends := by
  cases others with
  | nil => trivial
  | cons a as => exact hv

variable {lib : HostLibrary} {s : EvalState}

/-- A thunk that is given as an argument may come into a cell or be given back by the host, but
neither is a function that evaluates anything. -/
theorem proper_call (hlib : lib.MakesNoThunks) (hh : s.heap.Proper) (pos : Pos) (f : Callable)
    {args others : List Value} (hlen : f.arity ≤ args.length) (ha : ∀ a ∈ args, s.heap.Admits a)
    (ho : ∀ a ∈ others, P a) :
    ((call lib pos f args others s).2.heap.Proper ∧
      (call lib pos f args others s).1.Evaluated P) ∨
    ((∃ a ∈ args, ¬ a.Evaluated) ∧ (call lib pos f args others s).1.Ends) := by
  cases f with
  | closure c =>
    refine .inl ?_
    simp only [call]
    split
    · exact ⟨hh, trivial⟩
    · rename_i vars hb
      refine ⟨hh.newScope _ fun x v hx => ?_, ho⟩
      have hm := (Closure.bindParams_spec hb hlen).1 (x, v)
      exact ha v (hm (List.mem_reverse.mp (Table.mem_of_get? hx)))
  | builtin b =>
    simp only [call]
    split
    · exact .inl ⟨hh, trivial⟩
    · rename_i v h' hb
      rcases Builtin.call_cases hb with ⟨a, _, rfl, rfl, rfl⟩ | ⟨id, _, rfl, hget, rfl⟩ | ⟨hp, rfl⟩
      · by_cases hev : a.Evaluated
        · exact .inl ⟨hh.newCell hev, evaluated_give (.atom rfl) ho⟩
        · exact .inr ⟨⟨a, List.mem_cons_self, hev⟩, ends_give rfl others⟩
      · exact .inl ⟨hh, evaluated_give (hh.cells id v hget) ho⟩
      · exact .inl ⟨hh, evaluated_give (.atom (Value.isAtom_of_isPlain hp)) ho⟩
  | host d =>
    simp only [call]
    split
    · exact .inl ⟨hh, trivial⟩
    · rename_i v hc
      rcases HostData.call_cases hc with rfl | ⟨ps, name, held, vs, r, hargs, hr, rfl⟩
      · exact .inl ⟨hh, evaluated_give (.atom rfl) ho⟩
      · cases r with
        | nil => exact .inl ⟨hh, evaluated_give (.atom rfl) ho⟩
        | data d => exact .inl ⟨hh, evaluated_give (.atom rfl) ho⟩
        | object u =>
          have hgiven : ∀ w, .object w ∈ vs → w.Evaluated ∨ ∃ id, w = .thunk id := fun w hw => by
            obtain ⟨a, hm, hto⟩ := HostData.mem_arguments _ hargs hw
            exact hh.toHost (ha a hm) hto
          rcases hlib name held vs _ hr hgiven u List.mem_cons_self with hu | ⟨⟨id, rfl⟩, hmem⟩
          · exact .inl ⟨hh, evaluated_give hu ho⟩
          · obtain ⟨a, hm, hto⟩ := HostData.mem_arguments _ hargs hmem
            refine .inr ⟨⟨a, hm, fun hev => ?_⟩, ends_give rfl others⟩
            exact (Heap.Proper.evaluated_toHost hev hto).ne_thunk id rfl

theorem proper_round (hlib : lib.MakesNoThunks) (hh : s.heap.Proper) (pos : Pos) {fn : Value}
    (hf : fn.Evaluated) {args : List Value} (ha : ∀ a ∈ args, s.heap.Admits a)
    (hP : ∀ v, v.Evaluated → P v) (hargs : ∀ a ∈ args, P a) :
    ((round lib pos fn args s).2.heap.Proper ∧ (round lib pos fn args s).1.Evaluated P) ∨
    ((∃ a ∈ args, ¬ a.Evaluated) ∧ (round lib pos fn args s).1.Ends) := by
  unfold round
  split
  · exact .inl ⟨hh, trivial⟩
  · rename_i f before hc
    have hbefore := hf.callable? hc
    simp only
    split
    · by_cases hev : ∀ a ∈ args, a.Evaluated
      · refine .inl ⟨hh, .partialApp fun a hm => ?_⟩
        exact (List.mem_append.mp hm).elim (hbefore a) (hev a)
      · exact .inr ⟨by simpa using hev, trivial⟩
    · rename_i hlen
      have hadmits : ∀ a ∈ before ++ args, s.heap.Admits a := fun a hm =>
        (List.mem_append.mp hm).elim (fun hb => .inl (hbefore a hb)) (ha a)
      have hall : ∀ a ∈ before ++ args, P a := fun a hm =>
        (List.mem_append.mp hm).elim (fun hb => hP a (hbefore a hb)) (hargs a)
      refine (proper_call hlib hh pos f ?_ (fun a hm => hadmits a (List.mem_of_mem_take hm))
        fun a hm => hall a (List.mem_of_mem_drop hm)).imp_right fun h => ⟨?_, h.2⟩
      · rw [List.length_take]
        omega
      · obtain ⟨a, hm, hev⟩ := h.1
        rcases List.mem_append.mp (List.mem_of_mem_take hm) with hb | hm
        · exact absurd (hbefore a hb) hev
        · exact ⟨a, hm, hev⟩

end Applied

/-! ## The machine -/

def Control.Evaluated : Control → Prop
  | .eval .. => True
  | .apply _ _ fn args => fn.Evaluated ∧ ∀ a ∈ args, a.Evaluated
  | .give (.ok v) => v.Evaluated
  | .give (.error _) => True

def Frame.Evaluated : Frame → Prop
  | .argument _ _ fn before _ _ => fn.Evaluated ∧ ∀ a ∈ before, a.Evaluated
  | .right _ _ _ l => l.Evaluated
  | .body _ _ _ others => ∀ a ∈ others, a.Evaluated
  | _ => True

namespace Machine

/-- All values that the machine works with have been evaluated, and only variables hold thunks. -/
structure Proper (c : Machine) : Prop where
  heap : c.state.heap.Proper
  control : c.control.Evaluated
  frames : ∀ f ∈ c.frames, f.Evaluated

variable {set : Setting} {c d : Machine} {s : EvalState} {frames : List Frame}

theorem proper_cons {control : Control} {f : Frame} (hh : s.heap.Proper) (hc : control.Evaluated)
    (hf : f.Evaluated) (h : ∀ f ∈ frames, f.Evaluated) : Proper ⟨control, f :: frames, s⟩ := by
  refine ⟨hh, hc, fun g hg => ?_⟩
  rcases List.mem_cons.mp hg with rfl | hg
  · exact hf
  · exact h g hg

section
variable (hh : s.heap.Proper) (h : ∀ f ∈ frames, f.Evaluated)
include hh h

theorem proper_demand (depth : Nat) {v : Value} (hv : s.heap.Admits v) :
    Proper (demand depth v frames s) := by
  unfold demand
  rcases s.demand_cases v with ⟨id, t, e, scope, rfl, ht, hp, hc, hd⟩ | hd | ⟨id, u, rfl, hu, hd⟩ |
    ⟨e, name, hd, -⟩
  · rw [hd]
    exact proper_cons (hh.setThunk id (by simp)) trivial trivial h
  · -- a thunk that is there does not stand for itself
    rw [hd]
    refine ⟨hh, hv.elim id fun ht => ?_, h⟩
    obtain ⟨id, rfl, hlt⟩ := ht
    have hget := Array.getElem?_eq_getElem hlt
    simp only [EvalState.demand, hget] at hd
    cases hst : s.heap.thunks[id].state with
    | done u =>
      simp only [hst] at hd
      cases hd
      exact hh.thunks id _ _ hget hst
    | pending | forcing =>
      cases hcode : s.heap.thunks[id].code <;> simp [hst, hcode] at hd
  · rw [hd]
    obtain ⟨t, ht, hdone⟩ := Heap.thunkValue?_eq_some.mp hu
    exact ⟨hh, hh.thunks id t u ht hdone, h⟩
  · rw [hd]
    exact ⟨hh, trivial, h⟩

theorem proper_arguments (depth : Nat) (pos : Pos) {fn : Value} (hf : fn.Evaluated)
    {before : List Value} (hb : ∀ a ∈ before, a.Evaluated) (after : List Expr) (scope : ScopeId) :
    Proper (arguments depth pos fn before after scope frames s) := by
  cases after with
  | nil => exact ⟨hh, ⟨hf, fun a ha => hb a (List.mem_reverse.mp ha)⟩, h⟩
  | cons a as => exact proper_cons hh trivial ⟨hf, hb⟩ h

theorem proper_operate (depth : Nat) (pos : Pos) (op : Operator) {l r : Value} (hl : l.Evaluated)
    (hr : r.Evaluated) : Proper (operate depth pos op l r frames s) := by
  unfold operate
  split
  · refine ⟨hh, ⟨hl, fun a ha => ?_⟩, h⟩
    rw [List.mem_singleton.mp ha]
    exact hr
  · split
    · rename_i v hv
      exact ⟨hh, .atom (Value.isAtom_of_isPlain (Operator.isPlain_eval hv)), h⟩
    · exact ⟨hh, trivial, h⟩

theorem proper_node (depth : Nat) (e : Expr) (scope : ScopeId) :
    Proper (node depth e scope frames s) := by
  cases e with
  | var p name | qualified p mod name =>
    simp only [node]
    split
    · rename_i v hv
      exact proper_demand hh h depth (hh.lookup scope hv)
    · exact ⟨hh, trivial, h⟩
  | app fn args | binary p op l r | negate p x | cond p test yes no =>
    exact proper_cons hh trivial trivial h
  | operator p op => exact ⟨hh.newScope _ (by simp [Table.get?]), .atom rfl, h⟩
  | letIn p binds body =>
    exact ⟨Heap.Proper.newBindings _ _ _ (hh.newScope _ (by simp [Table.get?])), trivial, h⟩
  | _ => exact ⟨hh, .atom rfl, h⟩

theorem proper_resume {f : Frame} (hf : f.Evaluated) {v : Value} (hv : v.Evaluated) :
    Proper (resume f v frames s) := by
  cases f with
  | function depth pos args scope => exact proper_arguments hh h _ _ hv (List.forall_mem_nil _) _ _
  | argument depth pos fn before after scope =>
    refine proper_arguments hh h _ _ hf.1 (fun a ha => ?_) _ _
    rcases List.mem_cons.mp ha with rfl | ha
    · exact hv
    · exact hf.2 a ha
  | left depth pos op right scope =>
    simp only [resume]
    split
    · split
      · exact ⟨hh, trivial, h⟩
      · exact ⟨hh, .atom rfl, h⟩
      · exact proper_cons hh trivial hv h
    · exact proper_cons hh trivial hv h
  | right depth pos op left => exact proper_operate hh h _ _ _ hf hv
  | negate pos =>
    simp only [resume]
    split
    · exact ⟨hh, .atom rfl, h⟩
    · exact ⟨hh, trivial, h⟩
  | test depth pos yes no scope =>
    simp only [resume]
    split <;> exact ⟨hh, trivial, h⟩
  | thunk id t pos place =>
    have hdone : (s.heap.setThunk id (.done v)).Proper :=
      hh.setThunk id fun u hu => by cases hu; exact hv
    simp only [resume, EvalState.finishThunk]
    split
    · exact ⟨hdone, hv, h⟩
    · split
      · exact ⟨hdone, hv, h⟩
      · exact ⟨hh.setThunk id (by simp), trivial, h⟩
  | body depth pos place others =>
    cases others with
    | nil => exact ⟨hh, hv, h⟩
    | cons a as => exact ⟨hh, ⟨hv, hf⟩, h⟩

end

theorem proper_next (hlib : set.host.MakesNoThunks) (hc : c.Proper)
    (hn : c.next set = .going d) : d.Proper := by
  obtain ⟨control, frames, s⟩ := c
  obtain ⟨hh, hcontrol, h⟩ := hc
  cases control with
  | eval depth e scope =>
    cases hn
    cases depth with
    | zero => exact ⟨hh, trivial, h⟩
    | succ depth =>
      have htick : s.tick.2.heap.Proper := by
        rw [heap_tick]
        exact hh
      simp only [evaluate]
      split
      · exact ⟨htick, trivial, h⟩
      · exact proper_node htick h _ _ _
  | apply depth pos fn args =>
    rw [next_apply] at hn
    cases hn
    obtain ⟨hheap, ha⟩ | ⟨⟨a, hm, hev⟩, -⟩ := Applied.proper_round hlib hh pos hcontrol.1
      (fun a hm => .inl (hcontrol.2 a hm)) (fun _ => id) hcontrol.2
    case inr => exact absurd (hcontrol.2 a hm) hev
    generalize Applied.round set.host pos fn args s = p at hheap ha
    obtain ⟨a, s'⟩ := p
    cases a with
    | done r => cases r <;> exact ⟨hheap, ha, h⟩
    | enter c scope others => exact proper_cons hheap trivial ha h
    | again v others => exact ⟨hheap, ha, h⟩
  | give r =>
    cases frames with
    | nil => cases r <;> cases hn
    | cons f frames =>
      have hfs : ∀ g ∈ frames, g.Evaluated := fun g hg => h g (List.mem_cons_of_mem f hg)
      cases r with
      | ok v => cases hn; exact proper_resume hh hfs (h f List.mem_cons_self) hcontrol
      | error e =>
        cases hn
        cases f with
        | thunk id t pos place => exact ⟨hh.setThunk id (by simp), trivial, hfs⟩
        | _ => exact ⟨hh, trivial, hfs⟩

end Machine

/-! ## Tasks -/

/-- Nothing is left to do, or to find that something is no function. -/
def Control.Ends : Control → Prop
  | .eval .. => False
  | .apply _ _ fn _ => fn.callable? = none
  | .give _ => True

namespace Machine

/-- Like `Proper`, but the arguments that the machine was given to start with may be thunks. -/
inductive Tame : Machine → Prop
  | proper {c : Machine} (h : c.Proper) : Tame c
  /-- In the body of the function that it was given to apply. -/
  | body {c : Machine} {depth : Nat} {pos : Pos} {place : Place} {others : List Value}
    (h : c.Proper) (ho : ∀ a ∈ others, c.state.heap.Admits a) :
    Tame (c.under [.body depth pos place others])
  | apply {depth : Nat} {pos : Pos} {fn : Value} {args : List Value} {s : EvalState}
    (hs : s.heap.Proper) (hf : fn.Evaluated) (ha : ∀ a ∈ args, s.heap.Admits a) :
    Tame ⟨.apply depth pos fn args, [], s⟩
  | ends {c : Machine} (hf : c.frames = []) (hc : c.control.Ends) : Tame c

variable {set : Setting} {c d : Machine}

theorem Tame.ne_thunk (hc : c.Tame) {v : Value} (hv : c.control = .give (.ok v))
    (hf : c.frames ≠ []) (id : ThunkId) : v ≠ .thunk id := by
  have of_proper : ∀ {c : Machine}, c.Proper → c.control = .give (.ok v) → v ≠ .thunk id := by
    intro c hc hv
    have := hc.control
    rw [hv] at this
    exact this.ne_thunk id
  cases hc with
  | proper h => exact of_proper h hv
  | body h ho => exact of_proper h hv
  | apply => cases hv
  | ends hnil hc => exact absurd hnil hf

theorem tame_applied {depth : Nat} {pos : Pos} {a : Applied} {s : EvalState}
    (h : (s.heap.Proper ∧ a.Evaluated s.heap.Admits) ∨ a.Ends) :
    Tame (applied depth pos a [] s) := by
  cases a with
  | done r => exact .ends rfl trivial
  | enter c scope others =>
    obtain ⟨hs, ho⟩ := h.resolve_right id
    exact .body (c := ⟨.eval depth c.body scope, [], s.enter c.source c.traceName⟩)
      ⟨hs, trivial, List.forall_mem_nil _⟩ ho
  | again v others =>
    rcases h with ⟨hs, hv, ho⟩ | h
    · exact .apply hs hv ho
    · exact .ends rfl h

theorem tame_next (hlib : set.host.MakesNoThunks) (hc : c.Tame) (hn : c.next set = .going d) :
    d.Tame := by
  cases hc with
  | proper h => exact .proper (proper_next hlib h hn)
  | @body c depth pos place others h ho =>
    cases hc : c.next set with
    | going e =>
      rw [next_under hc] at hn
      cases hn
      have hsize := (grows_next (.refl Heap.anyThunk _) hc (fun _ _ => trivial)
        fun _ _ => trivial).thunks_size
      exact .body (proper_next hlib h hc) fun a hm => (ho a hm).mono hsize
    | finished r s =>
      -- the body has come to its end
      obtain ⟨control, frames, s'⟩ := c
      rcases control with _ | _ | (e | v) <;> rcases frames with _ | _ <;> cases hc
      · cases hn
        exact .ends rfl trivial
      · cases hn
        cases others with
        | nil => exact .ends rfl trivial
        | cons a as => exact .apply h.heap h.control ho
  | @apply depth pos fn args s hs hf ha =>
    rw [next_apply] at hn
    cases hn
    apply tame_applied
    have hsize := (Applied.grows_round (.refl Heap.anyThunk s.heap) set.host pos fn args).thunks_size
    refine (Applied.proper_round hlib hs pos hf ha
      (P := (Applied.round set.host pos fn args s).2.heap.Admits) (fun v hv => .inl hv)
      fun a hm => (ha a hm).mono hsize).imp_right fun h => h.2
  | ends hnil hc =>
    obtain ⟨control, frames, s⟩ := c
    cases hnil
    cases control with
    | eval depth e scope => cases hc
    | apply depth pos fn args =>
      rw [next_apply] at hn
      cases hn
      rw [Applied.round, show fn.callable? = none from hc]
      exact .ends rfl trivial
    | give r => cases r <;> cases hn

end Machine

/-- Neither a thunk nor something that holds one, or a thunk of the heap. -/
def Task.Admitted (h : Heap) : Task → Prop
  | eval _ _ => True
  | force v => h.Admits v
  | apply _ fn args => h.Admits fn ∧ ∀ a ∈ args, h.Admits a

theorem Task.tame_start {t : Task} {s : EvalState} (hs : s.heap.Proper) (ht : t.Admitted s.heap)
    (depth : Nat) : (t.start depth [] s).Tame := by
  cases t with
  | eval e scope => exact .proper ⟨hs, trivial, List.forall_mem_nil _⟩
  | force v => exact .proper (Machine.proper_demand hs (List.forall_mem_nil _) depth ht)
  | apply pos fn args =>
    rcases ht.1 with hf | ⟨id, rfl, -⟩
    · exact .apply hs hf ht.2
    · exact .ends rfl rfl

end LazySession
