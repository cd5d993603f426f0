import LazySession.Proofs.Eval.Growth

/-!
# Evaluation with more room

Two machines do the same work, the second of them with some more levels of nesting, or without
anybody who calls it off, or on a heap that looks the same. `Machine.eased_next` compares one step,
`Machine.eased_run` a whole run: they come to the same result, unless the first ends in the error of
a limit that the second does not have.
-/

namespace LazySession

/-! ## Heaps that look the same -/

/-- Evaluation cannot tell heaps in the relation apart, and what it does keeps them in it. -/
structure Heap.Congruence (R : Heap → Heap → Prop) : Prop where
  thunks {h h' : Heap} : R h h' → h'.thunks = h.thunks
  cells {h h' : Heap} : R h h' → h'.cells = h.cells
  scopes_size {h h' : Heap} : R h h' → h'.scopes.size = h.scopes.size
  lookup {h h' : Heap} : R h h' → ∀ id name, h'.lookup id name = h.lookup id name
  newThunk {h h' : Heap} : R h h' → ∀ t, R (h.newThunk t).2 (h'.newThunk t).2
  setThunk {h h' : Heap} : R h h' → ∀ id state, R (h.setThunk id state) (h'.setThunk id state)
  newCell {h h' : Heap} : R h h' → ∀ v, R (h.newCell v).2 (h'.newCell v).2
  newScope {h h' : Heap} : R h h' → ∀ vars outer, R (h.newScope vars outer).2 (h'.newScope vars outer).2
  setVar {h h' : Heap} : R h h' → ∀ id name v, R (h.setVar id name v) (h'.setVar id name v)

namespace Heap

theorem congruence_eq : Congruence Eq where
  thunks h := by rw [h]
  cells h := by rw [h]
  scopes_size h := by rw [h]
  lookup h _ _ := by rw [h]
  newThunk h _ := by rw [h]
  setThunk h _ _ := by rw [h]
  newCell h _ := by rw [h]
  newScope h _ _ := by rw [h]
  setVar h _ _ _ := by rw [h]

section
variable {h h' : Heap} (ht : h'.thunks = h.thunks) (hc : h'.cells = h.cells)
include ht

theorem toHost_congr (v : Value) : h'.toHost v = h.toHost v := by
  have hvalue : ∀ id, h'.thunkValue? id = h.thunkValue? id := by
    intro id
    simp only [thunkValue?, ht]
  have step : ∀ (n : Nat) (v : Value), h'.toHostFrom n v = h.toHostFrom n v := by
    intro n
    induction n with
    | zero => intro v; cases v <;> rfl
    | succ n ih =>
      intro v
      cases v with
      | thunk id => simp only [toHostFrom, hvalue, ih]
      | _ => rfl
  simp only [toHost, ht, step]

include hc

theorem inspect_congr (v : Value) : h'.inspect v = h.inspect v := by
  have hcell : ∀ id, h'.getCell? id = h.getCell? id := by
    intro id
    simp only [getCell?, hc]
  have step : ∀ (n : Nat) (seen : List CellId) (v : Value),
      h'.inspectFrom n seen v = h.inspectFrom n seen v := by
    intro n
    induction n with
    | zero =>
      intro seen v
      cases v with
      | thunk id =>
        unfold inspectFrom
        rw [ht]
        cases h.thunks[id]? <;> rfl
      | _ => rfl
    | succ n ih =>
      intro seen v
      cases v with
      | thunk id =>
        unfold inspectFrom
        rw [ht]
        rcases h.thunks[id]? with _ | ⟨_, _, _, _, _ | _ | v⟩
        · rfl
        · rfl
        · rfl
        · exact ih seen v
      | cell id => simp only [inspectFrom, hcell, ih]
      | _ => rfl
  simp only [inspect, ht, hc, step]

end

/-- The same value and heaps in the relation, or the same fault. -/
def Outcome (R : Heap → Heap → Prop) :
    Except RuntimeFault (Value × Heap) → Except RuntimeFault (Value × Heap) → Prop
  | .ok (v, h), .ok (v', h') => v' = v ∧ R h h'
  | .error f, .error f' => f' = f
  | _, _ => False

namespace Congruence

variable {R : Heap → Heap → Prop} (hR : Congruence R) {h h' : Heap}
include hR

theorem newBinding (hh : R h h') (b : Binding) (scope : ScopeId) (source : String)
    (want : Option BaseType) :
    (h'.newBinding b scope source want).1 = (h.newBinding b scope source want).1 ∧
      R (h.newBinding b scope source want).2 (h'.newBinding b scope source want).2 := by
  unfold Heap.newBinding
  split
  · exact ⟨rfl, hh⟩
  · refine ⟨?_, hR.newThunk hh _⟩
    simp only [Heap.newThunk, hR.thunks hh]

theorem newBindings (scope : ScopeId) (source : String) (bs : List Binding) :
    ∀ {h h' : Heap}, R h h' → R (h.newBindings bs scope source) (h'.newBindings bs scope source) := by
  induction bs with
  | nil => intro h h' hh; exact hh
  | cons b bs ih =>
    intro h h' hh
    obtain ⟨hv, hh'⟩ := hR.newBinding hh b scope source none
    apply ih
    show R ((h.newBinding b scope source none).2.setVar scope b.name
        (h.newBinding b scope source none).1)
      ((h'.newBinding b scope source none).2.setVar scope b.name
        (h'.newBinding b scope source none).1)
    rw [hv]
    exact hR.setVar hh' _ _ _

theorem showText (hh : R h h') (v : Value) : Builtin.showText h' v = Builtin.showText h v := by
  simp only [Builtin.showText, inspect_congr (hR.thunks hh) (hR.cells hh)]

theorem call (hh : R h h') (b : Builtin) (args : List Value) :
    Outcome R (b.call h args) (b.call h' args) := by
  have hcell : ∀ id, h'.getCell? id = h.getCell? id := by
    intro id
    simp only [getCell?, hR.cells hh]
  unfold Builtin.call
  split
  · exact ⟨by simp only [hR.cells hh], hR.newCell hh _⟩
  · rename_i v
    cases v with
    | cell id =>
      simp only [hcell]
      cases h.getCell? id with
      | none => rfl
      | some v => exact ⟨rfl, hh⟩
    | _ => rfl
  · exact ⟨by rw [hR.showText hh], hh⟩
  · rename_i v
    cases v.bool? with
    | none => rfl
    | some b => exact ⟨rfl, hh⟩
  · rename_i v
    cases v.int? with
    | none => rfl
    | some b => exact ⟨rfl, hh⟩
  · rename_i x y
    cases Builtin.divisionArgs .div x y with
    | error f => rfl
    | ok mn => exact ⟨rfl, hh⟩
  · rename_i x y
    cases Builtin.divisionArgs .mod x y with
    | error f => rfl
    | ok mn => exact ⟨rfl, hh⟩
  · rename_i v
    cases v.str? with
    | none => rfl
    | some s => exact ⟨rfl, hh⟩
  · simp only [inspect_congr (hR.thunks hh) (hR.cells hh), Outcome]
  · exact ⟨rfl, hh⟩

theorem hostCall (hh : R h h') (lib : HostLibrary) (d : HostData) (args : List Value) :
    d.call lib h' args = d.call lib h args := by
  have harg : ∀ v t, HostData.argument? h' v t = HostData.argument? h v t := by
    intro v t
    simp only [HostData.argument?, toHost_congr (hR.thunks hh)]
  have hargs : ∀ (vs : List Value) (number : Nat) (ts : List HostType),
      HostData.arguments h' number vs ts = HostData.arguments h number vs ts := by
    intro vs
    induction vs with
    | nil => intro number ts; rfl
    | cons v vs ih =>
      intro number ts
      cases ts with
      | nil => rfl
      | cons t ts => simp only [HostData.arguments, harg, ih]
  simp only [HostData.call, hargs]

end Congruence

end Heap

/-! ## States -/

/-- What the second of two evaluations has more than the first. -/
structure Slack where
  levels : Nat
  /-- Nobody calls it off. -/
  endless : Bool

namespace Slack

def ease (k : Slack) (p : Patience) : Patience := if k.endless then .endless else p

/-- The error of a limit that only the first evaluation has. -/
def Spares (k : Slack) (limit : Nat) (e : RuntimeError) : Prop :=
  k.levels ≠ 0 ∧ e.fault = .overflow limit ∨ k.endless ∧ e.cause = some .canceled

end Slack

structure EvalState.Eased (R : Heap → Heap → Prop) (k : Slack) (s s' : EvalState) : Prop where
  heap : R s.heap s'.heap
  same : s' = { s with heap := s'.heap, patience := k.ease s.patience }

namespace EvalState.Eased

variable {R : Heap → Heap → Prop} {k : Slack} {s s' : EvalState} (h : s.Eased R k s')
include h

theorem place_eq : s'.place = s.place := by rw [h.same]

theorem error_eq (pos : Pos) (fault : RuntimeFault) : s'.error pos fault = s.error pos fault := by
  simp only [EvalState.error, h.place_eq]

theorem withHeap {g g' : Heap} (hg : R g g') :
    ({ s with heap := g } : EvalState).Eased R k { s' with heap := g' } :=
  ⟨hg, by rw [h.same]⟩

theorem enter (source name : String) : (s.enter source name).Eased R k (s'.enter source name) :=
  ⟨h.heap, by rw [h.same]; rfl⟩

theorem leave (place : Place) : (s.leave place).Eased R k (s'.leave place) :=
  ⟨h.heap, by rw [h.same]; rfl⟩

theorem tick : s.tick.2.Eased R k s'.tick.2 ∧
    (s'.tick.1 = s.tick.1 ∨ k.endless ∧ s.tick.1 = true) := by
  obtain ⟨heap', patience', steps', place'⟩ := s'
  have hsame := h.same
  simp only [EvalState.mk.injEq, true_and] at hsame
  obtain ⟨rfl, rfl, rfl⟩ := hsame
  have hheap := h.heap
  unfold EvalState.tick
  simp only
  split
  · cases hk : k.endless with
    | false =>
      simp only [Slack.ease, hk, Bool.false_eq_true, if_false]
      exact ⟨⟨hheap, by simp [Slack.ease, hk]⟩, .inl trivial⟩
    | true =>
      simp only [Slack.ease, hk, if_true]
      refine ⟨⟨hheap, by simp [Slack.ease, hk, Patience.inquire]⟩, ?_⟩
      cases s.patience.inquire.1 with
      | false => exact .inl rfl
      | true => exact .inr ⟨trivial, rfl⟩
  · exact ⟨⟨hheap, rfl⟩, .inl rfl⟩

section
variable (hR : Heap.Congruence R)
include hR

theorem demand (v : Value) : s'.demand v = s.demand v := by
  simp only [EvalState.demand, hR.thunks h.heap, h.error_eq]

theorem startThunk (id : ThunkId) (t : Thunk) :
    (s.startThunk id t).Eased R k (s'.startThunk id t) :=
  (h.enter t.source t.name).withHeap (hR.setThunk h.heap id .forcing)

theorem finishThunk (id : ThunkId) (t : Thunk) (pos : Pos) (place : Place)
    (r : Except RuntimeError Value) :
    (s'.finishThunk id t pos place r).1 = (s.finishThunk id t pos place r).1 ∧
      (s.finishThunk id t pos place r).2.Eased R k (s'.finishThunk id t pos place r).2 := by
  have hback : ∀ st, Eased R k { s.leave place with heap := s.heap.setThunk id st }
      { s'.leave place with heap := s'.heap.setThunk id st } :=
    fun st => (h.leave place).withHeap (hR.setThunk h.heap id st)
  cases r with
  | error e => exact ⟨rfl, hback .pending⟩
  | ok v =>
    simp only [EvalState.finishThunk]
    cases t.want with
    | none => exact ⟨rfl, hback (.done v)⟩
    | some want =>
      by_cases hv : v.conforms want = true
      · simp only [hv, if_true]
        exact ⟨trivial, hback (.done v)⟩
      · simp only [hv]
        exact ⟨rfl, hback .pending⟩

theorem round (lib : HostLibrary) (pos : Pos) (fn : Value) (args : List Value) :
    (Applied.round lib pos fn args s').1 = (Applied.round lib pos fn args s).1 ∧
      (Applied.round lib pos fn args s).2.Eased R k (Applied.round lib pos fn args s').2 := by
  unfold Applied.round
  cases fn.callable? with
  | none => exact ⟨by simp only [h.error_eq], h⟩
  | some p =>
    obtain ⟨f, before⟩ := p
    simp only
    split
    · exact ⟨rfl, h⟩
    · generalize (before ++ args).take f.arity = taken
      generalize (before ++ args).drop f.arity = others
      cases f with
      | closure c =>
        simp only [Applied.call]
        cases Closure.bindParams c.params taken with
        | error v => exact ⟨by simp only [h.error_eq], h⟩
        | ok vars =>
          refine ⟨?_, h.withHeap (hR.newScope h.heap _ _)⟩
          simp only [Heap.newScope, hR.scopes_size h.heap]
      | builtin b =>
        have hcall := hR.call h.heap b taken
        simp only [Applied.call]
        generalize b.call s.heap taken = o at hcall
        generalize b.call s'.heap taken = o' at hcall
        rcases o with f | ⟨v, g⟩ <;> rcases o' with f' | ⟨v', g'⟩
        · cases hcall
          exact ⟨by simp only [h.place_eq], h⟩
        · cases hcall
        · cases hcall
        · obtain ⟨rfl, hg⟩ := hcall
          exact ⟨rfl, h.withHeap hg⟩
      | host d =>
        simp only [Applied.call, hR.hostCall h.heap, h.error_eq]
        cases d.call lib s.heap taken with
        | error e => exact ⟨rfl, h⟩
        | ok v => exact ⟨rfl, h⟩

end

end EvalState.Eased

/-! ## Machines -/

/-- The frame with more depth left. -/
def Frame.deepen (n : Nat) : Frame → Frame
  | .function depth pos args scope => .function (depth + n) pos args scope
  | .argument depth pos fn before after scope => .argument (depth + n) pos fn before after scope
  | .left depth pos op r scope => .left (depth + n) pos op r scope
  | .right depth pos op l => .right (depth + n) pos op l
  | .negate pos => .negate pos
  | .test depth pos yes no scope => .test (depth + n) pos yes no scope
  | .thunk id t pos place => .thunk id t pos place
  | .body depth pos place others => .body (depth + n) pos place others

def Control.deepen (n : Nat) : Control → Control
  | .eval depth e scope => .eval (depth + n) e scope
  | .apply depth pos fn args => .apply (depth + n) pos fn args
  | .give r => .give r

namespace Machine

/-- The second machine is where the first is, with more room. -/
structure Eased (R : Heap → Heap → Prop) (k : Slack) (c c' : Machine) : Prop where
  control : c'.control = c.control.deepen k.levels
  frames : c'.frames = c.frames.map (Frame.deepen k.levels)
  state : c.state.Eased R k c'.state

variable {R : Heap → Heap → Prop} {k : Slack} {s s' : EvalState}

section
variable (hs : s.Eased R k s') (frames : List Frame)
include hs

theorem eased_value (v : Value) :
    Eased R k (value v frames s) (value v (frames.map (Frame.deepen k.levels)) s') :=
  ⟨rfl, rfl, hs⟩

theorem eased_error (pos : Pos) (fault : RuntimeFault) :
    Eased R k (error pos fault frames s) (error pos fault (frames.map (Frame.deepen k.levels)) s') :=
  ⟨by simp only [error, hs.error_eq, Control.deepen], rfl, hs⟩

theorem eased_arguments (depth : Nat) (pos : Pos) (fn : Value) (before : List Value)
    (after : List Expr) (scope : ScopeId) :
    Eased R k (arguments depth pos fn before after scope frames s)
      (arguments (depth + k.levels) pos fn before after scope
        (frames.map (Frame.deepen k.levels)) s') := by
  cases after <;> exact ⟨rfl, rfl, hs⟩

theorem eased_operate (depth : Nat) (pos : Pos) (op : Operator) (l r : Value) :
    Eased R k (operate depth pos op l r frames s)
      (operate (depth + k.levels) pos op l r (frames.map (Frame.deepen k.levels)) s') := by
  unfold operate
  split
  · exact ⟨rfl, rfl, hs⟩
  · split
    · exact eased_value hs frames _
    · exact eased_error hs frames _ _

variable (hR : Heap.Congruence R)
include hR

theorem eased_demand (depth : Nat) (v : Value) :
    Eased R k (demand depth v frames s)
      (demand (depth + k.levels) v (frames.map (Frame.deepen k.levels)) s') := by
  unfold demand
  rw [hs.demand hR]
  cases s.demand v with
  | now r => exact ⟨rfl, rfl, hs⟩
  | code id t e scope => exact ⟨rfl, by simp [Frame.deepen, hs.place_eq], hs.startThunk hR id t⟩

theorem eased_node (depth : Nat) (e : Expr) (scope : ScopeId) :
    Eased R k (node depth e scope frames s)
      (node (depth + k.levels) e scope (frames.map (Frame.deepen k.levels)) s') := by
  cases e with
  | var p name =>
    simp only [node, hR.lookup hs.heap]
    cases s.heap.lookup scope name with
    | none => exact eased_error hs frames _ _
    | some v => exact eased_demand hs frames hR depth v
  | qualified p mod name =>
    simp only [node, hR.lookup hs.heap]
    cases s.heap.lookup scope (mod ++ "." ++ name) with
    | none => exact eased_error hs frames _ _
    | some v => exact eased_demand hs frames hR depth v
  | operator p op =>
    refine ⟨?_, rfl, hs.withHeap (hR.newScope hs.heap [] none)⟩
    simp only [node, value, Heap.newScope, hR.scopes_size hs.heap, hs.place_eq, Control.deepen]
  | lambda pos p ps body =>
    simp only [node, hs.place_eq]
    exact eased_value hs frames _
  | letIn p binds body =>
    have hid : (s'.heap.newScope [] (some scope)).1 = (s.heap.newScope [] (some scope)).1 :=
      hR.scopes_size hs.heap
    have hheap := hR.newBindings (s.heap.newScope [] (some scope)).1 s.place.source binds
      (hR.newScope hs.heap [] (some scope))
    refine ⟨by simp only [node, hid, Control.deepen], rfl, ?_⟩
    have hstate := hs.withHeap hheap
    simp only [node, hid, hs.place_eq] at hstate ⊢
    exact hstate
  | _ => exact ⟨rfl, rfl, hs⟩

theorem eased_resume (f : Frame) (v : Value) :
    Eased R k (resume f v frames s)
      (resume (f.deepen k.levels) v (frames.map (Frame.deepen k.levels)) s') := by
  cases f with
  | function depth pos args scope => exact eased_arguments hs frames _ _ _ _ _ _
  | argument depth pos fn before after scope => exact eased_arguments hs frames _ _ _ _ _ _
  | left depth pos op right scope =>
    simp only [Frame.deepen, resume]
    split
    · split
      · exact eased_error hs frames _ _
      · exact eased_value hs frames _
      · exact ⟨rfl, rfl, hs⟩
    · exact ⟨rfl, rfl, hs⟩
  | right depth pos op left => exact eased_operate hs frames _ _ _ _ _
  | negate pos =>
    simp only [Frame.deepen, resume]
    split
    · exact eased_value hs frames _
    · exact eased_error hs frames _ _
  | test depth pos yes no scope =>
    simp only [Frame.deepen, resume]
    split
    · exact ⟨rfl, rfl, hs⟩
    · exact eased_error hs frames _ _
  | thunk id t pos place =>
    obtain ⟨hr, hs'⟩ := hs.finishThunk hR id t pos place (.ok v)
    exact ⟨by simp only [Frame.deepen, resume, hr, Control.deepen], rfl, hs'⟩
  | body depth pos place others => cases others <;> exact ⟨rfl, rfl, hs.leave place⟩

theorem eased_unwind (f : Frame) (e : RuntimeError) :
    Eased R k (unwind f e frames s)
      (unwind (f.deepen k.levels) e (frames.map (Frame.deepen k.levels)) s') := by
  cases f with
  | thunk id t pos place =>
    obtain ⟨hr, hs'⟩ := hs.finishThunk hR id t pos place (.error e)
    exact ⟨by simp only [Frame.deepen, unwind, hr, Control.deepen], rfl, hs'⟩
  | body depth pos place others => exact ⟨rfl, rfl, hs.leave place⟩
  | _ => exact ⟨rfl, rfl, hs⟩

variable {set set' : Setting} (hlimit : set'.limit = set.limit + k.levels)
include hlimit

/-- An expression is refused only by a limit that the second machine does not have. -/
theorem eased_evaluate (depth : Nat) (e : Expr) (scope : ScopeId) :
    Eased R k (evaluate set depth e scope frames s)
        (evaluate set' (depth + k.levels) e scope (frames.map (Frame.deepen k.levels)) s') ∨
      ∃ err, (evaluate set depth e scope frames s).control = .give (.error err) ∧
        k.Spares set.limit err := by
  cases depth with
  | zero =>
    by_cases hk : k.levels = 0
    · refine .inl ?_
      simp only [hk, Nat.add_zero] at hlimit ⊢
      simp only [evaluate, hlimit]
      have := eased_error hs frames e.pos (.overflow set.limit)
      rwa [hk] at this
    · exact .inr ⟨_, rfl, .inl ⟨hk, rfl⟩⟩
  | succ depth =>
    rw [Nat.succ_add]
    obtain ⟨htick, hstop⟩ := hs.tick
    simp only [evaluate]
    rcases hstop with hstop | ⟨hk, hstop⟩
    · rw [hstop]
      refine .inl ?_
      split
      · exact ⟨by simp only [htick.error_eq, Control.deepen], rfl, htick⟩
      · exact eased_node htick frames hR depth e scope
    · rw [hstop]
      exact .inr ⟨_, rfl, .inr ⟨hk, rfl⟩⟩

end

/-! ## Steps and runs -/

section
variable {set set' : Setting} {c c' : Machine} (hR : Heap.Congruence R)
  (hlimit : set'.limit = set.limit + k.levels) (hhost : set'.host = set.host)
include hR hlimit hhost

theorem eased_next (hc : c.Eased R k c') :
    match c.next set with
    | .finished r s => ∃ s', c'.next set' = .finished r s' ∧ s.Eased R k s'
    | .going d => (∃ d', c'.next set' = .going d' ∧ d.Eased R k d') ∨
        ∃ err, d.control = .give (.error err) ∧ k.Spares set.limit err := by
  obtain ⟨control, frames, s⟩ := c
  obtain ⟨control', frames', s'⟩ := c'
  obtain ⟨rfl, rfl, hs⟩ := hc
  cases control with
  | eval depth e scope =>
    rcases eased_evaluate hs frames hR hlimit depth e scope with h | h
    · exact .inl ⟨_, rfl, h⟩
    · exact .inr h
  | apply depth pos fn args =>
    obtain ⟨ha, hs'⟩ := hs.round hR set.host pos fn args
    rw [next_apply]
    refine .inl ⟨_, next_apply .., ?_⟩
    rw [hhost, ha]
    generalize Applied.round set.host pos fn args s = p at hs'
    obtain ⟨a, t⟩ := p
    cases a with
    | done r => exact ⟨rfl, rfl, hs'⟩
    | enter c scope others =>
      exact ⟨rfl, by simp [applied, Frame.deepen, hs'.place_eq], hs'.enter _ _⟩
    | again fn others => exact ⟨rfl, rfl, hs'⟩
  | give r =>
    cases frames with
    | nil => cases r <;> exact ⟨s', rfl, hs⟩
    | cons f frames =>
      cases r with
      | ok v => exact .inl ⟨_, rfl, eased_resume hs frames hR f v⟩
      | error e => exact .inl ⟨_, rfl, eased_unwind hs frames hR f e⟩

omit hR hlimit hhost in
theorem run_error (frames : List Frame) (e : RuntimeError) (s : EvalState) :
    (run set ⟨.give (.error e), frames, s⟩).1 = .error e := by
  induction frames generalizing s with
  | nil => rw [run_of_finished rfl]
  | cons f frames ih =>
    have hn : (⟨.give (.error e), f :: frames, s⟩ : Machine).next set =
        .going (unwind f e frames s) := rfl
    rw [run_of_going hn]
    cases f with
    | thunk id t pos place => exact ih _
    | _ => exact ih _

theorem eased_run (hc : c.Eased R k c') :
    (run set' c').1 = (run set c).1 ∧ (run set c).2.Eased R k (run set' c').2 ∨
      ∃ err, (run set c).1 = .error err ∧ k.Spares set.limit err := by
  induction c using (wellFounded set).induction generalizing c' with
  | _ c ih =>
    have hstep := eased_next hR hlimit hhost hc
    cases hn : c.next set with
    | finished r s =>
      rw [hn] at hstep
      obtain ⟨s', hn', hs⟩ := hstep
      rw [run_of_finished hn, run_of_finished hn']
      exact .inl ⟨rfl, hs⟩
    | going d =>
      rw [hn] at hstep
      rw [run_of_going hn]
      rcases hstep with ⟨d', hn', hd⟩ | ⟨err, hd, hk⟩
      · rw [run_of_going hn']
        exact ih d hn hd
      · obtain ⟨control, frames, s⟩ := d
        cases hd
        exact .inr ⟨err, run_error frames err s, hk⟩

theorem eased_force (hs : s.Eased R k s') (v : Value) :
    (s'.force set' v).1 = (s.force set v).1 ∧ (s.force set v).2.Eased R k (s'.force set' v).2 ∨
      ∃ err, (s.force set v).1 = .error err ∧ k.Spares set.limit err := by
  unfold EvalState.force
  rw [hlimit]
  exact eased_run hR hlimit hhost (eased_demand hs [] hR set.limit v)

end

end Machine

/-! ## The limit that an overflow names -/

/-- If the fault is an overflow, it names the limit. -/
def RuntimeFault.Names (limit : Nat) (f : RuntimeFault) : Prop := ∀ n, f = .overflow n → n = limit

theorem RuntimeFault.names_of_isPrimitive {f : RuntimeFault} (h : f.isPrimitive) (limit : Nat) :
    f.Names limit := by
  intro n hn
  rw [hn] at h
  cases h

def Control.Names (limit : Nat) : Control → Prop
  | .give (.error e) => e.fault.Names limit
  | _ => True

theorem Applied.names_round {lib : HostLibrary} {pos : Pos} {fn : Value} {args : List Value}
    {s : EvalState} {e : RuntimeError} (h : (round lib pos fn args s).1 = .done (.error e))
    (limit : Nat) : e.fault.Names limit := by
  unfold round at h
  split at h
  · cases h; rintro n ⟨⟩
  · rename_i f before _
    simp only at h
    split at h
    · cases h
    · cases f with
      | closure c =>
        simp only [call] at h
        split at h
        · cases h; rintro n ⟨⟩
        · cases h
      | builtin b =>
        simp only [call] at h
        split at h
        · rename_i hf
          cases h
          exact RuntimeFault.names_of_isPrimitive (Builtin.fault_call hf) limit
        · cases hg : (before ++ args).drop (Callable.builtin b).arity <;> rw [hg] at h <;> cases h
      | host d =>
        simp only [call] at h
        split at h
        · rename_i hf
          cases h
          exact RuntimeFault.names_of_isPrimitive (HostData.fault_call hf) limit
        · cases hg : (before ++ args).drop (Callable.host d).arity <;> rw [hg] at h <;> cases h

namespace Machine

variable {set : Setting}

theorem names_demand (depth : Nat) (v : Value) (frames : List Frame) (s : EvalState) (limit : Nat) :
    (demand depth v frames s).control.Names limit := by
  unfold demand EvalState.demand
  cases v with
  | thunk id =>
    simp only
    cases s.heap.thunks[id]? with
    | none => trivial
    | some t =>
      rcases t with ⟨name, code | ⟨e, scope⟩, source, want, state | state | state⟩
      all_goals first | trivial | rintro n ⟨⟩
  | _ => trivial

theorem names_operate (depth : Nat) (pos : Pos) (op : Operator) (l r : Value) (frames : List Frame)
    (s : EvalState) (limit : Nat) : (operate depth pos op l r frames s).control.Names limit := by
  unfold operate
  split
  · trivial
  · split
    · trivial
    · rename_i hf
      exact RuntimeFault.names_of_isPrimitive (Operator.fault_eval hf) limit

theorem names_node (depth : Nat) (e : Expr) (scope : ScopeId) (frames : List Frame) (s : EvalState)
    (limit : Nat) : (node depth e scope frames s).control.Names limit := by
  cases e with
  | var p name =>
    simp only [node]
    split
    · exact names_demand _ _ _ _ _
    · rintro n ⟨⟩
  | qualified p mod name =>
    simp only [node]
    split
    · exact names_demand _ _ _ _ _
    · rintro n ⟨⟩
  | _ => trivial

theorem names_finish (s : EvalState) (id : ThunkId) (t : Thunk) (pos : Pos) (place : Place)
    (v : Value) (limit : Nat) :
    (Control.give (s.finishThunk id t pos place (.ok v)).1).Names limit := by
  simp only [EvalState.finishThunk]
  cases t.want with
  | none => trivial
  | some want =>
    simp only
    split
    · trivial
    · rintro n ⟨⟩

theorem names_resume (f : Frame) (v : Value) (frames : List Frame) (s : EvalState) (limit : Nat) :
    (resume f v frames s).control.Names limit := by
  cases f with
  | function depth pos args scope => cases args <;> trivial
  | argument depth pos fn before after scope => cases after <;> trivial
  | left depth pos op right scope =>
    simp only [resume]
    split
    · split
      · rename_i hf
        exact RuntimeFault.names_of_isPrimitive (Operator.fault_shortcut hf) limit
      · trivial
      · trivial
    · trivial
  | right depth pos op left => exact names_operate _ _ _ _ _ _ _ _
  | negate pos =>
    simp only [resume]
    split
    · trivial
    · rintro n ⟨⟩
  | test depth pos yes no scope =>
    simp only [resume]
    split
    · trivial
    · rintro n ⟨⟩
  | thunk id t pos place => exact names_finish s id t pos place v limit
  | body depth pos place others => cases others <;> trivial

theorem names_next {c c' : Machine} (h : c.control.Names set.limit) (hn : c.next set = .going c') :
    c'.control.Names set.limit := by
  obtain ⟨control, frames, s⟩ := c
  cases control with
  | eval depth e scope =>
    cases hn
    cases depth with
    | zero =>
      intro n hn
      cases hn
      rfl
    | succ depth =>
      simp only [evaluate]
      split
      · rintro n ⟨⟩
      · exact names_node _ _ _ _ _ _
  | apply depth pos fn args =>
    rw [next_apply] at hn
    cases hn
    cases ha : (Applied.round set.host pos fn args s).1 with
    | done r =>
      cases r with
      | ok v => trivial
      | error e => exact Applied.names_round ha set.limit
    | enter c scope others => trivial
    | again fn others => trivial
  | give r =>
    cases frames with
    | nil => cases r <;> cases hn
    | cons f frames =>
      cases r with
      | ok v => cases hn; exact names_resume f v frames s set.limit
      | error e => cases hn; cases f <;> exact h

theorem names_force (s : EvalState) (v : Value) {e : RuntimeError} (h : (s.force set v).1 = .error e) :
    e.fault.Names set.limit := by
  have hend := run_keeps (P := fun c => c.control.Names set.limit)
    (fun _ _ => names_next) (demand set.limit v [] s) (names_demand _ _ _ _ _)
  unfold EvalState.force at h
  rw [h] at hend
  exact hend

end Machine

end LazySession
