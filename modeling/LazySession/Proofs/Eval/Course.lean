import LazySession.Proofs.Eval.Settled

/-!
# The course of an evaluation

`Machine.Through` says that all configurations up to one with `Q` have `P`. It is shown one step at
a time, and tells what a run comes to as well as what it goes through on the way:
`Machine.Through.run` and `Machine.Through.visits`.
-/

namespace LazySession

namespace Machine

/-- From a configuration the machine comes to one with `Q`, and all before that have `P`. -/
inductive Through (set : Setting) (P Q : Machine → Prop) : Machine → Prop
  | here {c : Machine} (hq : Q c) : Through set P Q c
  | step {c c' : Machine} (hp : P c) (hn : c.next set = .going c') (h : Through set P Q c') :
    Through set P Q c

/-- The end of a run, with `R` for the result. -/
def Finishes (R : Except RuntimeError Value → EvalState → Prop) (c : Machine) : Prop :=
  ∃ r s, c = ⟨.give r, [], s⟩ ∧ R r s

variable {set : Setting} {P Q : Machine → Prop} {c c' : Machine}
variable {R : Except RuntimeError Value → EvalState → Prop}

theorem next_finishes (r : Except RuntimeError Value) (s : EvalState) :
    (⟨.give r, [], s⟩ : Machine).next set = .finished r s := by
  cases r <;> rfl

theorem Through.run (h : Through set P (Finishes R) c) : R (run set c).1 (run set c).2 := by
  induction h with
  | here hq =>
    obtain ⟨r, s, rfl, hr⟩ := hq
    rw [run_of_finished (next_finishes r s)]
    exact hr
  | step _ hn _ ih =>
    rw [run_of_going hn]
    exact ih

theorem Through.visits (h : Through set P (Finishes R) c) (hv : Reaches set c c') :
    P c' ∨ c'.frames = [] ∧ ∃ r, c'.control = .give r := by
  induction h generalizing c' with
  | here hq =>
    obtain ⟨r, s, rfl, -⟩ := hq
    rcases hv.cases_head with rfl | ⟨d, hn, -⟩
    · exact .inr ⟨rfl, r, rfl⟩
    · rw [next_finishes] at hn
      cases hn
  | step hp hn _ ih =>
    rcases hv.cases_head with rfl | ⟨d, hn', hd⟩
    · exact .inl hp
    · rw [hn] at hn'
      cases hn'
      exact ih hd

/-! ## Steps -/

theorem tick_eq (s : EvalState) : ∃ patience, s.tick.2 = { s with steps := s.steps + 1, patience } ∧
    (s.patience = .endless → patience = .endless ∧ s.tick.1 = false) := by
  unfold EvalState.tick
  simp only
  split
  · refine ⟨s.patience.inquire.2, rfl, fun h => ?_⟩
    rw [h]
    exact ⟨rfl, rfl⟩
  · exact ⟨s.patience, rfl, fun h => ⟨h, rfl⟩⟩

section
variable {depth : Nat} {e : Expr} {scope : ScopeId} {frames : List Frame} {s : EvalState}

/-- An expression fails at once if no depth is left or if the work is called off. -/
theorem Through.eval (hp : P ⟨.eval depth e scope, frames, s⟩)
    (hfail : depth = 0 ∨ s.patience ≠ .endless → ∀ err steps patience,
      (s.patience = .endless → patience = .endless) →
      Through set P Q ⟨.give (.error err), frames, { s with steps, patience }⟩)
    (hok : ∀ d steps patience, depth = d + 1 → (s.patience = .endless → patience = .endless) →
      Through set P Q (node d e scope frames { s with steps, patience })) :
    Through set P Q ⟨.eval depth e scope, frames, s⟩ := by
  refine .step hp rfl ?_
  cases depth with
  | zero => exact hfail (.inl rfl) _ s.steps s.patience id
  | succ d =>
    obtain ⟨patience, htick, hendless⟩ := tick_eq s
    simp only [evaluate]
    split
    · rename_i hstop
      rw [htick]
      refine hfail (.inr fun he => ?_) _ _ _ fun he => (hendless he).1
      rw [(hendless he).2] at hstop
      cases hstop
    · rw [htick]
      exact hok d _ _ rfl fun he => (hendless he).1

theorem Through.give {v : Value} {f : Frame} (hp : P ⟨.give (.ok v), f :: frames, s⟩)
    (h : Through set P Q (resume f v frames s)) :
    Through set P Q ⟨.give (.ok v), f :: frames, s⟩ :=
  .step hp rfl h

theorem Through.apply {pos : Pos} {fn : Value} {args : List Value} {a : Applied} {s' : EvalState}
    (hp : P ⟨.apply depth pos fn args, frames, s⟩)
    (hr : Applied.round set.host pos fn args s = (a, s'))
    (h : Through set P Q (applied depth pos a frames s')) :
    Through set P Q ⟨.apply depth pos fn args, frames, s⟩ := by
  refine .step hp ?_ h
  rw [next_apply, hr]

theorem Through.throw {err : RuntimeError} {f : Frame}
    (hp : P ⟨.give (.error err), f :: frames, s⟩) (h : Through set P Q (unwind f err frames s)) :
    Through set P Q ⟨.give (.error err), f :: frames, s⟩ :=
  .step hp rfl h

end

end Machine

namespace Heap

theorem lookup_congr {h h' : Heap} (hs : h.scopes = h'.scopes) (x : String) :
    ∀ id, h.lookup id x = h'.lookup id x := by
  intro id
  induction id using Nat.strongRecOn with
  | ind id ih =>
    rw [lookup, lookup, hs]
    cases h'.scopes[id]? with
    | none => rfl
    | some s =>
      simp only
      cases s.vars.get? x with
      | some v => rfl
      | none =>
        cases s.outer with
        | none => rfl
        | some o =>
          simp only
          split
          · exact ih o ‹_›
          · rfl

theorem lookup_setThunk (h : Heap) (t : ThunkId) (state : ThunkState) (id : ScopeId) (x : String) :
    (h.setThunk t state).lookup id x = h.lookup id x := by
  apply lookup_congr
  rfl

end Heap

/-! ## Making a cell -/

/-- The code that makes a cell with `()` in it. -/
def Expr.makesCell (p q : Pos) : Expr := .app (.var p "newRef") [.unit q]

namespace Machine

/-- No function is called but the one that makes a cell. -/
def CallsNewRef (c : Machine) : Prop :=
  ∀ depth pos fn args, c.control = .apply depth pos fn args → fn = .builtin .newRef

theorem callsNewRef_of_ne {c : Machine}
    (h : ∀ depth pos fn args, c.control ≠ .apply depth pos fn args) : CallsNewRef c :=
  fun depth pos fn args he => absurd he (h depth pos fn args)

theorem callsNewRef_eval {depth : Nat} {e : Expr} {scope : ScopeId} {frames : List Frame}
    {s : EvalState} : CallsNewRef ⟨.eval depth e scope, frames, s⟩ :=
  callsNewRef_of_ne (by rintro _ _ _ _ ⟨⟩)

theorem callsNewRef_give {r : Except RuntimeError Value} {frames : List Frame} {s : EvalState} :
    CallsNewRef ⟨.give r, frames, s⟩ :=
  callsNewRef_of_ne (by rintro _ _ _ _ ⟨⟩)

theorem Through.callsNewRef {set : Setting} {c c' : Machine}
    {R : Except RuntimeError Value → EvalState → Prop}
    (h : Through set CallsNewRef (Finishes R) c) (hv : Reaches set c c') : c'.CallsNewRef := by
  rcases h.visits hv with h | ⟨-, r, hr⟩
  · exact h
  · exact callsNewRef_of_ne (by simp [hr])

/-- What comes of forcing a thunk whose code makes a cell: the cell, or an error if there was too
little depth or patience. -/
structure MakesCell (set : Setting) (id : ThunkId) (s : EvalState) (r : Except RuntimeError Value)
    (s' : EvalState) : Prop where
  patience : s.patience = .endless → s'.patience = .endless
  result : (r = .ok (.cell s.heap.cells.size) ∧ s'.heap =
      (((s.heap.setThunk id .forcing).newCell (some .unit)).2.setThunk id
        (.done (.cell s.heap.cells.size)))) ∨
    ((∃ e, r = .error e) ∧ s'.heap = (s.heap.setThunk id .forcing).setThunk id .pending ∧
      (set.limit < 2 ∨ s.patience ≠ .endless))

variable {set : Setting} {s : EvalState} {id : ThunkId} {t : Thunk} {p q : Pos} {scope : ScopeId}

theorem through_makesCell (set : Setting) (ht : s.heap.thunks[id]? = some t) (hp : t.state = .pending)
    (hc : t.code = some (.makesCell p q, scope)) (hw : t.want = none)
    (hl : s.heap.lookup scope "newRef" = some (.builtin .newRef)) :
    Through set CallsNewRef (Finishes (MakesCell set id s)) (demand set.limit (.thunk id) [] s) := by
  have hd : s.demand (.thunk id) = .code id t (.makesCell p q) scope := by
    simp [EvalState.demand, ht, hp, hc]
  -- on a failure, the thunk is left
  have hfail : ∀ err steps patience, (set.limit < 2 ∨ s.patience ≠ .endless) →
      (s.patience = .endless → patience = .endless) →
      Through set CallsNewRef (Finishes (MakesCell set id s)) ⟨.give (.error err),
        [.thunk id t (Expr.makesCell p q).pos s.place],
        { s.startThunk id t with steps, patience }⟩ := by
    intro err steps patience hwhy hpatience
    exact .throw callsNewRef_give (.here ⟨_, _, rfl, hpatience, .inr ⟨⟨err, rfl⟩, rfl, hwhy⟩⟩)
  unfold demand
  rw [hd]
  refine .eval callsNewRef_eval (fun hwhy err steps patience hpatience => ?_)
    fun d steps patience hdepth hpatience => ?_
  · exact hfail err steps patience (hwhy.imp_left (by omega)) hpatience
  -- the function
  refine .eval callsNewRef_eval (fun hwhy err steps' patience' hpatience' => ?_)
    fun d' steps' patience' hdepth' hpatience' => ?_
  · refine .throw callsNewRef_give (hfail err steps' patience' (hwhy.imp (by omega) fun hne he => ?_)
      fun he => hpatience' (hpatience he))
    exact hne (hpatience he)
  have hlookup : (s.heap.setThunk id .forcing).lookup scope "newRef" = some (.builtin .newRef) := by
    rw [Heap.lookup_setThunk, hl]
  simp only [node, EvalState.startThunk, hlookup]
  refine .give callsNewRef_give ?_
  -- its argument
  refine .eval callsNewRef_eval (fun hwhy err steps'' patience'' hpatience'' => ?_)
    fun d'' steps'' patience'' hdepth'' hpatience'' => ?_
  · refine .throw callsNewRef_give (hfail err steps'' patience'' (hwhy.imp (by omega) fun hne he => ?_)
      fun he => hpatience'' (hpatience' (hpatience he)))
    exact hne (hpatience' (hpatience he))
  refine .give callsNewRef_give (.step ?_ rfl (.give callsNewRef_give ?_))
  · intro depth pos fn args he
    cases he
    rfl
  simp only [resume, EvalState.finishThunk, hw]
  exact .here ⟨_, _, rfl, fun he => hpatience'' (hpatience' (hpatience he)), .inl ⟨rfl, rfl⟩⟩

/-! ### A cell that goes by the name of what makes it -/

/-- The run ends in an error. -/
abbrev Fails : Machine → Prop := Finishes fun r _ => ∃ e, r = .error e

theorem through_error (set : Setting) (frames : List Frame) :
    ∀ err s, Through set CallsNewRef Fails ⟨.give (.error err), frames, s⟩ := by
  induction frames with
  | nil => exact fun err s => .here ⟨_, _, rfl, err, rfl⟩
  | cons f frames ih =>
    intro err s
    refine .throw callsNewRef_give ?_
    cases f <;> exact ih _ _

/-- The function that makes cells is looked up and leads back to what is being evaluated. -/
theorem through_loop {k : ThunkId} {u : Thunk} {code : Expr × ScopeId} {depth : Nat}
    {frames : List Frame} (hl : s.heap.lookup scope "newRef" = some (.thunk k))
    (hu : s.heap.thunks[k]? = some u) (hforcing : u.state = .forcing) (hcode : u.code = some code) :
    Through set CallsNewRef Fails ⟨.eval depth (.makesCell p q) scope, frames, s⟩ := by
  refine .eval callsNewRef_eval (fun _ err _ _ _ => through_error set _ err _)
    fun d steps patience _ _ => ?_
  refine .eval callsNewRef_eval (fun _ err _ _ _ => through_error set _ err _)
    fun d' steps' patience' _ _ => ?_
  simp only [node, hl, demand, EvalState.demand, hu, hforcing, hcode]
  exact through_error set _ _ _

/-- If the name of the function that makes cells is that of a cell, no cell is made. -/
theorem through_captured (set : Setting) {k : ThunkId} {u : Thunk} {p' q' : Pos}
    (ht : s.heap.thunks[id]? = some t) (hp : t.state = .pending)
    (hc : t.code = some (.makesCell p q, scope))
    (hl : s.heap.lookup scope "newRef" = some (.thunk k)) (hu : s.heap.thunks[k]? = some u)
    (hup : u.state = .pending) (huc : u.code = some (.makesCell p' q', scope)) :
    Through set CallsNewRef Fails (demand set.limit (.thunk id) [] s) := by
  have hd : s.demand (.thunk id) = .code id t (.makesCell p q) scope := by
    simp [EvalState.demand, ht, hp, hc]
  have hl' : (s.heap.setThunk id .forcing).lookup scope "newRef" = some (.thunk k) := by
    rw [Heap.lookup_setThunk, hl]
  unfold demand
  rw [hd]
  by_cases hk : id = k
  · subst hk
    rw [ht] at hu
    cases hu
    refine through_loop (u := { t with state := .forcing }) hl' ?_ rfl hc
    simp [EvalState.startThunk, Heap.setThunk, Array.getElem?_modify, ht]
  · have hu' : (s.heap.setThunk id .forcing).thunks[k]? = some u := by
      simp only [Heap.setThunk, Array.getElem?_modify, if_neg hk, hu]
    refine .eval callsNewRef_eval (fun _ err _ _ _ => through_error set _ err _)
      fun d steps patience _ _ => ?_
    refine .eval callsNewRef_eval (fun _ err _ _ _ => through_error set _ err _)
      fun d' steps' patience' _ _ => ?_
    simp only [node, EvalState.startThunk, hl', demand, EvalState.demand, hu', hup, huc]
    refine through_loop (u := { u with state := .forcing })
      ((Heap.lookup_setThunk _ _ _ _ _).trans hl') ?_ rfl huc
    simp [Heap.setThunk, Array.getElem?_modify, hk, hu]

end Machine

/-! ## Reading a cell -/

/-- The code that reads a cell by its name. -/
def Expr.readsCell (p q : Pos) (cell : String) : Expr := .app (.var p "readRef") [.var q cell]

theorem Heap.thunkValue?_setThunk {h : Heap} {id i : ThunkId} (hne : id ≠ i) (state : ThunkState) :
    (h.setThunk id state).thunkValue? i = h.thunkValue? i := by
  unfold thunkValue? setThunk
  rw [Array.getElem?_modify, if_neg hne]

namespace Machine

variable {set : Setting} {s : EvalState} {id i : ThunkId} {t : Thunk} {p q : Pos}
variable {scope : ScopeId} {cell : String} {c : CellId} {v : Value}

/-- With endless patience, a thunk whose code reads a cell gets what the cell holds, unless there is
too little depth or it has to be of another type. -/
theorem through_readsCell {Q : Machine → Prop} {depth : Nat} {frames : List Frame}
    (ht : s.heap.thunks[id]? = some t) (hp : t.state = .pending)
    (hc : t.code = some (.readsCell p q cell, scope)) (hendless : s.patience = .endless)
    (hl : s.heap.lookup scope "readRef" = some (.builtin .readRef))
    (hcell : s.heap.lookup scope cell = some (.thunk i))
    (hi : s.heap.thunkValue? i = some (.cell c)) (hv : s.heap.getCell? c = some v)
    (hok : 2 ≤ depth → (∀ want, t.want = some want → v.conforms want = true) → ∀ s' : EvalState,
      s'.heap = (s.heap.setThunk id .forcing).setThunk id (.done v) → s'.patience = .endless →
      Through set (fun _ => True) Q ⟨.give (.ok v), frames, s'⟩)
    (hfail : (depth < 2 ∨ ∃ want, t.want = some want ∧ v.conforms want = false) → ∀ err s',
      Through set (fun _ => True) Q ⟨.give (.error err), frames, s'⟩) :
    Through set (fun _ => True) Q (demand depth (.thunk id) frames s) := by
  have hd : s.demand (.thunk id) = .code id t (.readsCell p q cell) scope := by
    simp [EvalState.demand, ht, hp, hc]
  have hne : id ≠ i := by
    rintro rfl
    obtain ⟨t', ht', hs⟩ := Heap.thunkValue?_eq_some.mp hi
    rw [ht] at ht'
    cases ht'
    rw [hp] at hs
    cases hs
  have hlookup : ∀ x, (s.heap.setThunk id .forcing).lookup scope x = s.heap.lookup scope x :=
    fun x => Heap.lookup_setThunk _ _ _ _ x
  have hvalue : (s.heap.setThunk id .forcing).thunkValue? i = some (.cell c) := by
    rw [Heap.thunkValue?_setThunk hne, hi]
  -- on a failure, the thunk is left
  have hleave : depth < 2 → ∀ err s', Through set (fun _ => True) Q
      ⟨.give (.error err), .thunk id t (Expr.readsCell p q cell).pos s.place :: frames, s'⟩ :=
    fun hdepth err s' => .throw trivial (hfail (.inl hdepth) _ _)
  unfold demand
  rw [hd]
  refine .eval trivial (fun hwhy err steps patience _ => ?_) fun d₁ steps patience hdepth hpatience => ?_
  · refine hleave ?_ _ _
    have : depth = 0 := hwhy.resolve_right fun h => h hendless
    omega
  obtain rfl := hpatience hendless
  -- the function
  refine .eval trivial (fun hwhy err steps patience _ => ?_) fun d₂ steps patience hdepth₂ hpatience => ?_
  · refine .throw trivial (hleave ?_ _ _)
    have : d₁ = 0 := hwhy.resolve_right fun h => h rfl
    omega
  obtain rfl := hpatience rfl
  simp only [node, EvalState.startThunk, hlookup, hl]
  refine .give trivial ?_
  -- its argument
  refine .eval trivial (fun hwhy => ?_) fun d₃ steps patience hdepth₃ hpatience => ?_
  · have : d₁ = 0 := hwhy.resolve_right fun h => h rfl
    omega
  obtain rfl := hpatience rfl
  have hnow : ∀ s' : EvalState, s'.heap = s.heap.setThunk id .forcing →
      s'.demand (.thunk i) = .now (.ok (.cell c)) := by
    intro s' hs'
    obtain ⟨t', ht', hdone⟩ := Heap.thunkValue?_eq_some.mp hvalue
    simp [EvalState.demand, hs', ht', hdone]
  simp only [node, hlookup, hcell, demand]
  rw [hnow _ rfl]
  refine .give trivial ?_
  have hround : ∀ pos (s' : EvalState), s'.heap = s.heap.setThunk id .forcing →
      Applied.round set.host pos (.builtin .readRef) [.cell c] s' = (.done (.ok v), s') := by
    intro pos s' hs'
    have hv' : s'.heap.getCell? c = some v := by rw [hs']; exact hv
    simp [Applied.round, Value.callable?, Callable.arity, Builtin.arity, Applied.call, Builtin.call,
      hv', Applied.give]
  refine .apply trivial (hround _ _ rfl) (.give trivial ?_)
  simp only [resume, EvalState.finishThunk]
  cases hw : t.want with
  | none => exact hok (by omega) (by simp [hw]) _ rfl rfl
  | some want =>
    by_cases hconf : v.conforms want = true
    · simp only [hconf, if_true]
      exact hok (by omega) (by simp [hw, hconf]) _ rfl rfl
    · simp only [hconf, Bool.false_eq_true, if_false]
      exact hfail (.inr ⟨want, hw, by simpa using hconf⟩) _ _

end Machine

end LazySession
