import LazySession.Proofs.Eval.Settled
import LazySession.Proofs.Twin.Calls
import LazySession.Proofs.Wrapped.Heap

/-!
# Evaluation does not see wrappers

The machine takes the same steps without wrappers: `Machine.next_bare`. Two things can tell the
difference. A function of the host gets the values as they are, and `error` and `show` may ask for a
text that shows a Boolean of the host. Evaluations that do neither come to the same if some values are
wrapped in the one and not in the other: `EvalState.eval_alike`.
-/

namespace LazySession

variable {bools : Bool}

/-! ## States and thunks -/

/-- A result without wrappers. -/
abbrev bareResult (bools : Bool) (r : Except RuntimeError Value) : Except RuntimeError Value :=
  r.map (Value.bare bools)

/-- Results that are the same without wrappers have the same content. -/
theorem agrees_of_bareResult {r r' : Except RuntimeError Value}
    (h : bareResult bools r' = bareResult bools r) :
    Agrees (fun v v' => v'.int? = v.int? ∧ v'.str? = v.str? ∧ v'.bool? = v.bool? ∧
      v'.bare bools = v.bare bools) r r' := by
  cases r with
  | error e =>
    cases r' with
    | error e' =>
      cases h
      exact .error e
    | ok v' => cases h
  | ok v =>
    cases r' with
    | error e' => cases h
    | ok v' =>
      have hbare : v'.bare bools = v.bare bools := Except.ok.inj h
      refine .ok ⟨?_, ?_, ?_, hbare⟩
      · rw [← v'.int?_bare, hbare, v.int?_bare]
      · rw [← v'.str?_bare, hbare, v.str?_bare]
      · rw [← v'.bool?_bare, hbare, v.bool?_bare]

def Demand.bare (bools : Bool) : Demand → Demand
  | .now r => .now (bareResult bools r)
  | .code id t e scope => .code id (t.bare bools) e scope

namespace EvalState

def bare (bools : Bool) (s : EvalState) : EvalState := { s with heap := s.heap.bare bools }

variable (s : EvalState)

theorem tick_bare : (s.bare bools).tick = (s.tick.1, s.tick.2.bare bools) := by
  by_cases h : (s.steps + 1) % inquiryInterval = 0 <;> simp [tick, bare, h]

theorem demand_bare (v : Value) :
    (s.bare bools).demand (v.bare bools) = (s.demand v).bare bools := by
  by_cases hv : ∃ id, v = .thunk id
  · obtain ⟨id, rfl⟩ := hv
    simp only [Value.bare, demand, bare, Heap.thunks_bare]
    rcases s.heap.thunks[id]? with _ | ⟨name, _ | ⟨e, scope⟩, source, want, _ | _ | u⟩ <;> rfl
  · have hne : ∀ id, v ≠ .thunk id := fun id h => hv ⟨id, h⟩
    have hnow : ∀ (s : EvalState) (u : Value), (∀ id, u ≠ .thunk id) → s.demand u = .now (.ok u) := by
      intro s u hu
      cases u <;> first | rfl | exact absurd rfl (hu _)
    rw [hnow s v hne, hnow _ _ (Value.bare_ne_thunk hne)]
    rfl

theorem startThunk_bare (id : ThunkId) (t : Thunk) :
    (s.bare bools).startThunk id (t.bare bools) = (s.startThunk id t).bare bools :=
  congrArg (fun heap => { (s.bare bools).enter t.source t.name with heap })
    (s.heap.setThunk_bare id .forcing)

theorem finishThunk_bare (bools : Bool) (id : ThunkId) (t : Thunk) (pos : Pos) (place : Place)
    (r : Except RuntimeError Value) :
    (s.bare bools).finishThunk id (t.bare bools) pos place (bareResult bools r) =
      (bareResult bools (s.finishThunk id t pos place r).1,
        (s.finishThunk id t pos place r).2.bare bools) := by
  have hback : ∀ state : ThunkState,
      ({ (s.bare bools).leave place with
          heap := ((s.bare bools).leave place).heap.setThunk id (state.bare bools) } : EvalState) =
        bare bools { s.leave place with heap := (s.leave place).heap.setThunk id state } :=
    fun state => congrArg (fun heap => { (s.bare bools).leave place with heap })
      (s.heap.setThunk_bare id state)
  cases r with
  | error e => exact congrArg (Prod.mk _) (hback .pending)
  | ok v =>
    simp only [bareResult, Except.map, finishThunk, Thunk.bare, Value.conforms_bare,
      Value.typeName_bare]
    cases t.want with
    | none => exact congrArg (Prod.mk _) (hback (.done v))
    | some want =>
      simp only
      split
      · exact congrArg (Prod.mk _) (hback (.done v))
      · exact congrArg (Prod.mk _) (hback .pending)

end EvalState

/-! ## Builtin functions -/

namespace Builtin

/-- A builtin function shows a Boolean of the host in the host's way. -/
def printsHostBool (h : Heap) (b : Builtin) (args : List Value) : Bool :=
  match b, args with
  | .error, [v] => h.showsHostBool v
  | .show, [v] => v.bool?.isNone && h.showsHostBool v
  | _, _ => false

theorem showText_bare {h : Heap} {v : Value}
    (hv : bools = true → v.bool? = none → h.showsHostBool v = false) :
    showText (h.bare bools) (v.bare bools) = showText h v := by
  cases v with
  | host d =>
    rcases d.bare_cases bools with he | ⟨i, hc, he⟩ | ⟨s, hc, he⟩ | ⟨b, -, hc, he⟩
    · rw [Value.bare, he, showText_host]
    · simp [Value.bare, he, showText, Value.int?, HostData.int?, hc]
    · simp [Value.bare, he, showText, Value.int?, Value.str?, HostData.int?, HostData.text?, hc]
    · simp [Value.bare, he, showText, Value.int?, Value.str?, Value.bool?, HostData.int?, HostData.text?,
        HostData.bool?, hc]
  | partialApp fn args => exact Heap.inspect_bare fun h => hv h rfl
  | cell id => exact Heap.inspect_bare fun h => hv h rfl
  | thunk id => exact Heap.inspect_bare fun h => hv h rfl
  | closure c => exact Heap.inspect_bare fun h => hv h rfl
  | builtin b => exact Heap.inspect_bare fun h => hv h rfl
  | unit => exact Heap.inspect_bare fun h => hv h rfl
  | _ => rfl

theorem divisionArgs_bare (b : Builtin) (x y : Value) :
    b.divisionArgs (x.bare bools) (y.bare bools) = b.divisionArgs x y := by
  simp only [divisionArgs, Value.int?_bare, Value.typeName_bare]

/-- What a call gives, without wrappers. -/
abbrev bareCall (bools : Bool) (r : Except RuntimeFault (Value × Heap)) :
    Except RuntimeFault (Value × Heap) :=
  r.map fun p => (p.1.bare bools, p.2.bare bools)

theorem call_bare {h : Heap} {b : Builtin} {args : List Value}
    (hprint : bools = true → b.printsHostBool h args = false) :
    b.call (h.bare bools) (args.map (Value.bare bools)) = bareCall bools (b.call h args) := by
  match args with
  | [] => cases b <;> rfl
  | [v] =>
    cases b with
    | newRef =>
      have hnew := h.newCell_bare bools (some v)
      simp only [Option.map_some] at hnew
      simp only [List.map_cons, List.map_nil, call, hnew]
      rfl
    | readRef =>
      cases v with
      | cell id =>
        simp only [List.map_cons, List.map_nil, Value.bare, call, Heap.getCell?_bare]
        cases h.getCell? id <;> rfl
      | host d =>
        have htype : (d.bare bools).typeName = (Value.host d).typeName := Value.typeName_bare (.host d)
        rcases d.bare_cases bools with he | ⟨i, -, he⟩ | ⟨s, -, he⟩ | ⟨b, -, -, he⟩ <;>
          rw [he] at htype <;>
          simp only [List.map_cons, List.map_nil, Value.bare, he, call, htype] <;> rfl
      | _ => rfl
    | «show» =>
      have htext : showText (h.bare bools) (v.bare bools) = showText h v :=
        showText_bare fun hb hv => by simpa [printsHostBool, hv] using hprint hb
      simp only [List.map_cons, List.map_nil, call, htext]
      rfl
    | not =>
      simp only [List.map_cons, List.map_nil, call, Value.bool?_bare, Value.typeName_bare]
      cases v.bool? <;> rfl
    | negate =>
      simp only [List.map_cons, List.map_nil, call, Value.int?_bare, Value.typeName_bare]
      cases v.int? <;> rfl
    | length =>
      simp only [List.map_cons, List.map_nil, call, Value.str?_bare, Value.typeName_bare]
      cases v.str? <;> rfl
    | error =>
      simp only [List.map_cons, List.map_nil, call, Value.str?_bare, Heap.inspect_bare hprint]
      rfl
    | div => rfl
    | mod => rfl
  | [x, y] =>
    cases b with
    | div =>
      simp only [List.map_cons, List.map_nil, call, divisionArgs_bare]
      cases divisionArgs div x y <;> rfl
    | mod =>
      simp only [List.map_cons, List.map_nil, call, divisionArgs_bare]
      cases divisionArgs mod x y <;> rfl
    | _ => rfl
  | _ :: _ :: _ :: _ => cases b <;> rfl

end Builtin

/-! ## Applications -/

namespace Applied

def bare (bools : Bool) : Applied → Applied
  | .done r => .done (bareResult bools r)
  | .enter c scope others => .enter c scope (others.map (Value.bare bools))
  | .again fn others => .again (fn.bare bools) (others.map (Value.bare bools))

theorem give_bare (v : Value) (others : List Value) :
    give (v.bare bools) (others.map (Value.bare bools)) = (give v others).bare bools := by
  cases others <;> rfl

/-- What a round comes to, without wrappers. -/
def bareRound (bools : Bool) (x : Applied × EvalState) : Applied × EvalState :=
  (x.1.bare bools, x.2.bare bools)

variable {lib : HostLibrary} {pos : Pos} {args others : List Value} {s : EvalState}

theorem call_bare {fn : Callable} (hhost : ∀ d, fn ≠ .host d)
    (hprint : bools = true → ∀ b, fn = .builtin b → b.printsHostBool s.heap args = false) :
    call lib pos fn (args.map (Value.bare bools)) (others.map (Value.bare bools)) (s.bare bools) =
      bareRound bools (call lib pos fn args others s) := by
  cases fn with
  | closure c =>
    simp only [call, Closure.bindParams_bare]
    cases Closure.bindParams c.params args with
    | error v =>
      simp only [Value.typeName_bare]
      rfl
    | ok vars =>
      have hvars : (vars.bare bools).reverse = Table.bare bools vars.reverse :=
        List.map_reverse.symm
      have hscope := s.heap.newScope_bare bools vars.reverse (some c.scope)
      simp only [EvalState.bare, hvars, hscope]
      rfl
  | builtin b =>
    have hcall := Builtin.call_bare fun hb => hprint hb b rfl
    simp only [call, EvalState.bare, hcall]
    cases b.call s.heap args with
    | error f => rfl
    | ok p =>
      simp only [Builtin.bareCall, Except.map, give_bare]
      rfl
  | host d => exact absurd rfl (hhost d)

/-- An application has all the arguments it needs to call a function of the host. -/
def callsHost (fn : Value) (args : List Value) : Bool :=
  match fn.callable? with
  | some (.host d, before) => decide ((Callable.host d).arity ≤ (before ++ args).length)
  | _ => false

/-- An application asks for a text that shows a Boolean of the host. -/
def printsHostBool (h : Heap) (fn : Value) (args : List Value) : Bool :=
  match fn.callable? with
  | some (.builtin b, before) => b.printsHostBool h ((before ++ args).take b.arity)
  | _ => false

theorem callsHost_bare (fn : Value) :
    callsHost (fn.bare bools) (args.map (Value.bare bools)) = callsHost fn args := by
  unfold callsHost
  rw [Value.callable?_bare]
  rcases fn.callable? with _ | ⟨_ | _ | d, before⟩
  · rfl
  · rfl
  · rfl
  · simp only [Option.map_some, ← List.map_append, List.length_map]

theorem round_bare {fn : Value} (hhost : callsHost fn args = false)
    (hprint : bools = true → printsHostBool s.heap fn args = false) :
    round lib pos (fn.bare bools) (args.map (Value.bare bools)) (s.bare bools) =
      bareRound bools (round lib pos fn args s) := by
  unfold round
  rw [Value.callable?_bare]
  rcases hf : fn.callable? with _ | ⟨f, before⟩
  · simp only [Option.map_none, Value.typeName_bare]
    rfl
  · simp only [Option.map_some, ← List.map_append, List.length_map]
    split
    · simp only [bareRound, bare, bareResult, Except.map, Value.bare, Value.bareAll_eq_map]
    · rename_i hlength
      rw [← List.map_take, ← List.map_drop]
      refine call_bare ?_ ?_
      · rintro d rfl
        simp only [callsHost, hf, decide_eq_false_iff_not] at hhost
        exact hhost (Nat.le_of_not_lt hlength)
      · rintro hb b rfl
        simpa only [printsHostBool, hf, Callable.arity] using hprint hb

end Applied

/-! ## Machines -/

def Frame.bare (bools : Bool) : Frame → Frame
  | .argument depth pos fn before after scope =>
    .argument depth pos (fn.bare bools) (before.map (Value.bare bools)) after scope
  | .right depth pos op l => .right depth pos op (l.bare bools)
  | .thunk id t pos place => .thunk id (t.bare bools) pos place
  | .body depth pos place others => .body depth pos place (others.map (Value.bare bools))
  | f => f

def Control.bare (bools : Bool) : Control → Control
  | .eval depth e scope => .eval depth e scope
  | .apply depth pos fn args => .apply depth pos (fn.bare bools) (args.map (Value.bare bools))
  | .give r => .give (bareResult bools r)

namespace Machine

/-- The configuration with no wrapper in it. -/
def bare (bools : Bool) (c : Machine) : Machine :=
  ⟨c.control.bare bools, c.frames.map (Frame.bare bools), c.state.bare bools⟩

/-- The next step calls a function of the host. -/
def callsHost (c : Machine) : Bool :=
  match c.control with
  | .apply _ _ fn args => Applied.callsHost fn args
  | _ => false

/-- The next step makes a text that shows a Boolean of the host. -/
def printsHostBool (c : Machine) : Bool :=
  match c.control with
  | .apply _ _ fn args => Applied.printsHostBool c.state.heap fn args
  | _ => false

theorem callsHost_bare (c : Machine) : (c.bare bools).callsHost = c.callsHost := by
  obtain ⟨control, frames, s⟩ := c
  cases control with
  | apply depth pos fn args => exact Applied.callsHost_bare fn
  | _ => rfl

section
variable (depth : Nat) (pos : Pos) (frames : List Frame) (s : EvalState)

theorem demand_bare (v : Value) :
    demand depth (v.bare bools) (frames.map (Frame.bare bools)) (s.bare bools) =
      (demand depth v frames s).bare bools := by
  unfold demand
  rw [s.demand_bare]
  cases s.demand v with
  | now r => rfl
  | code id t e scope =>
    simp only [Demand.bare, EvalState.startThunk_bare]
    rfl

theorem arguments_bare (fn : Value) (before : List Value) (after : List Expr) (scope : ScopeId) :
    arguments depth pos (fn.bare bools) (before.map (Value.bare bools)) after scope
        (frames.map (Frame.bare bools)) (s.bare bools) =
      (arguments depth pos fn before after scope frames s).bare bools := by
  cases after with
  | nil =>
    simp only [arguments, ← List.map_reverse]
    rfl
  | cons e es => rfl

theorem value_bare {v : Value} (hv : v.bare bools = v) :
    value v (frames.map (Frame.bare bools)) (s.bare bools) = (value v frames s).bare bools := by
  simp only [value, bare, Control.bare, bareResult, Except.map, hv]

theorem operate_bare (op : Operator) (l r : Value) :
    operate depth pos op (l.bare bools) (r.bare bools) (frames.map (Frame.bare bools))
        (s.bare bools) = (operate depth pos op l r frames s).bare bools := by
  unfold operate
  rw [op.eval_bare]
  split
  · rfl
  · split
    · rename_i v he
      exact value_bare frames s (Value.bare_of_isPlain (Operator.isPlain_eval he))
    · rfl

theorem lookup_bare (x : String) (scope : ScopeId) :
    (match (s.bare bools).heap.lookup scope x with
      | some v => demand depth v (frames.map (Frame.bare bools)) (s.bare bools)
      | none => error pos (.undefined x) (frames.map (Frame.bare bools)) (s.bare bools)) =
    bare bools (match s.heap.lookup scope x with
      | some v => demand depth v frames s
      | none => error pos (.undefined x) frames s) := by
  simp only [EvalState.bare, Heap.lookup_bare]
  cases s.heap.lookup scope x with
  | none => rfl
  | some v => exact demand_bare depth frames s v

theorem node_bare (e : Expr) (scope : ScopeId) :
    node depth e scope (frames.map (Frame.bare bools)) (s.bare bools) =
      (node depth e scope frames s).bare bools := by
  cases e with
  | var p x => exact lookup_bare depth p frames s x scope
  | qualified p mod x => exact lookup_bare depth p frames s _ scope
  | operator p op =>
    have hscope := s.heap.newScope_bare bools [] none
    simp only [Table.bare, List.map_nil] at hscope
    simp only [node, EvalState.bare, hscope]
    rfl
  | letIn p binds body =>
    have hscope := s.heap.newScope_bare bools [] (some scope)
    simp only [Table.bare, List.map_nil] at hscope
    simp only [node, EvalState.bare, hscope, Heap.newBindings_bare]
    rfl
  | _ => rfl

theorem evaluate_bare (set : Setting) (e : Expr) (scope : ScopeId) :
    evaluate set depth e scope (frames.map (Frame.bare bools)) (s.bare bools) =
      (evaluate set depth e scope frames s).bare bools := by
  cases depth with
  | zero => rfl
  | succ depth =>
    simp only [evaluate, s.tick_bare]
    split
    · rfl
    · exact node_bare depth frames s.tick.2 e scope

theorem resume_bare (f : Frame) (v : Value) :
    resume (f.bare bools) (v.bare bools) (frames.map (Frame.bare bools)) (s.bare bools) =
      (resume f v frames s).bare bools := by
  cases f with
  | function depth pos args scope => exact arguments_bare depth pos frames s v [] args scope
  | argument depth pos fn before after scope =>
    exact arguments_bare depth pos frames s fn (v :: before) after scope
  | left depth pos op right scope =>
    simp only [Frame.bare, resume, op.shortcut_bare]
    split
    · split <;> rfl
    · rfl
  | right depth pos op l => exact operate_bare depth pos frames s op l v
  | negate pos =>
    simp only [Frame.bare, resume, Value.int?_bare, Value.typeName_bare]
    split <;> rfl
  | test depth pos yes no scope =>
    simp only [Frame.bare, resume, Value.bool?_bare, Value.typeName_bare]
    split <;> rfl
  | thunk id t pos place =>
    have hfinish := s.finishThunk_bare bools id t pos place (.ok v)
    simp only [bareResult, Except.map] at hfinish
    simp only [Frame.bare, resume, hfinish]
    rfl
  | body depth pos place others => cases others <;> rfl

theorem unwind_bare (f : Frame) (e : RuntimeError) :
    unwind (f.bare bools) e (frames.map (Frame.bare bools)) (s.bare bools) =
      (unwind f e frames s).bare bools := by
  cases f with
  | thunk id t pos place =>
    have hfinish := s.finishThunk_bare bools id t pos place (.error e)
    simp only [bareResult, Except.map] at hfinish
    simp only [Frame.bare, unwind, hfinish]
    rfl
  | _ => rfl

theorem applied_bare (a : Applied) :
    applied depth pos (a.bare bools) (frames.map (Frame.bare bools)) (s.bare bools) =
      (applied depth pos a frames s).bare bools := by
  cases a <;> rfl

end

/-! ## Steps and runs -/

def bareProgress (bools : Bool) : Progress → Progress
  | .going c => .going (c.bare bools)
  | .finished r s => .finished (bareResult bools r) (s.bare bools)

variable {set : Setting} {c c' d : Machine}

theorem next_bare (hhost : c.callsHost = false)
    (hprint : bools = true → c.printsHostBool = false) :
    (c.bare bools).next set = bareProgress bools (c.next set) := by
  obtain ⟨control, frames, s⟩ := c
  cases control with
  | eval depth e scope => exact congrArg Progress.going (evaluate_bare depth frames s set e scope)
  | apply depth pos fn args =>
    simp only [bare, Control.bare, next, Applied.round_bare hhost hprint, Applied.bareRound,
      applied_bare]
    rfl
  | give r =>
    cases frames with
    | nil => cases r <;> rfl
    | cons f frames =>
      cases r with
      | ok v => exact congrArg Progress.going (resume_bare frames s f v)
      | error e => exact congrArg Progress.going (unwind_bare frames s f e)

theorem next_alike (set : Setting) (h : c'.bare bools = c.bare bools) (hhost : c.callsHost = false)
    (hprint : bools = true → c.printsHostBool = false ∧ c'.printsHostBool = false) :
    bareProgress bools (c'.next set) = bareProgress bools (c.next set) := by
  have hhost' : c'.callsHost = false := by
    have hbare : (c'.bare bools).callsHost = false := by rw [h, callsHost_bare, hhost]
    rwa [callsHost_bare] at hbare
  rw [← next_bare hhost fun hb => (hprint hb).1, ← next_bare hhost' fun hb => (hprint hb).2, h]

/-- And so do their runs, if on the way no function of the host is called and, unless Booleans have the
same wrappers in both, none of the host is shown. -/
theorem run_alike (c : Machine) : ∀ {c' : Machine}, c'.bare bools = c.bare bools →
    (∀ d, Reaches set c d → d.callsHost = false) →
    (bools = true → ∀ d, Reaches set c d ∨ Reaches set c' d → d.printsHostBool = false) →
    bareResult bools (run set c').1 = bareResult bools (run set c).1 ∧
      (run set c').2.bare bools = (run set c).2.bare bools := by
  -- by induction on the run of the first machine; the second keeps step
  induction c using (wellFounded set).induction with
  | _ c ih =>
    intro c' h hhost hprint
    have hnext := next_alike set h (hhost c .refl) fun hb =>
      ⟨hprint hb c (.inl .refl), hprint hb c' (.inr .refl)⟩
    cases hn : c.next set with
    | finished r s =>
      cases hn' : c'.next set with
      | going d' =>
        rw [hn, hn'] at hnext
        cases hnext
      | finished r' s' =>
        rw [hn, hn'] at hnext
        injection hnext with hr hs
        rw [run_of_finished hn, run_of_finished hn']
        exact ⟨hr, hs⟩
    | going d =>
      cases hn' : c'.next set with
      | finished r' s' =>
        rw [hn, hn'] at hnext
        cases hnext
      | going d' =>
        rw [hn, hn'] at hnext
        injection hnext with hd
        rw [run_of_going hn, run_of_going hn']
        refine ih d hn hd (fun e he => hhost e (.head hn he)) fun hb e he => hprint hb e ?_
        exact he.imp (.head hn) (.head hn')

/-- The machine comes to its end in fewer than `n` steps, and all configurations up to there are
`ok`. -/
def watched (set : Setting) (ok : Machine → Bool) : (n : Nat) → Machine → Bool
  | 0, _ => false
  | n + 1, c => ok c && match c.next set with
    | .going c' => watched set ok n c'
    | .finished _ _ => true

theorem of_watched {ok : Machine → Bool} {n : Nat} (h : watched set ok n c = true)
    (hr : Reaches set c d) : ok d = true := by
  induction n generalizing c with
  | zero => cases h
  | succ n ih =>
    obtain ⟨hok, hrest⟩ := Bool.and_eq_true_iff.mp h
    rcases hr.cases_head with rfl | ⟨c', hn, hr⟩
    · exact hok
    · rw [hn] at hrest
      exact ih hrest hr

end Machine

/-! ## Evaluation -/

namespace EvalState

variable {set : Setting}

/-- The configuration that an evaluation starts from. -/
def start (set : Setting) (s : EvalState) (e : Expr) (scope : ScopeId) : Machine :=
  ⟨.eval set.limit e scope, [], s⟩

/-- **Wrapped values behave like those of the language.** Two heaps are the same but for wrappers around
integers, texts and, if `bools` says so, Booleans. Then an expression that calls no function of the host
has results with the same content in both, or it fails in both with the same error at the same place, and
the heaps are again the same but for wrappers. With Booleans among them, neither evaluation may show a
Boolean of the host by `error`, or by `show` of a cell: they show it in the host's way. -/
theorem eval_alike {s s' : EvalState} {e : Expr} {scope : ScopeId}
    (hs : s'.bare bools = s.bare bools)
    (hhost : ∀ c, Machine.Reaches set (s.start set e scope) c → c.callsHost = false)
    (hprint : bools = true → ∀ c, Machine.Reaches set (s.start set e scope) c ∨
      Machine.Reaches set (s'.start set e scope) c → c.printsHostBool = false) :
    Agrees (fun v v' => v'.int? = v.int? ∧ v'.str? = v.str? ∧ v'.bool? = v.bool? ∧
        v'.bare bools = v.bare bools) (s.eval set e scope).1 (s'.eval set e scope).1 ∧
      (s'.eval set e scope).2.bare bools = (s.eval set e scope).2.bare bools := by
  have hstart : (s'.start set e scope).bare bools = (s.start set e scope).bare bools :=
    congrArg (Machine.mk _ _) hs
  obtain ⟨hresult, hstate⟩ := Machine.run_alike _ hstart hhost hprint
  exact ⟨agrees_of_bareResult hresult, hstate⟩

/-- What `error` says of a Boolean tells where it comes from. -/
example : Builtin.error.call {} [.host (.ofBool true)] = .error (.raised "true") ∧
    Builtin.error.call {} [.bool true] = .error (.raised "True") :=
  ⟨rfl, rfl⟩

/-- Somewhere a number, a Boolean and a text are defined. -/
def offering (n b t : Value) : EvalState where
  heap := { scopes := #[⟨[("n", n), ("b", b), ("t", t), ("show", .builtin .show)], none⟩] }
  patience := .endless

/-- `if b then show n ++ t else t`, with all three wrapped or not. -/
theorem eval_alike_offering :
    let set : Setting := ⟨.empty, 10⟩
    let native := offering (.int 5) (.bool true) (.str "!")
    let wrapped := offering (.host (.ofInt64 5)) (.host (.ofBool true)) (.host (.ofText "!"))
    let e : Expr := .cond ⟨1, 1⟩ (.var ⟨1, 4⟩ "b")
      (.binary ⟨1, 18⟩ .append (.app (.var ⟨1, 11⟩ "show") [.var ⟨1, 16⟩ "n"]) (.var ⟨1, 21⟩ "t"))
      (.var ⟨1, 28⟩ "t")
    wrapped.bare true = native.bare true ∧
    (∀ c, Machine.Reaches set (native.start set e 0) c → c.callsHost = false) ∧
    (∀ c, Machine.Reaches set (native.start set e 0) c ∨
      Machine.Reaches set (wrapped.start set e 0) c → c.printsHostBool = false) ∧
    Agrees (fun v v' => v'.int? = v.int? ∧ v'.str? = v.str? ∧ v'.bool? = v.bool? ∧
      v'.bare true = v.bare true) (native.eval set e 0).1 (wrapped.eval set e 0).1 ∧
    (wrapped.eval set e 0).1.toOption.bind Value.str? = some "5!" := by
  intro set native wrapped e
  have hbare : wrapped.bare true = native.bare true := by
    simp [wrapped, native, offering, bare, Heap.bare, Scope.bare, Table.bare, Value.bare,
      HostData.bare_ofInt64, HostData.bare_ofBool, HostData.bare_ofText]
  have hhost : ∀ c, Machine.Reaches set (native.start set e 0) c → c.callsHost = false := by
    intro c hc
    have hw : Machine.watched set (fun c => !c.callsHost) 40 (native.start set e 0) = true := by
      decide +kernel
    simpa using Machine.of_watched hw hc
  have hprint : ∀ c, Machine.Reaches set (native.start set e 0) c ∨
      Machine.Reaches set (wrapped.start set e 0) c → c.printsHostBool = false := by
    have hw : Machine.watched set (fun c => !c.printsHostBool) 40 (native.start set e 0) = true := by
      decide +kernel
    have hw' : Machine.watched set (fun c => !c.printsHostBool) 40 (wrapped.start set e 0) = true := by
      decide +kernel
    rintro c (hc | hc)
    · simpa using Machine.of_watched hw hc
    · simpa using Machine.of_watched hw' hc
  exact ⟨hbare, hhost, hprint, (eval_alike hbare hhost fun _ => hprint).1, by decide +kernel⟩

end EvalState

end LazySession
