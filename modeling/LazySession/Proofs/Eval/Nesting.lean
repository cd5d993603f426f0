import LazySession.Proofs.Eval.Slack
import LazySession.Proofs.Eval.Tasks

/-!
# Evaluation comes to an end

`Task.terminates`: every task is done after finitely many steps, at no time with more expressions being
evaluated inside of one another than the limit allows. What the two guards of the machine are there
for is said by comparison with a machine that has none (`Machine.unguarded`): either both come to
the same, or one of the guards has ended a run that might have gone on for ever.
-/

namespace LazySession

namespace Machine

/-! ## Counted steps -/

/-- What a machine comes to within a number of steps. -/
def within (step : Machine → Progress) : Nat → Machine → Option (Except RuntimeError Value × EvalState)
  | 0, _ => none
  | n + 1, c => match step c with
    | .finished r s => some (r, s)
    | .going c' => within step n c'

variable {set : Setting} {c d : Machine}

theorem within_of_going {step : Machine → Progress} {n : Nat} {p : Except RuntimeError Value × EvalState}
    (h : step c = .going d) (hd : within step n d = some p) : within step (n + 1) c = some p := by
  simp only [within, h, hd]

theorem within_run (set : Setting) (c : Machine) :
    ∃ n, within (next set) n c = some (run set c) := by
  induction c using (wellFounded set).induction with
  | _ c ih =>
    cases hn : c.next set with
    | finished r s => exact ⟨1, by simp only [within, hn, run_of_finished hn]⟩
    | going d =>
      obtain ⟨n, h⟩ := ih d hn
      exact ⟨n + 1, by rw [run_of_going hn]; exact within_of_going hn h⟩

/-! ## Evaluations inside of one another -/

/-- The machine comes to an expression that it has the depth for. While this is evaluated, with
nothing else waiting, it comes to the next, and so on, `n` times. -/
inductive Nests (set : Setting) : Nat → Machine → Prop
  | none (c : Machine) : Nests set 0 c
  | more {c : Machine} {n depth : Nat} {e : Expr} {scope : ScopeId} {frames : List Frame}
    {s : EvalState} (hc : Reaches set c ⟨.eval (depth + 1) e scope, frames, s⟩)
    (h : Nests set n (evaluate set (depth + 1) e scope [] s)) : Nests set (n + 1) c

end Machine

/-- The depth that is left for what comes next. -/
def Control.depth : Control → Nat
  | .eval depth .. | .apply depth .. => depth
  | .give _ => 0

namespace Machine

variable {set : Setting} {c d : Machine}

/-- Nowhere is more than this depth left. -/
structure Below (n : Nat) (c : Machine) : Prop where
  control : c.control.depth ≤ n
  frames : ∀ f ∈ c.frames, f.depth ≤ n

section
variable {n depth : Nat} {frames : List Frame}

theorem below_cons {control : Control} {f : Frame} (hc : control.depth ≤ n) (hf : f.depth ≤ n)
    (h : ∀ f ∈ frames, f.depth ≤ n) (s : EvalState) : Below n ⟨control, f :: frames, s⟩ := by
  refine ⟨hc, fun g hg => ?_⟩
  rcases List.mem_cons.mp hg with rfl | hg
  · exact hf
  · exact h g hg

variable (hd : depth ≤ n) (h : ∀ f ∈ frames, f.depth ≤ n)
include hd h

theorem below_demand (v : Value) (s : EvalState) : Below n (demand depth v frames s) := by
  unfold demand
  split
  · exact ⟨Nat.zero_le n, h⟩
  · exact below_cons hd (Nat.zero_le n) h _

theorem below_node (e : Expr) (scope : ScopeId) (s : EvalState) :
    Below n (node depth e scope frames s) := by
  cases e with
  | var p name | qualified p mod name =>
    simp only [node]
    split
    · apply below_demand hd h
    · exact ⟨Nat.zero_le n, h⟩
  | app fn args => exact below_cons hd hd h s
  | binary p op l r => exact below_cons hd hd h s
  | negate p x => exact below_cons hd (Nat.zero_le n) h s
  | letIn p binds body => exact ⟨hd, h⟩
  | cond p test yes no => exact below_cons hd hd h s
  | _ => exact ⟨Nat.zero_le n, h⟩

theorem below_arguments (pos : Pos) (fn : Value) (before : List Value) (after : List Expr)
    (scope : ScopeId) (s : EvalState) :
    Below n (arguments depth pos fn before after scope frames s) := by
  cases after with
  | nil => exact ⟨hd, h⟩
  | cons a as => exact below_cons hd hd h s

omit hd in
theorem below_resume {f : Frame} (hf : f.depth ≤ n) (v : Value) (s : EvalState) :
    Below n (resume f v frames s) := by
  cases f with
  | function depth pos args scope => apply below_arguments hf h
  | argument depth pos fn before after scope => apply below_arguments hf h
  | left depth pos op right scope =>
    simp only [resume]
    split
    · split
      · exact ⟨Nat.zero_le n, h⟩
      · exact ⟨Nat.zero_le n, h⟩
      · refine below_cons ?_ ?_ h s <;> exact hf
    · refine below_cons ?_ ?_ h s <;> exact hf
  | right depth pos op left =>
    simp only [resume, operate]
    split
    · exact ⟨hf, h⟩
    · split <;> exact ⟨Nat.zero_le n, h⟩
  | negate pos =>
    simp only [resume]
    split <;> exact ⟨Nat.zero_le n, h⟩
  | test depth pos yes no scope =>
    simp only [resume]
    split
    · exact ⟨hf, h⟩
    · exact ⟨Nat.zero_le n, h⟩
  | thunk id t pos place => exact ⟨Nat.zero_le n, h⟩
  | body depth pos place others =>
    cases others with
    | nil => exact ⟨Nat.zero_le n, h⟩
    | cons a as => exact ⟨hf, h⟩

end

theorem below_next {n : Nat} (hc : c.Below n) (hn : c.next set = .going d) : d.Below n := by
  obtain ⟨control, frames, s⟩ := c
  obtain ⟨hcontrol, hframes⟩ := hc
  cases control with
  | eval depth e scope =>
    cases hn
    cases depth with
    | zero => exact ⟨Nat.zero_le n, hframes⟩
    | succ depth =>
      simp only [evaluate]
      split
      · exact ⟨Nat.zero_le n, hframes⟩
      · exact below_node (Nat.le_of_succ_le hcontrol) hframes _ _ _
  | apply depth pos fn args =>
    rw [next_apply] at hn
    cases hn
    cases (Applied.round set.host pos fn args s).1 with
    | done r => exact ⟨Nat.zero_le n, hframes⟩
    | enter c scope others => refine below_cons ?_ ?_ hframes _ <;> exact hcontrol
    | again v others => exact ⟨hcontrol, hframes⟩
  | give r =>
    cases frames with
    | nil => cases r <;> cases hn
    | cons f frames =>
      have hf : f.depth ≤ n := hframes f List.mem_cons_self
      have hfs : ∀ g ∈ frames, g.depth ≤ n := fun g hg => hframes g (List.mem_cons_of_mem f hg)
      cases r with
      | ok v => cases hn; exact below_resume hfs hf v s
      | error e => cases hn; cases f <;> exact ⟨Nat.zero_le n, hfs⟩

theorem below_reaches {n : Nat} (hc : c.Below n) (h : Reaches set c d) : d.Below n := by
  induction h with
  | refl => exact hc
  | tail _ hn ih => exact below_next ih hn

theorem below_evaluate (set : Setting) (depth : Nat) (e : Expr) (scope : ScopeId)
    (s : EvalState) : Below depth (evaluate set (depth + 1) e scope [] s) := by
  simp only [evaluate]
  split
  · exact ⟨Nat.zero_le _, List.forall_mem_nil _⟩
  · exact below_node (Nat.le_refl depth) (List.forall_mem_nil _) _ _ _

theorem nests_le {n depth : Nat} (h : Nests set n c) (hc : c.Below depth) : n ≤ depth := by
  induction h generalizing depth with
  | none c => exact Nat.zero_le depth
  | more hr _ ih =>
    -- each evaluation takes a level from those inside of it
    have hlt := (below_reaches hc hr).control
    exact Nat.le_trans (Nat.succ_le_succ (ih (below_evaluate ..))) hlt

end Machine

/-! ## The machine without guards -/

/-- The name that a variable is looked up by. -/
def Expr.name? : Expr → Option String
  | .var _ name => some name
  | .qualified _ mod name => some (mod ++ "." ++ name)
  | _ => none

/-- What it takes to get at a value if nobody minds that a thunk is demanded while its expression is
evaluated: the expression is evaluated again. -/
def EvalState.demandAgain (s : EvalState) (v : Value) : Demand :=
  match v with
  | .thunk id => match s.heap.thunks[id]? with
    | some t => match t.state, t.code with
      | .forcing, some (e, scope) => .code id t e scope
      | _, _ => s.demand v
    | none => s.demand v
  | v => s.demand v

namespace RuntimeFault

/-- The fault that one of the guards reports. -/
def IsGuard (limit : Nat) (f : RuntimeFault) : Prop := f = .overflow limit ∨ ∃ name, f = .loop name

end RuntimeFault

theorem EvalState.demandAgain_cases (s : EvalState) (v : Value) :
    s.demandAgain v = s.demand v ∨
      ∃ e name, s.demand v = .now (.error e) ∧ e.fault = .loop name := by
  cases v with
  | thunk id =>
    cases ht : s.heap.thunks[id]? with
    | none => exact .inl (by simp [demandAgain, ht])
    | some t =>
      obtain ⟨name, code, source, want, state⟩ := t
      cases state with
      | forcing =>
        cases code with
        | none => exact .inl (by simp [demandAgain, ht])
        | some c => exact .inr ⟨_, name, by simp [demand, ht]; rfl, rfl⟩
      | _ => exact .inl (by simp [demandAgain, ht])
  | _ => exact .inl rfl

namespace Machine

variable {set : Setting} {c d : Machine}

/-- Goes on with what it takes to get at a value. -/
def answer (depth : Nat) (d : Demand) (frames : List Frame) (s : EvalState) : Machine :=
  match d with
  | .now r => ⟨.give r, frames, s⟩
  | .code id t e scope =>
    ⟨.eval depth e scope, .thunk id t e.pos s.place :: frames, s.startThunk id t⟩

/-- Evaluates an expression whatever depth is left. -/
def evaluateFreely (depth : Nat) (e : Expr) (scope : ScopeId) (frames : List Frame)
    (s : EvalState) : Machine :=
  let (stop, s) := s.tick
  if stop then
    ⟨.give (.error { s.error e.pos .interrupted with cause := some .canceled }), frames, s⟩
  else match e.name?.bind (s.heap.lookup scope) with
    | some v => answer depth (s.demandAgain v) frames s
    | none => node depth e scope frames s

/-- One step of the machine that has no limit and goes into a thunk as often as it is demanded. -/
def unguarded (set : Setting) (c : Machine) : Progress :=
  match c with
  | ⟨.eval depth e scope, frames, s⟩ => .going (evaluateFreely (depth - 1) e scope frames s)
  | c => c.next set

theorem node_eq_answer {depth : Nat} {e : Expr} {scope : ScopeId} {frames : List Frame}
    {s : EvalState} {v : Value} (h : e.name?.bind (s.heap.lookup scope) = some v) :
    node depth e scope frames s = answer depth (s.demand v) frames s := by
  cases e with
  | var p name | qualified p mod name =>
    simp only [Expr.name?, Option.bind_some] at h
    simp only [node, h]
    rfl
  | _ => cases h

theorem unguarded_next (hn : c.next set = .going d) :
    c.unguarded set = .going d ∨
      ∃ e, d.control = .give (.error e) ∧ e.fault.IsGuard set.limit := by
  obtain ⟨control, frames, s⟩ := c
  cases control with
  | eval depth e scope =>
    cases hn
    cases depth with
    | zero => exact .inr ⟨_, rfl, .inl rfl⟩
    | succ depth =>
      simp only [unguarded, evaluateFreely, evaluate, Nat.add_sub_cancel]
      split
      · exact .inl rfl
      · split
        · rename_i v hv
          rw [node_eq_answer hv]
          obtain hd | ⟨e, name, hd, he⟩ := s.tick.2.demandAgain_cases v
          · exact .inl (by rw [hd])
          · exact .inr ⟨e, by rw [hd]; rfl, .inr ⟨name, he⟩⟩
        · exact .inl rfl
  | apply depth pos fn args => exact .inl hn
  | give r => exact .inl hn

theorem unguarded_run (set : Setting) (c : Machine) :
    (∃ e, (run set c).1 = .error e ∧ e.fault.IsGuard set.limit) ∨
      ∃ n, within (unguarded set) n c = some (run set c) := by
  induction c using (wellFounded set).induction with
  | _ c ih =>
    cases hn : c.next set with
    | finished r s =>
      rw [run_of_finished hn]
      refine .inr ⟨1, ?_⟩
      obtain ⟨control, frames, s'⟩ := c
      cases control with
      | give r => simp only [within, unguarded, hn]
      | _ => cases hn
    | going d =>
      rw [run_of_going hn]
      obtain hu | ⟨e, hd, he⟩ := unguarded_next hn
      · refine (ih d hn).imp id fun h => ?_
        obtain ⟨n, h⟩ := h
        exact ⟨n + 1, within_of_going hu h⟩
      · -- nothing stops an error
        obtain ⟨control, frames, s⟩ := d
        cases hd
        exact .inl ⟨e, run_error frames e s, he⟩

end Machine

theorem Task.below_start (t : Task) (depth : Nat) (s : EvalState) :
    (t.start depth [] s).Below depth := by
  cases t with
  | force v => exact Machine.below_demand (Nat.le_refl depth) (List.forall_mem_nil _) v s
  | _ => exact ⟨Nat.le_refl depth, List.forall_mem_nil _⟩

/-- **Every task comes to an end.** It takes finitely many steps, and at no time are more than
`set.limit` expressions evaluated inside of one another. If it does not end as it would without a
limit and without a look-out for loops, the error is an overflow or a loop; so these are the only
ends of a task that would otherwise go on for ever. -/
theorem Task.terminates (set : Setting) (t : Task) (s : EvalState) :
    (∃ n, Machine.within (Machine.next set) n (t.start set.limit [] s) =
      some (t.run set set.limit s)) ∧
    (∀ n, Machine.Nests set n (t.start set.limit [] s) → n ≤ set.limit) ∧
    ((∃ e, (t.run set set.limit s).1 = .error e ∧
        (e.fault = .overflow set.limit ∨ ∃ name, e.fault = .loop name)) ∨
      ∃ n, Machine.within (Machine.unguarded set) n (t.start set.limit [] s) =
        some (t.run set set.limit s)) := by
  refine ⟨Machine.within_run set _, fun n hn => ?_, Machine.unguarded_run set _⟩
  exact Machine.nests_le hn (t.below_start set.limit s)

/-- `let f x = f x in f ()` goes on until there is no depth left. -/
example :
    let p : Pos := ⟨1, 1⟩
    let f : Binding := ⟨p, "f", [.named "x"], false, .app (.var p "f") [.var p "x"]⟩
    let s : EvalState := { heap := { scopes := #[⟨[], none⟩] }, patience := .endless }
    let call : Expr := .letIn p [f] (.app (.var p "f") [.unit p])
    (match ((Task.eval call 0).run ⟨.empty, 10⟩ 10 s).1 with
      | .error e => e.fault == .overflow 10
      | .ok _ => false) = true := by
  decide +kernel

end LazySession
