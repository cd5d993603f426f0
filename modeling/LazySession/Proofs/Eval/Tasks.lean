import LazySession.Proofs.Eval.Settled

/-!
# Tasks of the machine

The machine evaluates an expression, demands a value or applies a function. What it does for such a
task does not depend on what waits for the result: `Machine.run_under` takes a run apart into the
task alone and what the frames behind it make of its result.
-/

namespace LazySession

/-- What the machine can be asked for. -/
inductive Task
  | eval (e : Expr) (scope : ScopeId)
  | force (v : Value)
  | apply (pos : Pos) (fn : Value) (args : List Value)

namespace Task

/-- The first configuration, with the depth that is left and the frames that wait for the result. -/
def start (depth : Nat) (frames : List Frame) (s : EvalState) : Task → Machine
  | eval e scope => ⟨.eval depth e scope, frames, s⟩
  | force v => Machine.demand depth v frames s
  | apply pos fn args => ⟨.apply depth pos fn args, frames, s⟩

/-- What the task comes to with the depth that is left. -/
def run (set : Setting) (depth : Nat) (t : Task) (s : EvalState) :
    Except RuntimeError Value × EvalState :=
  Machine.run set (t.start depth [] s)

end Task

namespace Machine

/-- The machine with further frames behind its own. -/
def under (c : Machine) (frames : List Frame) : Machine :=
  { c with frames := c.frames ++ frames }

section
variable (depth : Nat) (pos : Pos) (scope : ScopeId) (fs frames : List Frame) (s : EvalState)

theorem demand_under (v : Value) :
    demand depth v (fs ++ frames) s = (demand depth v fs s).under frames := by
  unfold demand
  split <;> rfl

theorem arguments_under (fn : Value) (before : List Value) (after : List Expr) :
    arguments depth pos fn before after scope (fs ++ frames) s =
      (arguments depth pos fn before after scope fs s).under frames := by
  cases after <;> rfl

theorem operate_under (op : Operator) (l r : Value) :
    operate depth pos op l r (fs ++ frames) s = (operate depth pos op l r fs s).under frames := by
  unfold operate
  split
  · rfl
  · split <;> rfl

theorem node_under (e : Expr) :
    node depth e scope (fs ++ frames) s = (node depth e scope fs s).under frames := by
  cases e with
  | var p name | qualified p mod name =>
    simp only [node]
    split
    · apply demand_under
    · rfl
  | _ => rfl

theorem evaluate_under (set : Setting) (e : Expr) :
    evaluate set depth e scope (fs ++ frames) s =
      (evaluate set depth e scope fs s).under frames := by
  cases depth with
  | zero => rfl
  | succ depth =>
    simp only [evaluate]
    split
    · rfl
    · apply node_under

theorem resume_under (f : Frame) (v : Value) :
    resume f v (fs ++ frames) s = (resume f v fs s).under frames := by
  cases f with
  | function depth pos args scope => apply arguments_under
  | argument depth pos fn before after scope => apply arguments_under
  | left depth pos op right scope =>
    simp only [resume]
    split
    · split <;> rfl
    · rfl
  | right depth pos op left => apply operate_under
  | negate pos | test depth pos yes no scope =>
    simp only [resume]
    split <;> rfl
  | thunk id t pos place => rfl
  | body depth pos place others => cases others <;> rfl

theorem unwind_under (f : Frame) (e : RuntimeError) :
    unwind f e (fs ++ frames) s = (unwind f e fs s).under frames := by
  cases f <;> rfl

end

variable {set : Setting} {c d : Machine}

theorem next_under (h : c.next set = .going d) (frames : List Frame) :
    (c.under frames).next set = .going (d.under frames) := by
  obtain ⟨control, fs, s⟩ := c
  cases control with
  | eval depth e scope =>
    cases h
    show Progress.going (evaluate set depth e scope (fs ++ frames) s) = _
    rw [evaluate_under]
  | apply depth pos fn args =>
    rw [next_apply] at h
    cases h
    show next set ⟨.apply depth pos fn args, fs ++ frames, s⟩ = _
    rw [next_apply]
    cases (Applied.round set.host pos fn args s).1 <;> rfl
  | give r =>
    cases fs with
    | nil => cases r <;> cases h
    | cons f fs =>
      cases r with
      | ok v =>
        cases h
        show Progress.going (resume f v (fs ++ frames) s) = _
        rw [resume_under]
      | error e =>
        cases h
        show Progress.going (unwind f e (fs ++ frames) s) = _
        rw [unwind_under]

theorem reaches_under (h : Reaches set c d) (frames : List Frame) :
    Reaches set (c.under frames) (d.under frames) := by
  induction h with
  | refl => exact .refl
  | tail _ hn ih => exact ih.tail (next_under hn frames)

theorem run_of_reaches (h : Reaches set c d) : run set c = run set d := by
  induction h with
  | refl => rfl
  | tail _ hn ih => rw [ih, run_of_going hn]

theorem run_under (set : Setting) (c : Machine) (frames : List Frame) :
    run set (c.under frames) = run set ⟨.give (run set c).1, frames, (run set c).2⟩ :=
  run_of_reaches (reaches_under (reaches_run set c) frames)

end Machine

namespace Task

theorem start_under (t : Task) (depth : Nat) (fs frames : List Frame) (s : EvalState) :
    t.start depth (fs ++ frames) s = (t.start depth fs s).under frames := by
  cases t with
  | force v => apply Machine.demand_under
  | _ => rfl

/-- The frames that wait for a task are there unchanged when it hands them its result. -/
theorem reaches_run (set : Setting) (t : Task) (depth : Nat) (frames : List Frame)
    (s : EvalState) :
    Machine.Reaches set (t.start depth frames s)
      ⟨.give (t.run set depth s).1, frames, (t.run set depth s).2⟩ := by
  have h := Machine.reaches_under (Machine.reaches_run set (t.start depth [] s)) frames
  rwa [← start_under, List.nil_append] at h

theorem run_start (set : Setting) (t : Task) (depth : Nat) (frames : List Frame) (s : EvalState) :
    Machine.run set (t.start depth frames s) =
      Machine.run set ⟨.give (t.run set depth s).1, frames, (t.run set depth s).2⟩ :=
  Machine.run_of_reaches (reaches_run set t depth frames s)

end Task

end LazySession
