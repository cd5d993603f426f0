import LazySession.Proofs.Eval.Course

/-!
# Endless patience stays endless

Only the count of steps takes from the patience of an evaluation, and nothing can be taken from what
is endless: `EvalState.endless_force`.
-/

namespace LazySession

theorem Applied.patience_round (lib : HostLibrary) (pos : Pos) (fn : Value) (args : List Value)
    (s : EvalState) : (round lib pos fn args s).2.patience = s.patience := by
  unfold round
  split
  · rfl
  · rename_i f before _
    simp only
    split
    · rfl
    · cases f <;> simp only [call] <;> split <;> rfl

theorem EvalState.patience_finishThunk (s : EvalState) (id : ThunkId) (t : Thunk) (pos : Pos)
    (place : Place) (r : Except RuntimeError Value) :
    (s.finishThunk id t pos place r).2.patience = s.patience := by
  cases r with
  | error e => rfl
  | ok v =>
    simp only [finishThunk]
    split
    · rfl
    · split <;> rfl

namespace Machine

variable {set : Setting} (depth : Nat) (frames : List Frame) (s : EvalState)

theorem patience_demand (v : Value) : (demand depth v frames s).state.patience = s.patience := by
  unfold demand
  split <;> rfl

theorem patience_arguments (pos : Pos) (fn : Value) (before : List Value) (after : List Expr)
    (scope : ScopeId) :
    (arguments depth pos fn before after scope frames s).state.patience = s.patience := by
  cases after <;> rfl

theorem patience_operate (pos : Pos) (op : Operator) (l r : Value) :
    (operate depth pos op l r frames s).state.patience = s.patience := by
  unfold operate
  split
  · rfl
  · split <;> rfl

theorem patience_node (e : Expr) (scope : ScopeId) :
    (node depth e scope frames s).state.patience = s.patience := by
  cases e with
  | var p name | qualified p mod name =>
    simp only [node]
    split
    · exact patience_demand _ _ _ _
    · rfl
  | _ => rfl

theorem patience_resume (f : Frame) (v : Value) :
    (resume f v frames s).state.patience = s.patience := by
  cases f with
  | function depth pos args scope => exact patience_arguments _ _ _ _ _ _ _ _
  | argument depth pos fn before after scope => exact patience_arguments _ _ _ _ _ _ _ _
  | left depth pos op right scope =>
    simp only [resume]
    split
    · split <;> rfl
    · rfl
  | right depth pos op left => exact patience_operate _ _ _ _ _ _ _
  | negate pos =>
    simp only [resume]
    split <;> rfl
  | test depth pos yes no scope =>
    simp only [resume]
    split <;> rfl
  | thunk id t pos place => exact s.patience_finishThunk id t pos place (.ok v)
  | body depth pos place others => cases others <;> rfl

theorem patience_unwind (f : Frame) (e : RuntimeError) :
    (unwind f e frames s).state.patience = s.patience := by
  cases f with
  | thunk id t pos place => exact s.patience_finishThunk id t pos place (.error e)
  | _ => rfl

theorem endless_next {c c' : Machine} (hn : c.next set = .going c')
    (h : c.state.patience = .endless) : c'.state.patience = .endless := by
  obtain ⟨control, frames, s⟩ := c
  cases control with
  | eval depth e scope =>
    cases hn
    cases depth with
    | zero => exact h
    | succ depth =>
      -- the one step that asks
      obtain ⟨patience, htick, hendless⟩ := tick_eq s
      have hp : s.tick.2.patience = .endless := by
        rw [htick]
        exact (hendless h).1
      simp only [evaluate]
      split
      · exact hp
      · rw [patience_node]
        exact hp
  | apply depth pos fn args =>
    rw [next_apply] at hn
    cases hn
    have hround := Applied.patience_round set.host pos fn args s
    generalize Applied.round set.host pos fn args s = p at hround
    obtain ⟨a, s'⟩ := p
    cases a <;> exact hround.trans h
  | give r =>
    cases frames with
    | nil => cases r <;> cases hn
    | cons f frames =>
      cases r with
      | ok v =>
        cases hn
        exact (patience_resume _ _ _ _).trans h
      | error e =>
        cases hn
        exact (patience_unwind _ _ _ _).trans h

end Machine

theorem EvalState.endless_force (set : Setting) {s : EvalState} (h : s.patience = .endless)
    (v : Value) : (s.force set v).2.patience = .endless :=
  Machine.run_keeps (P := fun c => c.state.patience = .endless)
    (fun _ _ hc hn => Machine.endless_next hn hc) _ ((Machine.patience_demand _ _ _ _).trans h)

end LazySession
