import LazySession.Eval.Halting

/-!
# Running the machine

`Machine.run_of_finished` and `Machine.run_of_going` say what a run comes to, one step at a time.
-/

namespace LazySession

namespace Machine

/-- Runs to the end. -/
def run (set : Setting) : Machine → Except RuntimeError Value × EvalState :=
  (wellFounded set).fix fun c rest =>
    match h : c.next set with
    | .finished r s => (r, s)
    | .going c' => rest c' h

variable {set : Setting} {c c' : Machine} {r : Except RuntimeError Value} {s : EvalState}

theorem run_of_finished (h : c.next set = .finished r s) : run set c = (r, s) := by
  unfold run
  rw [WellFounded.fix_eq]
  split
  · simp_all
  · simp_all

theorem run_of_going (h : c.next set = .going c') : run set c = run set c' := by
  unfold run
  rw [WellFounded.fix_eq]
  split
  · simp_all
  · rename_i c₁ h₁
    obtain rfl : c₁ = c' := by simpa [h₁] using h
    rfl

end Machine

/-- The depth limit that is meant by a number; without a positive one it is 50000. -/
def depthLimit (n : Int) : Nat :=
  if n ≤ 0 then 50000 else n.toNat

namespace EvalState

/-- Evaluates an expression in a scope. -/
def eval (set : Setting) (s : EvalState) (e : Expr) (scope : ScopeId) :
    Except RuntimeError Value × EvalState :=
  Machine.run set ⟨.eval set.limit e scope, [], s⟩

/-- Evaluates a thunk; every other value is there already. -/
def force (set : Setting) (s : EvalState) (v : Value) : Except RuntimeError Value × EvalState :=
  Machine.run set (Machine.demand set.limit v [] s)

end EvalState

end LazySession
