import LazySession.Eval.State

/-!
# Demanding a value

A variable may hold a thunk. Its value is found once and kept; an error is not kept, so the thunk
is tried again when it is next demanded.
-/

namespace LazySession

/-- What it takes to get at a value. -/
inductive Demand
  /-- It is there, or cannot be had. -/
  | now (r : Except RuntimeError Value)
  /-- The expression of a thunk has to be evaluated. -/
  | code (id : ThunkId) (t : Thunk) (e : Expr) (scope : ScopeId)

namespace EvalState

/-- A thunk that is demanded while its expression is evaluated has no value, nor has one without an
expression. -/
def demand (s : EvalState) (v : Value) : Demand :=
  match v with
  | .thunk id => match s.heap.thunks[id]? with
    | none => .now (.ok v)
    | some t => match t.state, t.code with
      | .done v, _ => .now (.ok v)
      | .pending, some (e, scope) => .code id t e scope
      | .forcing, some (e, _) => .now (.error (s.error e.pos (.loop t.name)))
      | _, none => .now (.error (s.error ⟨0, 0⟩ (.loop t.name)))
  | v => .now (.ok v)

/-- Goes into a thunk. -/
def startThunk (s : EvalState) (id : ThunkId) (t : Thunk) : EvalState :=
  { s.enter t.source t.name with heap := s.heap.setThunk id .forcing }

/-- Comes back from a thunk to `place` with what its expression at `pos` gave. A value that is not
of the type it has to have is an error. -/
def finishThunk (s : EvalState) (id : ThunkId) (t : Thunk) (pos : Pos) (place : Place)
    (r : Except RuntimeError Value) : Except RuntimeError Value × EvalState :=
  let s := s.leave place
  let back := fun (st : ThunkState) => { s with heap := s.heap.setThunk id st }
  match r with
  | .error e => (.error e, back .pending)
  | .ok v => match t.want with
    | none => (.ok v, back (.done v))
    | some want =>
      if v.conforms want then (.ok v, back (.done v))
      else
        (.error { place := ⟨t.source, place.trace⟩, pos,
                  fault := .wrongType t.name want v.typeName }, back .pending)

end EvalState

end LazySession
