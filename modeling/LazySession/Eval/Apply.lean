import LazySession.Eval.Primitive

/-!
# One round of application

A function applied to some arguments takes as many as it has parameters. What it gives is then
applied to the others, in a further round.
-/

namespace LazySession

/-- What one round comes to. -/
inductive Applied
  | done (r : Except RuntimeError Value)
  /-- The body of a closure is to be evaluated in a new scope; its value is then applied to the
  other arguments. -/
  | enter (c : Closure) (scope : ScopeId) (others : List Value)
  /-- The value that was given is applied to the other arguments. -/
  | again (fn : Value) (others : List Value)

namespace Closure

/-- The variables that the arguments make. The pattern `()` makes none and fails, with the value it
met, on everything else. -/
def bindParams : List Param → List Value → Except Value (Table Value)
  | .named x :: ps, v :: vs => do return ((x, v) :: (← bindParams ps vs))
  | .unit :: ps, v :: vs => if v.isUnit then bindParams ps vs else .error v
  | _, _ => .ok []

end Closure

namespace Applied

/-- Ends with a value, or goes on if there are other arguments. -/
def give (v : Value) : List Value → Applied
  | [] => .done (.ok v)
  | a :: as => .again v (a :: as)

/-- Calls something with as many arguments as it takes. -/
def call (lib : HostLibrary) (pos : Pos) (fn : Callable) (args others : List Value)
    (s : EvalState) : Applied × EvalState :=
  match fn with
  | .closure c => match Closure.bindParams c.params args with
    | .error v => (.done (.error (s.error pos (.unitParam c.inspect v.typeName))), s)
    | .ok vars =>
      let (scope, heap) := s.heap.newScope vars.reverse (some c.scope)
      (.enter c scope others, { s with heap })
  | .builtin b => match b.call s.heap args with
    | .error f =>
      (.done (.error { place := ⟨s.place.source, b.name :: s.place.trace⟩, pos, fault := f }), s)
    | .ok (v, heap) => (give v others, { s with heap })
  | .host d => match d.call lib s.heap args with
    | .error (f, cause) => (.done (.error { s.error pos f with cause }), s)
    | .ok v => (give v others, s)

/-- Applies a value to arguments. With fewer than its parameters, a function waits for the
others. -/
def round (lib : HostLibrary) (pos : Pos) (fn : Value) (args : List Value) (s : EvalState) :
    Applied × EvalState :=
  match fn.callable? with
  | none => (.done (.error (s.error pos (.notFunction fn.typeName))), s)
  | some (f, before) =>
    let all := before ++ args
    if all.length < f.arity then (.done (.ok (.partialApp f all)), s)
    else call lib pos f (all.take f.arity) (all.drop f.arity) s

end Applied

end LazySession
