import LazySession.Heap

/-!
# Objects that a host makes

A host may bind objects of the language that it has made itself, out of things that it knows. Numbers,
truth values and the like need no place in the heap. A cell and an environment get new places, which the
host can pass on only by passing on the object. A cell that it knows it may also write, and the
environment of a function that it knows may be around a new one.

Thunks and errors are not among them: the language makes these for itself.
-/

namespace LazySession

/-- How a host makes an object. What is known to it is told by its number. -/
inductive Craft
  | alone (v : Value) (h : v.isAlone = true)
  /-- A cell, which may be empty. -/
  | cell (content : Option Nat)
  /-- A known cell with another content. -/
  | refilled (old content : Nat)
  /-- A function that has been given fewer arguments than it takes. -/
  | partialApp (fn : Nat) (args : List Nat)
  /-- The function `name` among definitions that are made where all of `vars` can be seen, and what the
  known function `around` sees, if there is one. -/
  | function (around : Option Nat) (vars : Table Nat) (defs : List Binding) (source name : String)

namespace Craft

/-- A scope to make things in: that of the known function, or a new one of the functions that every
module has. -/
def surroundings (known : Nat → HostValue) (h : Heap) (around : Option Nat) : ScopeId × Heap :=
  match around.map fun n => (known n).toValue with
  | some (.closure c) => (c.scope, h)
  | _ => h.newRoot

/-- A new scope with what the host puts there. -/
def environment (known : Nat → HostValue) (h : Heap) (around : Option Nat) (vars : Table Nat) :
    ScopeId × Heap :=
  let (outer, h) := surroundings known h around
  h.newScope (vars.map fun x => (x.1, (known x.2).toValue)) (some outer)

/-- Makes the object, if it is one. -/
def make (known : Nat → HostValue) (h : Heap) : Craft → Option Value × Heap
  | alone v _ => (some v, h)
  | cell content =>
    let (id, h) := h.newCell (content.map fun n => (known n).toValue)
    (some (.cell id), h)
  | refilled old content => match (known old).toValue with
    | .cell id => (some (.cell id), h.setCell id (known content).toValue)
    | _ => (none, h)
  | partialApp fn args => match (known fn).toValue.callable? with
    | some (f, []) =>
      if args.length < f.arity then (some (.partialApp f (args.map fun n => (known n).toValue)), h)
      else (none, h)
    | _ => (none, h)
  | function around vars defs source name =>
    let (scope, h) := environment known h around vars
    let h := h.newBindings defs scope source
    match h.lookup scope name with
    | some (.closure c) => (some (.closure c), h)
    | _ => (none, h)

/-- What the host has then. -/
def value (known : Nat → HostValue) (h : Heap) (c : Craft) : HostValue :=
  match (c.make known h).1 with
  | some v => .object v
  | none => .nil

end Craft

end LazySession
