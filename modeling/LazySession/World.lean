import LazySession.Cache
import LazySession.Check.Program
import LazySession.Error
import LazySession.Eval.Run
import LazySession.Lang.Fragment

/-!
# What sessions share

Compiled modules live in entries. An entry is linked at most once, and its instance is shared by
every loader that holds the entry.
-/

namespace LazySession

abbrev EntryId := Nat

abbrev InstanceId := Nat

/-- A module that has been compiled, and its instance once it has been linked. -/
structure Entry where
  code : ModuleCode
  linked : Option InstanceId
deriving Repr

/-- A linked module: its name and what it defines. -/
structure Instance where
  name : String
  fields : Table Value
deriving Repr

/-- A text that has been read. -/
abbrev Parsed := Except (List SyntaxError) Fragment

/-- Whether work has been called off. -/
structure Context where
  /-- Called off before it began, so that it does not even wait for its turn. -/
  closed : Bool := false
  patience : Patience := .endless
deriving Repr

structure World where
  heap : Heap := {}
  entries : Array Entry := #[]
  instances : Array Instance := #[]
  cache : Cache Parsed
  context : Context := {}

/-- Work on the world that may fail. What was changed before a failure stays changed. -/
abbrev Act (α : Type) := ExceptT Error (StateM World) α

namespace Act

/-- Stops if the work has been called off. -/
def inquire : Act Unit := do
  let w ← get
  let (stop, patience) := w.context.patience.inquire
  set { w with context := { w.context with patience } }
  if stop then throw .canceled

/-- Names what is being done in case it fails. -/
def during {α : Type} (activity : Activity) (act : Act α) : Act α :=
  tryCatch act fun e => throw (.during activity e)

/-- Evaluates with the heap of the world. `steps` is the number of steps done before; the result
tells the number after. -/
def evaluate (steps : Nat)
    (run : EvalState → Except RuntimeError Value × EvalState) : Act (Value × Nat) := do
  let w ← get
  let (r, s) := run { heap := w.heap, patience := w.context.patience, steps }
  set { w with heap := s.heap, context := { w.context with patience := s.patience } }
  match r with
  | .ok v => return (v, s.steps)
  | .error e => throw (.runtime e)

end Act

end LazySession
