import LazySession.Interpreter
import LazySession.Session.Prelude

/-!
# The state of a session
-/

namespace LazySession

/-- Whether anything is bound: the number of bound names. -/
structure Phase where
  count : Int
deriving DecidableEq, Repr

namespace Phase

def fresh : Phase := ⟨0⟩

def text (p : Phase) : String :=
  if p = fresh then "fresh" else "bound(" ++ toString p.count ++ ")"

end Phase

/-- A value that is bound, and the type it was first bound with. -/
structure Bound where
  type : String
  value : HostValue
deriving Repr

structure Session where
  history : History
  loader : Loader
  /-- In the order in which the names were first bound. -/
  bindings : Table Bound
  prelude : String
  /-- How often the prelude has been loaded. -/
  reloads : Nat

namespace Session

/-- A session before anything is done. -/
def fresh (g : Generator) : Session :=
  { history := {}, loader := .empty, bindings := [], prelude := g.prelude, reloads := 0 }

def phase (s : Session) : Phase := ⟨s.bindings.length⟩

/-- The definitions accepted so far, oldest first. -/
def definitions (s : Session) : List String := s.history.program

/-- The names bound, in the order in which they first were. -/
def boundNames (s : Session) : List String := s.bindings.names

def binding? (s : Session) (name : String) : Option HostValue :=
  (s.bindings.get? name).map (·.value)

end Session

end LazySession
