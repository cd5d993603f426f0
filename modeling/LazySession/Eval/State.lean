import LazySession.Eval.Fault
import LazySession.Heap

/-!
# The state of an evaluation
-/

namespace LazySession

/-- How long the work may go on: for ever, or for a number of further inquiries. -/
inductive Patience
  | endless
  | inquiries (left : Nat)
deriving DecidableEq, Repr, Inhabited

namespace Patience

/-- Asks whether the work has been called off. -/
def inquire : Patience → Bool × Patience
  | endless => (false, endless)
  | inquiries 0 => (true, inquiries 0)
  | inquiries (n + 1) => (false, inquiries n)

end Patience

/-- What evaluation reads and changes. -/
structure EvalState where
  heap : Heap
  patience : Patience
  /-- The number of expressions evaluated so far. -/
  steps : Nat := 0
  place : Place := ⟨"", []⟩
deriving Inhabited

namespace EvalState

/-- The inquiry is made once in so many steps. -/
def inquiryInterval : Nat := 1024

def error (s : EvalState) (pos : Pos) (fault : RuntimeFault) : RuntimeError :=
  { place := s.place, pos, fault }

/-- Counts a step. The result tells whether evaluation has to stop. -/
def tick (s : EvalState) : Bool × EvalState :=
  let s := { s with steps := s.steps + 1 }
  if s.steps % inquiryInterval = 0 then
    let (stop, patience) := s.patience.inquire
    (stop, { s with patience })
  else (false, s)

/-- Goes into a function or a thunk. -/
def enter (s : EvalState) (source name : String) : EvalState :=
  { s with place := ⟨source, name :: s.place.trace⟩ }

/-- Comes back to the place before. -/
def leave (s : EvalState) (place : Place) : EvalState :=
  { s with place }

end EvalState

end LazySession
