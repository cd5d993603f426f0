import LazySession.Eval.Apply
import LazySession.Eval.Thunk

/-!
# The evaluation machine

Evaluation is a loop over configurations: an expression to evaluate, an application to carry out or
a result to hand back, together with the frames that wait for it. Nesting costs frames and no more,
so an expression may be nested as deep as the limit says.

Every expression is evaluated one level deeper than the one around it, and level 0 is refused.
That is why the loop ends: `Machine.accessible` shows that from no configuration there is an endless
run.
-/

namespace LazySession

/-- What stays the same during an evaluation. -/
structure Setting where
  host : HostLibrary
  /-- How deep evaluations may be nested. -/
  limit : Nat

/-- Something that waits for a value. `depth` is the depth left for what it evaluates next. -/
inductive Frame
  /-- The function of an application. -/
  | function (depth : Nat) (pos : Pos) (args : List Expr) (scope : ScopeId)
  /-- An argument, behind the values in `before` (last first). -/
  | argument (depth : Nat) (pos : Pos) (fn : Value) (before : List Value) (after : List Expr)
    (scope : ScopeId)
  | left (depth : Nat) (pos : Pos) (op : Operator) (right : Expr) (scope : ScopeId)
  | right (depth : Nat) (pos : Pos) (op : Operator) (left : Value)
  | negate (pos : Pos)
  | test (depth : Nat) (pos : Pos) (yes no : Expr) (scope : ScopeId)
  /-- The expression of a thunk, evaluated at `place`. -/
  | thunk (id : ThunkId) (t : Thunk) (pos : Pos) (place : Place)
  /-- The body of a function, called at `place` with further arguments to follow. -/
  | body (depth : Nat) (pos : Pos) (place : Place) (others : List Value)

inductive Control
  | eval (depth : Nat) (e : Expr) (scope : ScopeId)
  | apply (depth : Nat) (pos : Pos) (fn : Value) (args : List Value)
  | give (r : Except RuntimeError Value)

structure Machine where
  control : Control
  frames : List Frame
  state : EvalState

/-- The next configuration, or the end. -/
inductive Progress
  | going (c : Machine)
  | finished (r : Except RuntimeError Value) (s : EvalState)

namespace Machine

def value (v : Value) (frames : List Frame) (s : EvalState) : Machine :=
  ⟨.give (.ok v), frames, s⟩

def error (pos : Pos) (fault : RuntimeFault) (frames : List Frame) (s : EvalState) : Machine :=
  ⟨.give (.error (s.error pos fault)), frames, s⟩

/-- Gets at a value, going into a thunk if need be. -/
def demand (depth : Nat) (v : Value) (frames : List Frame) (s : EvalState) : Machine :=
  match s.demand v with
  | .now r => ⟨.give r, frames, s⟩
  | .code id t e scope =>
    ⟨.eval depth e scope, .thunk id t e.pos s.place :: frames, s.startThunk id t⟩

/-- Evaluates the arguments that are left and then applies the function. -/
def arguments (depth : Nat) (pos : Pos) (fn : Value) (before : List Value) (after : List Expr)
    (scope : ScopeId) (frames : List Frame) (s : EvalState) : Machine :=
  match after with
  | [] => ⟨.apply depth pos fn before.reverse, frames, s⟩
  | a :: as => ⟨.eval depth a scope, .argument depth pos fn before as scope :: frames, s⟩

/-- An operator between two values. -/
def operate (depth : Nat) (pos : Pos) (op : Operator) (l r : Value) (frames : List Frame)
    (s : EvalState) : Machine :=
  if op = .apply then ⟨.apply depth pos l [r], frames, s⟩
  else match op.eval l r with
    | .ok v => value v frames s
    | .error f => error pos f frames s

/-- An expression whose parts are evaluated with `depth` levels left. -/
def node (depth : Nat) (e : Expr) (scope : ScopeId) (frames : List Frame) (s : EvalState) :
    Machine :=
  match e with
  | .int _ v => value (.int v) frames s
  | .str _ v => value (.str v) frames s
  | .bool _ v => value (.bool v) frames s
  | .unit _ => value .unit frames s
  | .var p name => match s.heap.lookup scope name with
    | some v => demand depth v frames s
    | none => error p (.undefined name) frames s
  | .qualified p mod name => match s.heap.lookup scope (mod ++ "." ++ name) with
    | some v => demand depth v frames s
    | none => error p (.undefined (mod ++ "." ++ name)) frames s
  | .app fn args => ⟨.eval depth fn scope, .function depth fn.pos args scope :: frames, s⟩
  | .binary p op l r => ⟨.eval depth l scope, .left depth p op r scope :: frames, s⟩
  | .negate p x => ⟨.eval depth x scope, .negate p :: frames, s⟩
  | .operator p op =>
    let (inner, heap) := s.heap.newScope [] none
    value (.closure (.ofOperator p op inner s.place.source)) frames { s with heap }
  | .lambda _ p ps body =>
    value (.closure { name := none, param := p, more := ps, body, scope, source := s.place.source })
      frames s
  | .letIn _ binds body =>
    let (inner, heap) := s.heap.newScope [] (some scope)
    ⟨.eval depth body inner, frames,
      { s with heap := heap.newBindings binds inner s.place.source }⟩
  | .cond _ test yes no =>
    ⟨.eval depth test scope, .test depth test.pos yes no scope :: frames, s⟩

/-- Evaluates an expression: the limit first, then the count of steps. -/
def evaluate (set : Setting) (depth : Nat) (e : Expr) (scope : ScopeId) (frames : List Frame)
    (s : EvalState) : Machine :=
  match depth with
  | 0 => error e.pos (.overflow set.limit) frames s
  | depth + 1 =>
    let (stop, s) := s.tick
    if stop then
      ⟨.give (.error { s.error e.pos .interrupted with cause := some .canceled }), frames, s⟩
    else node depth e scope frames s

/-- Hands a value to the frame that waits for it. -/
def resume (f : Frame) (v : Value) (frames : List Frame) (s : EvalState) : Machine :=
  match f with
  | .function depth pos args scope => arguments depth pos v [] args scope frames s
  | .argument depth pos fn before after scope =>
    arguments depth pos fn (v :: before) after scope frames s
  | .left depth pos op right scope =>
    if op = .and ∨ op = .or then
      match op.shortcut v with
      | .error f => error pos f frames s
      | .ok (some b) => value (.bool b) frames s
      | .ok none => ⟨.eval depth right scope, .right depth pos op v :: frames, s⟩
    else ⟨.eval depth right scope, .right depth pos op v :: frames, s⟩
  | .right depth pos op left => operate depth pos op left v frames s
  | .negate pos => match v.int? with
    | some i => value (.int (-i)) frames s
    | none => error pos (.negation v.typeName) frames s
  | .test depth pos yes no scope => match v.bool? with
    | some b => ⟨.eval depth (if b then yes else no) scope, frames, s⟩
    | none => error pos (.notBool v.typeName) frames s
  | .thunk id t pos place =>
    let (r, s) := s.finishThunk id t pos place (.ok v)
    ⟨.give r, frames, s⟩
  | .body depth pos place others =>
    match others with
    | [] => value v frames (s.leave place)
    | a :: as => ⟨.apply depth pos v (a :: as), frames, s.leave place⟩

/-- Hands an error to the frame: thunks and functions are left, all else is dropped. -/
def unwind (f : Frame) (e : RuntimeError) (frames : List Frame) (s : EvalState) : Machine :=
  match f with
  | .thunk id t pos place =>
    let (r, s) := s.finishThunk id t pos place (.error e)
    ⟨.give r, frames, s⟩
  | .body _ _ place _ => ⟨.give (.error e), frames, s.leave place⟩
  | _ => ⟨.give (.error e), frames, s⟩

/-- Carries out one round of an application. -/
def applied (depth : Nat) (pos : Pos) (a : Applied) (frames : List Frame) (s : EvalState) :
    Machine :=
  match a with
  | .done r => ⟨.give r, frames, s⟩
  | .enter c scope others =>
    ⟨.eval depth c.body scope, .body depth pos s.place others :: frames,
      s.enter c.source c.traceName⟩
  | .again fn others => ⟨.apply depth pos fn others, frames, s⟩

/-- One step. -/
def next (set : Setting) (c : Machine) : Progress :=
  match c with
  | ⟨.eval depth e scope, frames, s⟩ => .going (evaluate set depth e scope frames s)
  | ⟨.apply depth pos fn args, frames, s⟩ =>
    let (a, s) := Applied.round set.host pos fn args s
    .going (applied depth pos a frames s)
  | ⟨.give r, [], s⟩ => .finished r s
  | ⟨.give (.ok v), f :: frames, s⟩ => .going (resume f v frames s)
  | ⟨.give (.error e), f :: frames, s⟩ => .going (unwind f e frames s)

end Machine

end LazySession
