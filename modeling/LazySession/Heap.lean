import LazySession.Value
import LazySession.Table

/-!
# The heap

Thunks, cells and scopes live in the heap. Nothing is ever removed from it, so an address stays
valid.
-/

namespace LazySession

inductive ThunkState
  | pending
  /-- Its expression is being evaluated. -/
  | forcing
  | done (v : Value)
deriving Repr, Inhabited

/-- A value that is evaluated when it is first needed. -/
structure Thunk where
  name : String
  /-- The expression and the scope it stands in. -/
  code : Option (Expr × ScopeId)
  source : String
  /-- The type that the value has to have. -/
  want : Option BaseType
  state : ThunkState
deriving Repr, Inhabited

/-- The names of one block. -/
structure Scope where
  vars : Table Value
  /-- The scope around it, which was there before. -/
  outer : Option ScopeId
deriving Repr, Inhabited

structure Heap where
  thunks : Array Thunk := #[]
  /-- A cell may be empty. -/
  cells : Array (Option Value) := #[]
  scopes : Array Scope := #[]
deriving Repr, Inhabited

namespace Heap

/-! ## Thunks and cells -/

def newThunk (h : Heap) (t : Thunk) : ThunkId × Heap :=
  (h.thunks.size, { h with thunks := h.thunks.push t })

def setThunk (h : Heap) (id : ThunkId) (state : ThunkState) : Heap :=
  { h with thunks := h.thunks.modify id fun t => { t with state } }

def newCell (h : Heap) (v : Option Value) : CellId × Heap :=
  (h.cells.size, { h with cells := h.cells.push v })

def getCell? (h : Heap) (id : CellId) : Option Value :=
  (h.cells[id]?).join

def setCell (h : Heap) (id : CellId) (v : Value) : Heap :=
  { h with cells := h.cells.setIfInBounds id (some v) }

/-- The value of a thunk that has been evaluated. -/
def thunkValue? (h : Heap) (id : ThunkId) : Option Value :=
  match h.thunks[id]? with
  | some { state := .done v, .. } => some v
  | _ => none

/-! ## Scopes -/

def newScope (h : Heap) (vars : Table Value) (outer : Option ScopeId) : ScopeId × Heap :=
  (h.scopes.size, { h with scopes := h.scopes.push { vars, outer } })

def setVar (h : Heap) (id : ScopeId) (name : String) (v : Value) : Heap :=
  { h with scopes := h.scopes.modify id fun s => { s with vars := s.vars.put name v } }

/-- The value of a name in a scope or in the nearest one around it that has it. -/
def lookup (h : Heap) (id : ScopeId) (name : String) : Option Value :=
  match h.scopes[id]? with
  | none => none
  | some s => match s.vars.get? name with
    | some v => some v
    | none => match s.outer with
      | none => none
      | some o => if o < id then lookup h o name else none
termination_by id

def vars (h : Heap) (id : ScopeId) : Table Value :=
  (h.scopes[id]?.map (·.vars)).getD []

def outer? (h : Heap) (id : ScopeId) : Option ScopeId :=
  h.scopes[id]?.bind (·.outer)

/-- The scope of the functions that every module starts with. -/
def newRoot (h : Heap) : ScopeId × Heap :=
  h.newScope (Builtin.all.map fun b => (b.name, .builtin b)) none

/-- What a binding makes in a scope: a function if it has parameters, a thunk otherwise. -/
def newBinding (h : Heap) (b : Binding) (scope : ScopeId) (source : String)
    (want : Option BaseType) : Value × Heap :=
  match b.params with
  | p :: ps =>
    (.closure { name := some b.name, param := p, more := ps, body := b.body, scope, source }, h)
  | [] =>
    let (id, h) := h.newThunk
      { name := b.name, code := some (b.body, scope), source, want, state := .pending }
    (.thunk id, h)

/-- Makes every binding in a scope that they all see. -/
def newBindings (h : Heap) (bs : List Binding) (scope : ScopeId) (source : String) : Heap :=
  bs.foldl (fun h b =>
    let (v, h) := h.newBinding b scope source none
    h.setVar scope b.name v) h

/-! ## Showing values -/

/-- The text of a value, following at most `steps` cells and thunks. A cell in `seen` is one that the
value is found in. -/
def inspectFrom (h : Heap) : (steps : Nat) → (seen : List CellId) → Value → String
  | _, _, .int v => Text.ofInt64 v
  | _, _, .bool b => if b then "True" else "False"
  | _, _, .str s => s
  | _, _, .unit => "()"
  | _, _, .closure c => c.inspect
  | _, _, .builtin b => (Callable.builtin b).inspect
  | _, _, .partialApp fn args =>
    "<partial " ++ fn.inspect ++ " with " ++ toString args.length ++ " args>"
  | _, _, .host d => d.inspect
  | _, _, .noHost => "<invalid Go value>"
  | 0, _, .cell _ => "<ref>"
  | steps + 1, seen, .cell id =>
    if seen.contains id then "<ref>"
    else match h.getCell? id with
      | some v => "<ref " ++ inspectFrom h steps (id :: seen) v ++ ">"
      | none => "<ref>"
  | steps, seen, .thunk id => match steps, h.thunks[id]? with
    | steps + 1, some { state := .done v, .. } => inspectFrom h steps seen v
    | _, some t => "<thunk " ++ t.name ++ ">"
    | _, none => "<thunk >"

/-- The text of a value. A cell that holds itself counts as empty there, so no path from a value
follows a cell twice. -/
def inspect (h : Heap) (v : Value) : String :=
  h.inspectFrom (h.cells.size + h.thunks.size) [] v

/-- A value for the host, following at most `steps` evaluated thunks. -/
def toHostFrom (h : Heap) : (steps : Nat) → Value → HostValue
  | steps + 1, .thunk id => match h.thunkValue? id with
    | some v => toHostFrom h steps v
    | none => .object (.thunk id)
  | _, v => .ofValue v

/-- A value for the host; a thunk that has been evaluated counts as its value. -/
def toHost (h : Heap) (v : Value) : HostValue :=
  h.toHostFrom h.thunks.size v

end Heap

end LazySession
