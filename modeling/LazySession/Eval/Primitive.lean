import LazySession.Eval.State
import LazySession.Host.Library

/-!
# Operators, builtin functions and host functions
-/

namespace LazySession

/-! ## Operators -/

namespace Operator

/-- Integer arithmetic wraps around at 64 bits; `/` and `%` round toward zero. -/
def arithmetic (op : Operator) (a b : Int64) : Except RuntimeFault Int64 :=
  match op with
  | .add => .ok (a + b)
  | .sub => .ok (a - b)
  | .mul => .ok (a * b)
  | .div => if b = 0 then .error .divisionByZero else .ok (a / b)
  | _ => if b = 0 then .error .divisionByZero else .ok (a % b)

/-- Whether two values are equal, if they can be compared. -/
def equal? (l r : Value) : Option Bool :=
  match l.int?, l.str?, l.bool? with
  | some a, _, _ => r.int?.map (a == ·)
  | none, some a, _ => r.str?.map (a == ·)
  | none, none, some a => r.bool?.map (a == ·)
  | none, none, none => if l.isUnit ∧ r.isUnit then some true else none

/-- The order of two values, if they have one. Texts are ordered by their code points. -/
def compare? (l r : Value) : Option Ordering :=
  match l.int?, l.str? with
  | some a, _ => r.int?.map fun b => if a < b then .lt else if b < a then .gt else .eq
  | none, some a => r.str?.map fun b => if a < b then .lt else if b < a then .gt else .eq
  | none, none => none

/-- Whether an order satisfies an ordering operator. -/
def accepts (op : Operator) (o : Ordering) : Bool :=
  match op with
  | .lt => o == .lt
  | .le => o != .gt
  | .gt => o == .gt
  | _ => o != .lt

/-- An operator on two values that have been evaluated. -/
def eval (op : Operator) (l r : Value) : Except RuntimeFault Value :=
  match op with
  | .add | .sub | .mul | .div | .rem =>
    match l.int?, r.int? with
    | some a, some b => (op.arithmetic a b).map .int
    | _, _ => .error (.arithmetic op l.typeName r.typeName)
  | .append =>
    match l.str?, r.str? with
    | some a, some b => .ok (.str (a ++ b))
    | _, _ => .error (.concatenation l.typeName r.typeName)
  | .eq | .ne =>
    match equal? l r with
    | some b => .ok (.bool (if op = .eq then b else !b))
    | none => .error (.comparison l.typeName r.typeName)
  | .lt | .le | .gt | .ge =>
    match compare? l r with
    | some o => .ok (.bool (op.accepts o))
    | none => .error (.ordering l.typeName r.typeName)
  | .and | .or =>
    match r.bool? with
    | some b => .ok (.bool b)
    | none => .error (.logical op r.typeName)
  | .apply => .error (.notFunction l.typeName)

/-- What `&&` and `||` do with their left operand: the result if that decides it. -/
def shortcut (op : Operator) (l : Value) : Except RuntimeFault (Option Bool) :=
  match l.bool? with
  | none => .error (.logical op l.typeName)
  | some b => .ok (if b = (op = .or) then some b else none)

end Operator

/-! ## Builtin functions -/

namespace Builtin

/-- The quotient rounded down. -/
def floorDiv (a b : Int64) : Int64 :=
  if a % b ≠ 0 ∧ (a < 0) ≠ (b < 0) then a / b - 1 else a / b

/-- The remainder that goes with the quotient rounded down. -/
def floorMod (a b : Int64) : Int64 :=
  if a % b ≠ 0 ∧ (a % b < 0) ≠ (b < 0) then a % b + b else a % b

/-- Two integers of which the second is not zero. -/
def divisionArgs (b : Builtin) (x y : Value) : Except RuntimeFault (Int64 × Int64) :=
  match x.int?, y.int? with
  | none, _ => .error (.builtinArg b "Int" x.typeName)
  | some _, none => .error (.builtinArg b "Int" y.typeName)
  | some m, some n => if n = 0 then .error (.builtinZero b) else .ok (m, n)

/-- The text of a value as source; integers and strings of the host count as those of the
language. -/
def showText (h : Heap) (v : Value) : String :=
  match v.int?, v.str?, v.bool?, v with
  | some i, _, _, _ => Text.ofInt64 i
  | none, some s, _, _ => Text.quote s
  | none, none, some b, _ => if b then "True" else "False"
  | none, none, none, .host d => d.text
  | none, none, none, .noHost => "<nil>"
  | none, none, none, v => h.inspect v

/-- A builtin function applied to as many arguments as it takes. -/
def call (h : Heap) (b : Builtin) (args : List Value) : Except RuntimeFault (Value × Heap) :=
  match b, args with
  | newRef, [v] =>
    let (id, h) := h.newCell (some v)
    .ok (.cell id, h)
  | readRef, [v] => match v with
    | .cell id => match h.getCell? id with
      | some v => .ok (v, h)
      | none => .error .emptyCell
    | v => .error (.builtinArg readRef "Ref" v.typeName)
  | .show, [v] => .ok (.str (showText h v), h)
  | not, [v] => match v.bool? with
    | some b => .ok (.bool (!b), h)
    | none => .error (.builtinArg not "Bool" v.typeName)
  | negate, [v] => match v.int? with
    | some i => .ok (.int (-i), h)
    | none => .error (.builtinArg negate "Int" v.typeName)
  | div, [x, y] => do
    let (m, n) ← divisionArgs div x y
    return (.int (floorDiv m n), h)
  | mod, [x, y] => do
    let (m, n) ← divisionArgs mod x y
    return (.int (floorMod m n), h)
  | length, [v] => match v.str? with
    | some s => .ok (.int (Int64.ofNat s.length), h)
    | none => .error (.builtinArg length "String" v.typeName)
  | error, [v] => .error (.raised (v.str?.getD (h.inspect v)))
  | _, _ => .ok (.unit, h)

end Builtin

/-! ## Host functions -/

namespace HostData

/-- The datum in a variable of the type. An interface holds it as it is. -/
def stored (d : HostData) (t : HostType) : HostData :=
  if t.isInterface then d else { d with type := t }

/-- A value as an argument of the given type. `()` stands for the zero value, and whole numbers
change their width, keeping the lowest bits. -/
def argument? (h : Heap) (v : Value) (t : HostType) : Option HostValue :=
  match h.toHost v with
  | .nil => some (.zero t)
  | .object v => if v.objectType.assignable t then some (.object v) else none
  | .data d =>
    if d.type.assignable t then some (.data (d.stored t))
    else match d.content, t.intKind? with
      | .int i, some k => some (.data ⟨t, .int (k.wrap i)⟩)
      | _, _ => none

/-- All arguments of a call, the first of them having the given number. -/
def arguments (h : Heap) (number : Nat) :
    List Value → List HostType → Except RuntimeFault (List HostValue)
  | v :: vs, t :: ts => match argument? h v t with
    | some a => do return a :: (← arguments h (number + 1) vs ts)
    | none => .error (.hostArg number v.typeName t.text)
  | _, _ => .ok []

/-- A host function applied to as many arguments as it takes. -/
def call (lib : HostLibrary) (h : Heap) (d : HostData) (args : List Value) :
    Except (RuntimeFault × Option Cause) Value :=
  match d.type.base, d.content with
  | .func ps variadic _, .func name held =>
    if variadic then .error (.variadic d.type.text, none)
    else match arguments h 1 args ps with
      | .error f => .error (f, none)
      | .ok vs => match lib.call name held vs with
        | .error text => .error (.raised text, some (.host text))
        | .ok [] => .ok .unit
        | .ok [v] => .ok v.toValue
        | .ok vs => .error (.hostResults d.type.text vs.length, none)
  | _, _ => .error (.notFunction d.typeName, none)

end HostData

end LazySession
