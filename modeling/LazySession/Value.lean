import LazySession.Host.Data
import LazySession.Lang.Tree
import LazySession.Text.Decimal

/-!
# Values

What an expression evaluates to. Cells and thunks are mutable, so a value only holds their place
in the heap. Functions hold the scope they were made in, also by its place.

Errors are not values: an error ends the evaluation at once, so no variable or cell ever holds one.
-/

namespace LazySession

abbrev ScopeId := Nat

abbrev CellId := Nat

abbrev ThunkId := Nat

/-- The functions that every module starts with. -/
inductive Builtin
  | div
  | error
  | length
  | mod
  | negate
  | newRef
  | not
  | readRef
  | show
deriving DecidableEq, Repr

namespace Builtin

def name : Builtin → String
  | div => "div"
  | error => "error"
  | length => "length"
  | mod => "mod"
  | negate => "negate"
  | newRef => "newRef"
  | not => "not"
  | readRef => "readRef"
  | .show => "show"

def arity : Builtin → Nat
  | div | mod => 2
  | _ => 1

/-- All of them, in the order of their names. -/
def all : List Builtin :=
  [div, error, length, mod, negate, newRef, not, readRef, .show]

end Builtin

/-- A function of the language and the scope it was made in. -/
structure Closure where
  /-- A function from a binding has its name, one from a lambda has none. -/
  name : Option String
  param : Param
  more : List Param
  body : Expr
  scope : ScopeId
  /-- The source that the body is written in. -/
  source : String
deriving Repr, Inhabited

namespace Closure

def params (c : Closure) : List Param := c.param :: c.more

def arity (c : Closure) : Nat := c.more.length + 1

def inspect (c : Closure) : String :=
  "<function " ++ c.name.getD ("\\" ++ Text.join " " (c.params.map (·.text))) ++ "/" ++
    toString c.arity ++ ">"

/-- An operator as a function of its operands. -/
def ofOperator (pos : Pos) (op : Operator) (scope : ScopeId) (source : String) : Closure :=
  { name := some ("(" ++ op.text ++ ")")
    param := .named "x"
    more := [.named "y"]
    body := .binary pos op (.var pos "x") (.var pos "y")
    scope
    source }

/-- The name it has in traces. -/
def traceName (c : Closure) : String := c.name.getD "lambda"

end Closure

/-- What can be called. -/
inductive Callable
  | closure (c : Closure)
  | builtin (b : Builtin)
  | host (d : HostData)
deriving Repr, Inhabited

namespace Callable

def arity : Callable → Nat
  | closure c => c.arity
  | builtin b => b.arity
  | host d => d.arity?.getD 0

def inspect : Callable → String
  | closure c => c.inspect
  | builtin b => "<builtin " ++ b.name ++ "/" ++ toString b.arity ++ ">"
  | host d => d.inspect

end Callable

inductive Value
  | int (value : Int64)
  | bool (value : Bool)
  | str (value : String)
  | unit
  | closure (c : Closure)
  | builtin (b : Builtin)
  /-- A function that was given fewer arguments than it takes. -/
  | partialApp (fn : Callable) (args : List Value)
  | cell (id : CellId)
  | thunk (id : ThunkId)
  | host (data : HostData)
  /-- A host value that holds nothing. -/
  | noHost
deriving Repr, Inhabited

/-- The types that a value can be checked against. -/
inductive BaseType
  | int
  | bool
  | string
  | unit
deriving DecidableEq, Repr

namespace BaseType

def text : BaseType → String
  | int => "Int"
  | bool => "Bool"
  | string => "String"
  | unit => "()"

def ofText? : String → Option BaseType
  | "Int" => some int
  | "Bool" => some bool
  | "String" => some string
  | "()" => some unit
  | _ => none

end BaseType

namespace Value

def int? : Value → Option Int64
  | int v => some v
  | host d => d.int?
  | _ => none

def bool? : Value → Option Bool
  | bool b => some b
  | host d => d.bool?
  | _ => none

def str? : Value → Option String
  | str s => some s
  | host d => d.text?
  | _ => none

def isUnit : Value → Bool
  | unit => true
  | _ => false

/-- The value leads nowhere in the heap. -/
def isAlone : Value → Bool
  | closure _ | partialApp _ _ | cell _ | thunk _ => false
  | _ => true

/-- The type as messages name it. -/
def typeName : Value → String
  | int _ => "Int"
  | bool _ => "Bool"
  | str _ => "String"
  | unit => "()"
  | closure _ | builtin _ | partialApp _ _ => "function"
  | cell _ => "Ref"
  | thunk _ => "thunk"
  | host d => d.typeName
  | noHost => "Go value"

/-- Whether the value is of a base type. Host values count as what they hold. -/
def conforms (v : Value) : BaseType → Bool
  | .int => v.int?.isSome
  | .bool => v.bool?.isSome
  | .string => v.str?.isSome
  | .unit => v.isUnit

/-- What is called when the value is applied, and the arguments it has been given before. -/
def callable? : Value → Option (Callable × List Value)
  | closure c => some (.closure c, [])
  | builtin b => some (.builtin b, [])
  | partialApp fn args => if args.length < fn.arity then some (fn, args) else none
  | host d => if d.arity?.isSome then some (.host d, []) else none
  | _ => none

end Value

/-! ## Crossing between the language and the host -/

/-- A value on the host's side: nothing, a datum, or a value of the language as it is. -/
inductive HostValue
  | nil
  | data (d : HostData)
  | object (v : Value)
deriving Repr, Inhabited

/-- The type that a value of the language has as an object of the host. -/
def Value.objectType (v : Value) : HostType :=
  .pointer (.named ("object." ++ match v with
    | .int _ => "Integer"
    | .bool _ => "Boolean"
    | .str _ => "String"
    | .unit => "Unit"
    | .closure _ => "Function"
    | .builtin _ => "Builtin"
    | .partialApp _ _ => "Partial"
    | .cell _ => "Ref"
    | .thunk _ => "Thunk"
    | .host _ | .noHost => "GoValue") .record)

namespace HostValue

/-- What a variable of the type holds before anything is stored in it. -/
def zero (t : HostType) : HostValue :=
  if t.isInterface then nil else data ⟨t, .zero t⟩

/-- A host value inside of the language. -/
def toValue : HostValue → Value
  | nil => .unit
  | data d => .host d
  | object v => v

/-- A value for the host, apart from thunks, which `Heap.toHost` looks into. -/
def ofValue : Value → HostValue
  | .int v => data (.ofInt64 v)
  | .bool b => data (.ofBool b)
  | .str s => data (.ofText s)
  | .unit => nil
  | .host d => data d
  | .noHost => nil
  | v => object v

end HostValue

end LazySession
