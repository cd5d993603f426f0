import LazySession.Lang.Token
import LazySession.Lang.Operator

/-!
# Syntax trees
-/

namespace LazySession

/-! ## Types in signatures -/

inductive TypeExpr
  | con (pos : Pos) (name : String)
  | var (pos : Pos) (name : String)
  | unit (pos : Pos)
  /-- A type applied to one or more arguments: `Ref Int`. -/
  | app (head : TypeExpr) (args : List TypeExpr)
  | arrow (dom cod : TypeExpr)
deriving Repr, Inhabited

namespace TypeExpr

def pos : TypeExpr → Pos
  | con p _ | var p _ | unit p => p
  | app head _ => head.pos
  | arrow dom _ => dom.pos

end TypeExpr

/-! ## Expressions -/

/-- A parameter is a name or the pattern `()`, which takes only the unit value. -/
inductive Param
  | unit
  | named (name : String)
deriving DecidableEq, Repr, Inhabited

namespace Param

def text : Param → String
  | unit => "()"
  | named name => name

end Param

/-- A binding: `name params = body`. A strict one, `!name = body`, is evaluated as soon as its
module is loaded. -/
structure BindingOf (β : Type) where
  pos : Pos
  name : String
  params : List Param
  strict : Bool
  body : β
deriving Repr, Inhabited

inductive Expr
  | var (pos : Pos) (name : String)
  /-- A variable of a module: `Data.List.foo`. -/
  | qualified (pos : Pos) (mod name : String)
  | int (pos : Pos) (value : Int64)
  | str (pos : Pos) (value : String)
  | bool (pos : Pos) (value : Bool)
  | unit (pos : Pos)
  /-- A function applied to one or more arguments. -/
  | app (fn : Expr) (args : List Expr)
  | binary (pos : Pos) (op : Operator) (left right : Expr)
  | negate (pos : Pos) (arg : Expr)
  /-- An operator as a function: `(+)`. -/
  | operator (pos : Pos) (op : Operator)
  /-- A function of one or more parameters. -/
  | lambda (pos : Pos) (param : Param) (more : List Param) (body : Expr)
  | letIn (pos : Pos) (binds : List (BindingOf Expr)) (body : Expr)
  | cond (pos : Pos) (test yes no : Expr)
deriving Repr, Inhabited

abbrev Binding := BindingOf Expr

namespace Expr

def pos : Expr → Pos
  | var p _ | qualified p _ _ | int p _ | str p _ | bool p _ | unit p => p
  | app fn _ => fn.pos
  | binary p _ _ _ | negate p _ | operator p _ | lambda p _ _ _ | letIn p _ _ | cond p _ _ _ => p

end Expr

/-! ## Declarations and fragments -/

inductive Decl
  | importing (pos : Pos) (mod : String)
  /-- The type of one or more names. -/
  | signature (pos : Pos) (names : List String) (type : TypeExpr)
  | binding (b : Binding)
deriving Repr, Inhabited

namespace Decl

def pos : Decl → Pos
  | importing p _ | signature p _ _ => p
  | binding b => b.pos

def imported? : Decl → Option String
  | importing _ mod => some mod
  | _ => none

def binding? : Decl → Option Binding
  | binding b => some b
  | _ => none

end Decl

/-- A module: `module Name where` and its declarations. -/
structure Module where
  pos : Pos
  name : String
  decls : List Decl
deriving Repr, Inhabited

/-- One unit of interactive input. -/
inductive Fragment
  | definitions (decls : List Decl)
  | expression (e : Expr)
  | module (m : Module)
deriving Repr, Inhabited

namespace Fragment

/-- The word for its kind. -/
def kind : Fragment → String
  | definitions _ => "definitions"
  | expression _ => "expression"
  | module _ => "module"

def imports : Fragment → List String
  | definitions decls => decls.filterMap Decl.imported?
  | expression _ => []
  | module m => m.decls.filterMap Decl.imported?

end Fragment

end LazySession
