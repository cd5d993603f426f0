import LazySession.Value

/-!
# Runtime errors
-/

namespace LazySession

/-- What can go wrong while an expression is evaluated. Types are given as messages name them. -/
inductive RuntimeFault
  | undefined (name : String)
  | overflow (limit : Nat)
  | interrupted
  | loop (name : String)
  /-- The value of a thunk is not of the type it has to have. -/
  | wrongType (name : String) (want : BaseType) (got : String)
  | notBool (got : String)
  | negation (got : String)
  | logical (op : Operator) (got : String)
  | arithmetic (op : Operator) (left right : String)
  | concatenation (left right : String)
  | divisionByZero
  | comparison (left right : String)
  | ordering (left right : String)
  | notFunction (got : String)
  /-- A function whose parameter is `()` was given something else. -/
  | unitParam (fn got : String)
  | builtinArg (b : Builtin) (want got : String)
  | builtinZero (b : Builtin)
  | emptyCell
  | variadic (type : String)
  /-- A value cannot become the argument of a host function, the first being number 1. -/
  | hostArg (number : Nat) (got want : String)
  | hostResults (type : String) (count : Nat)
  /-- Raised by the program or by a host function. -/
  | raised (text : String)
deriving DecidableEq, Repr

namespace RuntimeFault

def message : RuntimeFault → String
  | undefined name => "undefined variable " ++ name
  | overflow limit => "stack overflow (depth limit " ++ toString limit ++ ")"
  | interrupted => "evaluation interrupted: context canceled"
  | loop name => "infinite loop while evaluating " ++ name
  | wrongType name want got => name ++ ": expected " ++ want.text ++ ", got " ++ got
  | notBool got => "if condition must be Bool, got " ++ got
  | negation got => "cannot negate " ++ got
  | logical op got => "operator " ++ op.text ++ " expects Bool operands, got " ++ got
  | arithmetic op l r =>
    "operator " ++ op.text ++ " expects Int operands, got " ++ l ++ " and " ++ r
  | concatenation l r => "operator ++ expects String operands, got " ++ l ++ " and " ++ r
  | divisionByZero => "division by zero"
  | comparison l r => "cannot compare " ++ l ++ " with " ++ r
  | ordering l r => "cannot order " ++ l ++ " and " ++ r
  | notFunction got => got ++ " is not a function"
  | unitParam fn got => fn ++ ": expected (), got " ++ got
  | builtinArg b want got => b.name ++ ": expected " ++ want ++ ", got " ++ got
  | builtinZero b => b.name ++ ": division by zero"
  | emptyCell => "readRef: reference cell is empty"
  | variadic type => "variadic Go function " ++ type ++ " is not supported"
  | hostArg number got want =>
    "argument " ++ toString number ++ ": cannot use " ++ got ++ " as " ++ want
  | hostResults type count =>
    "Go function " ++ type ++ " returns " ++ toString count ++ " values"
  | raised text => text

end RuntimeFault

/-- What a runtime error goes back to outside of the language. -/
inductive Cause
  | canceled
  | host (text : String)
deriving DecidableEq, Repr

namespace Cause

def text : Cause → String
  | canceled => "context canceled"
  | host text => text

end Cause

/-- Where evaluation stands: the source of the expression and the functions and thunks around it,
innermost first. -/
structure Place where
  source : String
  trace : List String
deriving DecidableEq, Repr, Inhabited

structure RuntimeError where
  place : Place
  pos : Pos
  fault : RuntimeFault
  cause : Option Cause := none
deriving DecidableEq, Repr

namespace RuntimeError

def message (e : RuntimeError) : String := e.fault.message

/-- The message behind its position, as far as that is known. -/
def text (e : RuntimeError) : String :=
  if e.pos.line ≤ 0 then e.message
  else if e.place.source = "" then e.pos.text ++ ": " ++ e.message
  else e.place.source ++ ":" ++ e.pos.text ++ ": " ++ e.message

/-- The message with its position and the trace, innermost first. -/
def report (e : RuntimeError) : String :=
  "runtime error: " ++ e.message ++
    (if e.pos.line ≤ 0 then "" else "\n\t" ++ e.place.source ++ ":" ++ e.pos.text) ++
    String.join (e.place.trace.map ("\n\tin " ++ ·))

end RuntimeError

end LazySession
