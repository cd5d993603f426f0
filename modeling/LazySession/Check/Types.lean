import LazySession.Check.Diagnostic
import LazySession.Lang.Tree
import LazySession.Value

/-!
# Checking the types in signatures
-/

namespace LazySession

namespace TypeExpr

/-- The number of arguments that a type constructor takes. -/
def arity? : String → Option Nat
  | "Int" | "Bool" | "String" => some 0
  | "Ref" => some 1
  | _ => none

/-- A complaint and where in the type it arises. -/
abbrev Remark := Pos × Complaint

def checkCon (pos : Pos) (name : String) (args : Nat) : List Remark :=
  match arity? name with
  | none => [(pos, .unknownType name)]
  | some n => if n = args then [] else [(pos, .typeArguments name n args)]

/-- What stands before arguments without being a constructor. -/
def describe : TypeExpr → String
  | var _ name => name
  | unit _ => "()"
  | _ => "expression"

mutual

/-- Every constructor has to be known and to have its number of arguments. -/
def check : TypeExpr → List Remark
  | con pos name => checkCon pos name 0
  | var _ _ | unit _ => []
  | app head args =>
    (match head with
      | con pos name => checkCon pos name args.length
      | head => [(head.pos, .notApplicable head.describe)]) ++ checkAll args
  | arrow dom cod => check dom ++ check cod

def checkAll : List TypeExpr → List Remark
  | [] => []
  | t :: ts => check t ++ checkAll ts

end

/-- The type as one that values can be checked against. -/
def base? : TypeExpr → Option BaseType
  | con _ name => BaseType.ofText? name
  | unit _ => some .unit
  | _ => none

end TypeExpr

end LazySession
