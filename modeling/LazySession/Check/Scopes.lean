import LazySession.Check.Types

/-!
# Checking that names are defined
-/

namespace LazySession

/-- The names that a module sees. -/
structure Visible where
  /-- Names that need no module before them. -/
  plain : List String
  /-- The exports of each imported module; none if they are not known. -/
  exports : Table (Option (List String))
deriving Repr

namespace Visible

def checkVar (vis : Visible) (locals : List String) (pos : Pos) (name : String) :
    List TypeExpr.Remark :=
  if locals.contains name || vis.plain.contains name then [] else [(pos, .undefined name)]

/-- A module whose exports are not known has been complained about already. -/
def checkQualified (vis : Visible) (pos : Pos) (mod name : String) : List TypeExpr.Remark :=
  match vis.exports.get? mod with
  | none => [(pos, .notImported mod)]
  | some none => []
  | some (some names) => if names.contains name then [] else [(pos, .notExported mod name)]

end Visible

namespace Expr

def paramNames (ps : List Param) : List String := ps.map (·.text)

mutual

/-- The names in an expression that are not defined, from left to right. -/
def check (vis : Visible) (locals : List String) : Expr → List TypeExpr.Remark
  | var pos name => vis.checkVar locals pos name
  | qualified pos mod name => vis.checkQualified pos mod name
  | int .. | str .. | bool .. | unit .. | operator .. => []
  | app fn args => check vis locals fn ++ checkAll vis locals args
  | binary _ _ l r => check vis locals l ++ check vis locals r
  | negate _ e => check vis locals e
  | lambda _ p ps body => check vis (paramNames (p :: ps) ++ locals) body
  | letIn _ binds body =>
    let inner := binds.map (·.name) ++ locals
    checkBinds vis inner binds ++ check vis inner body
  | cond _ test yes no =>
    check vis locals test ++ check vis locals yes ++ check vis locals no

def checkAll (vis : Visible) (locals : List String) : List Expr → List TypeExpr.Remark
  | [] => []
  | e :: es => check vis locals e ++ checkAll vis locals es

def checkBinds (vis : Visible) (locals : List String) :
    List (BindingOf Expr) → List TypeExpr.Remark
  | [] => []
  | ⟨_, _, params, _, body⟩ :: bs =>
    check vis (paramNames params ++ locals) body ++ checkBinds vis locals bs

end

end Expr

end LazySession
