import LazySession.Error

/-!
# How host values reach a program

A bound value travels through a cell that is declared in a module of its own, the prelude. The
definitions of the session read the cell under the bound name.
-/

namespace LazySession

/-! ## Keys -/

/-- A key is a name, or a name and a type behind `::`. -/
structure BindKey where
  name : String
  /-- The type that was given; a blank one counts as none. -/
  annotation : Option String
deriving DecidableEq, Repr

namespace BindKey

/-- The type of a value without annotation: any. -/
def defaultType : String := "a"

def type (k : BindKey) : String := k.annotation.getD defaultType

def ofText (key : String) : Except Error BindKey :=
  let (name, type) := (Text.cut? "::" key).getD (key, "")
  let name := Text.trim name
  let type := Text.trim type
  if name = "" then .error (.emptyName (some key))
  else .ok { name, annotation := if type = "" then none else some type }

end BindKey

/-! ## Generated declarations -/

/-- What a binding adds to the definitions and to the prelude. -/
structure Declarations where
  config : String
  prelude : String
deriving DecidableEq, Repr

/-- Makes the source that host values travel through. -/
structure Generator where
  /-- The prelude before anything is bound. -/
  prelude : String
  /-- The definitions that import the prelude. -/
  preludeImport : String
  /-- The name of the prelude module. -/
  preludeArtifact : String
  /-- The name of the cell of a bound name. -/
  cellName : String → String
  declare : (name type : String) → Except Error Declarations

/-- A name that can be bound: a small letter or `_`, then letters, digits, `_` and `'`, in ASCII. -/
def isBindName (name : String) : Bool :=
  match name.toList with
  | [] => false
  | c :: cs => (('a' ≤ c && c ≤ 'z') || c == '_') && cs.all fun c =>
      ('a' ≤ c && c ≤ 'z') || ('A' ≤ c && c ≤ 'Z') || ('0' ≤ c && c ≤ '9') || c == '_' || c == '\''

/-- A generator by the name of its prelude module and what cells have behind their names. -/
structure Template where
  mod : String := "EvalSession.Prelude"
  cellSuffix : String := "Ref"
deriving Repr

namespace Template

def cellName (t : Template) (name : String) : String := name ++ t.cellSuffix

def declare (t : Template) (name type : String) : Except Error Declarations :=
  if name = "" then .error (.emptyName none)
  else if !isBindName name then .error (.invalidName name)
  else
    let type := if type = "" then BindKey.defaultType else type
    let cell := t.cellName name
    .ok
      { config := "\n" ++ name ++ " :: " ++ type ++ "\n" ++ name ++ " = readRef " ++ cell ++ "\n"
        prelude := "\n" ++ cell ++ " :: Ref (" ++ type ++ ")\n!" ++ cell ++ " = newRef ()\n" }

def generator (t : Template) : Generator where
  prelude := "module " ++ t.mod ++ " where\n"
  preludeImport := "\nimport " ++ t.mod ++ "\n"
  preludeArtifact := t.mod
  cellName := t.cellName
  declare := t.declare

end Template

end LazySession
