import LazySession.Eval.Fault
import LazySession.Locate.Locator

/-!
# Errors of sessions and interpreters

An error is a cause, possibly inside of what was being done when it arose.
-/

namespace LazySession

/-- What was being done. -/
inductive Activity
  | readingFragment
  | runningFragment
  | compilingFragment
  | reloadingPrelude
  | loadingPrelude
  | injecting (name : String)
  | linking (mod : String)
  | initializing (mod name : String)
  | preparingSearch
deriving DecidableEq, Repr

namespace Activity

def text : Activity → String
  | readingFragment => "reading fragment"
  | runningFragment => "running fragment"
  | compilingFragment => "compiling fragment"
  | reloadingPrelude => "reloading prelude"
  | loadingPrelude => "loading prelude"
  | injecting name => "injecting " ++ name
  | linking mod => "linking " ++ mod
  | initializing mod name => "initializing " ++ mod ++ "." ++ name
  | preparingSearch => "initializing module search path"

end Activity

inductive Error
  | canceled
  | runtime (e : RuntimeError)
  | locate (e : LocateError)
  /-- A program, loader or symbol of another interpreter. -/
  | foreign (what type : String)
  | notLoaded (mod : String)
  | importCycle (path : List String)
  | noField (mod field : String)
  | notCell (mod field : String)
  /-- A key without a name, if the name was read from a key. -/
  | emptyName (key : Option String)
  | invalidName (name : String)
  | typeMismatch (name old new : String)
  /-- The prelude did not turn out to be a module. -/
  | preludeKind (kind : String)
  /-- An argument that is not of the form of a binding. -/
  | badBinding (arg : String)
  | lineTooLong
  /-- An error from outside. -/
  | other (text : String)
  | during (activity : Activity) (e : Error)
  /-- A fragment was not accepted. -/
  | compilation (messages : List String)
  /-- An expression was accepted but has no value. The names are empty if they are not known. -/
  | evaluation (artifact field : String) (e : Error)
  | binding (name : String) (e : Error)
deriving Repr

namespace Error

def message : Error → String
  | canceled => "context canceled"
  | runtime e => e.text
  | locate e => e.message
  | foreign what type => "value was not produced by minihs: " ++ what ++ " " ++ type
  | notLoaded mod => "module not loaded: " ++ mod
  | importCycle path => "import cycle: " ++ Text.join " -> " path
  | noField mod field => "no such field: " ++ mod ++ "." ++ field
  | notCell mod field => "field is not a reference cell: " ++ mod ++ "." ++ field
  | emptyName none => "binding name is empty"
  | emptyName (some key) => "binding name is empty: " ++ Text.quote key
  | invalidName name => "invalid binding name: " ++ Text.quote name
  | typeMismatch name old new =>
    "type differs from the existing binding: " ++ name ++ " is bound as " ++ old ++ ", not " ++ new
  | preludeKind kind => "reloading prelude: expected a module, got " ++ kind
  | badBinding arg =>
    "invalid binding " ++ Text.quote arg ++ ": expected name[::Type]=value"
  | lineTooLong => "bufio.Scanner: token too long"
  | other text => text
  | during activity e => activity.text ++ ": " ++ e.message
  | compilation messages => Text.join "\n" messages
  | evaluation "" _ e => "evaluation failed: " ++ e.message
  | evaluation artifact field e => "evaluating " ++ artifact ++ "." ++ field ++ ": " ++ e.message
  | binding name e => "binding " ++ Text.quote name ++ ": " ++ e.message

/-- The error right below, if this one only tells what was going on. -/
def inner? : Error → Option Error
  | during _ e | evaluation _ _ e | binding _ e => some e
  | _ => none

/-- The runtime error at the bottom, if there is one. -/
def runtime? : Error → Option RuntimeError
  | runtime e => some e
  | during _ e | evaluation _ _ e | binding _ e => e.runtime?
  | _ => none

end Error

/-! ## Kinds of errors -/

/-- The kinds that errors can be asked for. -/
inductive ErrorKind
  | compilation
  | evaluation
  | binding
  | typeMismatch
  | emptyName
  | invalidName
  | foreignValue
  | moduleNotLoaded
  | importCycle
  | noField
  | notCell
  | moduleNotFound
  | canceled
deriving DecidableEq, Repr

namespace ErrorKind

def all : List ErrorKind :=
  [compilation, evaluation, binding, typeMismatch, emptyName, invalidName, foreignValue,
   moduleNotLoaded, importCycle, noField, notCell, moduleNotFound, canceled]

end ErrorKind

namespace Error

/-- Whether an error, or one inside of it, is of a kind. -/
def is (k : ErrorKind) : Error → Bool
  | .canceled => k == .canceled
  | runtime e => k == .canceled && e.cause == some .canceled
  | locate e => k == .moduleNotFound && e.isNotFound
  | foreign .. => k == .foreignValue
  | notLoaded _ => k == .moduleNotLoaded
  | importCycle _ => k == .importCycle
  | noField .. => k == .noField
  | notCell .. => k == .notCell
  | emptyName _ => k == .emptyName
  | invalidName _ => k == .invalidName
  | typeMismatch .. => k == .typeMismatch
  | preludeKind _ | badBinding _ | lineTooLong | other _ => false
  | during _ e => e.is k
  | compilation _ => k == .compilation
  | evaluation _ _ e => k == .evaluation || e.is k
  | binding _ e => k == .binding || e.is k

end Error

end LazySession
