import LazySession.Lang.Token
import LazySession.Locate.Locator

/-!
# Diagnostics

What the checks have to say about a program that is not accepted.
-/

namespace LazySession

inductive Complaint
  | badSyntax (fault : SyntaxFault)
  | duplicateSignature (name : String)
  | conflicting (name : String)
  | noBinding (name : String)
  | unknownModule (name : String)
  | importCycle (name : String)
  | misplacedModule (name expected : String)
  | unlocated (e : LocateError)
  | unknownType (name : String)
  | typeArguments (name : String) (takes got : Nat)
  | notApplicable (type : String)
  | undefined (name : String)
  | notImported (mod : String)
  | notExported (mod name : String)
  /-- An earlier fragment is not a group of definitions. -/
  | notDefinitions (kind : String)
  | other (text : String)
deriving DecidableEq, Repr

namespace Complaint

def message : Complaint → String
  | badSyntax fault => fault.message
  | duplicateSignature name => "duplicate type signature for " ++ name
  | conflicting name => "conflicting definitions for " ++ name
  | noBinding name => "type signature for " ++ name ++ " lacks an accompanying binding"
  | unknownModule name => "unknown module " ++ name
  | importCycle name => "import cycle through module " ++ name
  | misplacedModule name expected =>
    "module " ++ name ++ " is declared in a file for " ++ expected
  | unlocated e => e.message
  | unknownType name => "unknown type " ++ name
  | typeArguments name takes got =>
    "type constructor " ++ name ++ " expects " ++ toString takes ++ " argument(s), got " ++
      toString got
  | notApplicable type => "type " ++ type ++ " cannot be applied to arguments"
  | undefined name => "undefined variable " ++ name
  | notImported mod => "module " ++ mod ++ " is not imported"
  | notExported mod name => "module " ++ mod ++ " does not export " ++ name
  | notDefinitions kind => "not a definitions fragment: " ++ kind
  | other text => text

end Complaint

/-- A complaint and its place. One that has no place stands at line 0 of a source without name. -/
structure Diagnostic where
  source : String
  pos : Pos
  complaint : Complaint
deriving DecidableEq, Repr

namespace Diagnostic

def message (d : Diagnostic) : String := d.complaint.message

/-- A complaint without place. -/
def unplaced (c : Complaint) : Diagnostic := ⟨"", ⟨0, 0⟩, c⟩

def ofSyntaxError (e : SyntaxError) : Diagnostic := ⟨e.source, e.pos, .badSyntax e.fault⟩

/-- The message behind its source and its position, as far as there are any. -/
def text (d : Diagnostic) : String :=
  let place := (if d.source = "" then "" else d.source ++ ":") ++
    (if d.pos.line ≤ 0 then "" else d.pos.text ++ ":")
  if place = "" then d.message else place ++ " " ++ d.message

/-- The rank of a source: its place in the program. Sources from elsewhere come before. -/
def rank (sources : List String) (source : String) : Nat :=
  if sources.contains source then sources.idxOf source + 1 else 0

/-- The order by rank, line and column. -/
def before (sources : List String) (a b : Diagnostic) : Bool :=
  let ra := rank sources a.source
  let rb := rank sources b.source
  ra < rb || (ra == rb && (a.pos.line < b.pos.line ||
    (a.pos.line == b.pos.line && a.pos.col ≤ b.pos.col)))

/-- Sorted by rank, line and column; those in one place stay in their order. -/
def sort (sources : List String) (ds : List Diagnostic) : List Diagnostic :=
  ds.mergeSort (before sources)

end Diagnostic

end LazySession
