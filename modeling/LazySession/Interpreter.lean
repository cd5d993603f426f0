import LazySession.Loader
import LazySession.Text.Digest

/-!
# The interpreter

It reads fragments, checks them against the definitions and the modules of a session, and finds
imported modules that are not loaded yet.
-/

namespace LazySession

/-- Something handed in that may come from another interpreter; of that only the type is known. -/
inductive Supplied (α : Type)
  | ours (a : α)
  | foreign (type : String)
deriving Repr

/-- A fragment that has been read. What is wrong with it is told when it is run. -/
structure Program where
  text : String
  parsed : Parsed

/-- Where the value of an expression is found: a field of an artifact. -/
structure Symbol where
  artifact : String
  field : String
deriving DecidableEq, Repr

/-- What a fragment that was accepted is. -/
inductive SourceKind
  | module (name : String)
  | definitions
  | expression (symbol : Symbol)
deriving DecidableEq, Repr

namespace SourceKind

def text : SourceKind → String
  | module name => "module " ++ name
  | definitions => "definitions"
  | expression symbol => "expression " ++ symbol.artifact ++ "." ++ symbol.field

end SourceKind

/-- The outcome of a run: the kind of the fragment and the loader it leaves behind, or what is wrong
with it. -/
inductive RunResult
  | accepted (kind : SourceKind) (loader : Loader)
  | rejected (ds : List Diagnostic)

/-- The definitions that a session has accepted. -/
structure History where
  /-- Newest first. -/
  predefs : List String := []
deriving DecidableEq, Repr

namespace History

/-- Puts fragments in front, the first of them being the newest. -/
def prepend (h : History) (fragments : List String) : History :=
  ⟨fragments ++ h.predefs⟩

/-- The definitions in the order in which they count, oldest first. -/
def program (h : History) : List String :=
  h.predefs.reverse

end History

structure Interpreter where
  locator : Locator
  setting : Setting

namespace Interpreter

/-- The name of the fragment being run. -/
def fragmentSource : String := "<interactive>"

/-- The name of the definition with number `n`, counted from 0. -/
def definitionSource (n : Nat) : String :=
  "<definitions:" ++ toString (n + 1) ++ ">"

/-- The field that holds the value of an expression. -/
def resultField : String := "$it"

/-- The name under which definitions are checked. -/
def definitionsModule : String := "Interactive.Definitions"

/-- The artifact of an expression has a name made from everything that it is compiled from. -/
def scriptName (history : History) (text : String) : String :=
  let h := history.program.foldl (fun h d => Text.Digest.addByte (Text.Digest.addText h d) 0)
    Text.Digest.start
  "Interactive.Script" ++ Text.Digest.text (Text.Digest.addText h text)

/-! ## Reading through the cache -/

def cacheKey (kind source text : String) : String :=
  kind ++ "\x00" ++ source ++ "\x00" ++ text

def readFragment (source text : String) (c : Cache Parsed) : Parsed × Cache Parsed :=
  c.memo (cacheKey "fragment" source text) fun _ => Fragment.ofText source text

def readModule (source text : String) (c : Cache Parsed) : Parsed × Cache Parsed :=
  c.memo (cacheKey "module" source text) fun _ => (Module.ofText source text).map .module

/-- Reads a fragment to be run. -/
def interpret (text : String) : Act Program := do
  let w ← get
  let (parsed, cache) := readFragment fragmentSource text w.cache
  set { w with cache }
  return { text, parsed }

/-! ## Imports -/

/-- The search for imported modules. -/
structure Search where
  cache : Cache Parsed
  /-- The modules found so far, in the order in which they were. -/
  found : List ModuleCode

/-- What became of the imports, each being resolved by `resolve`. -/
def importAll (resolve : String → StateM Search Program.Import) :
    List (String × Pos × String) → StateM Search (Table Program.Import)
  | [] => return []
  | (_, _, mod) :: is => do
    let i ← resolve mod
    return (mod, i) :: (← importAll resolve is)

/-- Checks pieces as one module, its imports being resolved by `resolve`. -/
def compile (resolve : String → StateM Search Program.Import) (name : String) (ps : List Piece) :
    StateM Search (Except (List Diagnostic) ModuleCode) := do
  let imported ← importAll resolve (Program.imports ps)
  return Program.check name ps imported

/-- Reads and checks the module in a file. -/
def compileFile (resolve : String → StateM Search Program.Import) (file : SourceFile) :
    StateM Search Program.Import := do
  let s ← get
  let (parsed, cache) := readModule file.path file.text s.cache
  set { s with cache }
  match parsed with
  | .error es => return .failed (es.map .ofSyntaxError)
  | .ok (.module m) =>
    if m.name ≠ file.name then
      return .failed [⟨file.path, m.pos, .misplacedModule m.name file.name⟩]
    else match ← compile resolve file.name [⟨file.path, m.decls⟩] with
      | .error ds => return .failed ds
      | .ok code =>
        modify fun s => { s with found := s.found ++ [code] }
        return .exports code.exports
  | .ok _ => return .unknown

/-- Finds an imported module among those found before, those known to the loader, and the sources.
`resolving` are the modules whose imports are being resolved. None of them is there twice, so the
number of sources bounds how deep the search goes. -/
def resolve (locator : Locator) (known : String → Option ModuleCode) :
    (fuel : Nat) → (resolving : List String) → (name : String) → StateM Search Program.Import
  | 0, _, name => return .failed [.unplaced (.importCycle name)]
  | fuel + 1, resolving, name => do
    match (← get).found.find? (·.name == name) with
    | some code => return .exports code.exports
    | none => match known name with
      | some code => return .exports code.exports
      | none =>
        if resolving.contains name then return .failed [.unplaced (.importCycle name)]
        else match locator.find name with
          | .ok file => compileFile (resolve locator known fuel (name :: resolving)) file
          | .error e =>
            return if e.isNotFound then .unknown else .failed [.unplaced (.unlocated e)]

/-! ## Runs -/

/-- The definitions of a session as pieces, or what is wrong with them. -/
def readDefinitions (c : Cache Parsed) (n : Nat) :
    List String → (List Piece × List Diagnostic) × Cache Parsed
  | [] => (([], []), c)
  | text :: texts =>
    let source := definitionSource n
    let (parsed, c) := readFragment source text c
    let ((ps, ds), c) := readDefinitions c (n + 1) texts
    match parsed with
    | .error es => ((ps, es.map .ofSyntaxError ++ ds), c)
    | .ok (.definitions decls) => ((⟨source, decls⟩ :: ps, ds), c)
    | .ok f => ((ps, ⟨source, ⟨0, 0⟩, .notDefinitions f.kind⟩ :: ds), c)

/-- Checks pieces against a loader. Gives the modules found on the way and the code. -/
def compileAgainst (ip : Interpreter) (l : Loader) (name : String) (ps : List Piece) :
    Act (Except (List Diagnostic) (List ModuleCode × ModuleCode)) := do
  let w ← get
  let (r, s) := compile (resolve ip.locator (l.code? w) (ip.locator.size + 2) []) name ps
    { cache := w.cache, found := [] }
  set { w with cache := s.cache }
  return r.map (s.found, ·)

/-- The pieces of a session's definitions, or what is wrong with them. -/
def definitionPieces (history : History) : Act (List Piece × List Diagnostic) := do
  let w ← get
  let (r, cache) := readDefinitions w.cache 0 history.program
  set { w with cache }
  return r

def extendLoader (l : Loader) (mods : List ModuleCode) : Act Loader := do
  let w ← get
  let (l, w) := l.extend mods w
  set w
  return l

/-- The binding that holds the value of an expression. -/
def resultBinding (e : Expr) : Binding :=
  { pos := e.pos, name := resultField, params := [], strict := false, body := e }

/-- A fragment whose last piece has the given declarations, compiled behind the definitions. -/
def compileBehind (ip : Interpreter) (history : History) (l : Loader) (name : String)
    (decls : List Decl) : Act (Except (List Diagnostic) (List ModuleCode × ModuleCode)) := do
  let (ps, ds) ← definitionPieces history
  if ds.isEmpty then ip.compileAgainst l name (ps ++ [⟨fragmentSource, decls⟩])
  else return .error ds

def runFragment (ip : Interpreter) (text : String) (f : Fragment) (history : History) (l : Loader) :
    Act RunResult := do
  match f with
  | .module m =>
    match ← ip.compileAgainst l m.name [⟨fragmentSource, m.decls⟩] with
    | .error ds => return .rejected ds
    | .ok (found, code) =>
      return .accepted (.module code.name) (← extendLoader l (found ++ [code]))
  | .definitions decls =>
    match ← ip.compileBehind history l definitionsModule decls with
    | .error ds => return .rejected ds
    | .ok (found, _) => return .accepted .definitions (← extendLoader l found)
  | .expression e =>
    let name := scriptName history text
    match ← ip.compileBehind history l name [.binding (resultBinding e)] with
    | .error ds => return .rejected ds
    | .ok (found, code) =>
      return .accepted (.expression ⟨name, resultField⟩) (← extendLoader l (found ++ [code]))

/-- Runs a fragment against definitions and a loader; without a loader, against no modules. -/
def run (ip : Interpreter) (p : Supplied Program) (history : History)
    (loader : Option (Supplied Loader)) : Act RunResult := do
  Act.inquire
  match p, loader with
  | .foreign type, _ => throw (.foreign "program" type)
  | _, some (.foreign type) => throw (.foreign "loader" type)
  | .ours p, l =>
    let l := match l with
      | some (.ours l) => l
      | _ => Loader.empty
    match p.parsed with
    | .error es => return .rejected (es.map .ofSyntaxError)
    | .ok f => ip.runFragment p.text f history l

/-- The field that holds a symbol's value. -/
def fieldName : Supplied Symbol → Except Error String
  | .ours s => .ok s.field
  | .foreign type => .error (.foreign "symbol" type)

/-- The artifact that holds a symbol's value, which has to be in the loader if one is given. -/
def artifactName (sym : Supplied Symbol) (loader : Option Loader) : Except Error String :=
  match sym with
  | .foreign type => .error (.foreign "symbol" type)
  | .ours s => match loader with
    | none => .ok s.artifact
    | some l => if l.modules.has s.artifact then .ok s.artifact else .error (.notLoaded s.artifact)

end Interpreter

end LazySession
