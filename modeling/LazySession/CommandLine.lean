import LazySession.Repl

/-!
# The command line
-/

namespace LazySession

/-- What the command is asked to do. -/
structure Options where
  paths : List String := []
  binds : List String := []
  /-- A fragment to evaluate in place of the loop, unless empty. -/
  expr : String := ""
deriving Repr

/-- The files that can be searched, and the directory that relative paths start from. -/
structure Disk where
  tree : FileTree
  base : List String := []

namespace Options

/-- An interpreter that searches the given directories. -/
def interpreter (o : Options) (disk : Disk) (host : HostLibrary) : Except Error Interpreter :=
  match Locator.ofPaths disk.tree disk.base o.paths with
  | .ok locator => .ok { locator, setting := { host, limit := depthLimit 0 } }
  | .error e => .error (.during .preparingSearch (.locate e))

def bindAll (ws : Workshop) (s : Session) : List String → Act Session
  | [] => return s
  | b :: bs => do bindAll ws (← s.bindArgument ws b) bs

/-- The workshop of a session that searches directories. -/
def workshop (o : Options) (disk : Disk) (host : HostLibrary) : Except Error Workshop := do
  return { engine := (← o.interpreter disk host).engine, generator := ({} : Template).generator }

/-- A session with its bindings made. -/
def start (o : Options) (ws : Workshop) (context : Context) : Except Error Repl :=
  let act := bindAll ws (.fresh ws.generator) o.binds
  match act.run { cache := .ofCapacity 1024, context } with
  | (.ok session, world) => .ok { session, world }
  | (.error e, _) => .error e

/-- Evaluates the fragment that was asked for. -/
def evaluate (o : Options) (ws : Workshop) (r : Repl) : Except Error String :=
  match (r.session.evaluate ws o.expr).run r.world with
  | (.ok (v, _), world) => .ok (printed ws.engine.setting.host world.heap v)
  | (.error e, _) => .error e

/-- Does what was asked for with an input. Gives what is printed and how it ends. -/
def run (o : Options) (disk : Disk) (host : HostLibrary) (context : Context) (input : String) :
    String × Except Error Unit :=
  match (do
      let ws ← o.workshop disk host
      let r ← o.start ws context
      return (ws, r) : Except Error (Workshop × Repl)) with
  | .error e => ("", .error e)
  | .ok (ws, r) =>
    if o.expr = "" then r.run ws input
    else match o.evaluate ws r with
      | .ok out => (out, .ok ())
      | .error e => ("", .error e)

end Options

/-! ## Arguments -/

inductive UsageError
  | badFlag (arg : String)
  | undefined (name : String)
  | noArgument (name : String)
  | notBool (name value : String)
  | help
deriving DecidableEq, Repr

namespace UsageError

def message : UsageError → String
  | badFlag arg => "bad flag syntax: " ++ arg ++ "\n"
  | undefined name => "flag provided but not defined: -" ++ name ++ "\n"
  | noArgument name => "flag needs an argument: -" ++ name ++ "\n"
  | notBool name value =>
    "invalid boolean value " ++ Text.quote value ++ " for -" ++ name ++ ": parse error\n"
  | help => ""

/-- Asking for help is no failure. -/
def exitCode : UsageError → UInt32
  | help => 0
  | _ => 2

end UsageError

/-- The flags as they are read. -/
structure Flags where
  path : String := ""
  binds : List String := []
  expr : String := ""
  verbose : Bool := false
deriving Repr

namespace Flags

/-- A flag that takes an argument. -/
def put? (f : Flags) (name value : String) : Option Flags :=
  match name with
  | "path" => some { f with path := value }
  | "bind" => some { f with binds := f.binds ++ [value] }
  | "e" => some { f with expr := value }
  | _ => none

/-- The name of a flag without its dashes, if the argument is one. Two dashes alone end them. -/
def name? (arg : String) : Option (List Char) :=
  match arg.toList with
  | '-' :: '-' :: cs => some cs
  | '-' :: c :: cs => some (c :: cs)
  | _ => none

/-- The flag `name` with the value that stands behind its equals sign, and the arguments that
follow. Gives the flags and how many of these arguments were used. -/
def flag (f : Flags) (name : String) (value : Option String) (args : List String) :
    Except UsageError (Flags × Nat) :=
  if name = "v" then
    match value with
    | none => .ok ({ f with verbose := true }, 0)
    | some v => match truth? v with
      | some verbose => .ok ({ f with verbose }, 0)
      | none => .error (.notBool name v)
  else match f.put? name "" with
    | none => .error (if name = "help" ∨ name = "h" then .help else .undefined name)
    | some _ =>
      match value, args with
      | some v, _ => .ok ((f.put? name v).getD f, 0)
      | none, v :: _ => .ok ((f.put? name v).getD f, 1)
      | none, [] => .error (.noArgument name)

/-- Reads flags up to the first argument that is none. -/
def ofArgs (f : Flags) (args : List String) : Except UsageError Flags :=
  match args with
  | [] => .ok f
  | arg :: rest =>
    match name? arg with
    | none => .ok f
    | some cs =>
      if arg = "--" then .ok f
      else if cs.isEmpty ∨ cs.head? = some '-' ∨ cs.head? = some '=' then .error (.badFlag arg)
      else
        let name := String.ofList (cs.takeWhile (· != '='))
        let value := match cs.dropWhile (· != '=') with
          | [] => none
          | _ :: v => some (String.ofList v)
        match f.flag name value rest with
        | .error e => .error e
        | .ok (f, used) => ofArgs f (rest.drop used)
termination_by args.length
decreasing_by simp only [List.length_drop, List.length_cons]; omega

def options (f : Flags) : Options :=
  { paths := splitPaths f.path, binds := f.binds, expr := f.expr }

end Flags

/-- What the command leaves behind. -/
structure Report where
  exit : UInt32
  stdout : String
  stderr : String
deriving Repr

namespace Report

/-- The report of an error: its text on a line of its own. -/
def errorText (e : Error) : String :=
  let s := "!! " ++ e.message
  if s.toList.getLast? = some '\n' then s else s ++ "\n"

def ofOutcome (out : String) : Except Error Unit → Report
  | .ok () => ⟨0, out, ""⟩
  | .error e => ⟨1, out, errorText e⟩

/-- The whole command: arguments, files and input to what is printed and the exit code. -/
def ofCommand (args : List String) (disk : Disk) (host : HostLibrary) (input : String) : Report :=
  match Flags.ofArgs {} args with
  | .error e => ⟨e.exitCode, "", e.message⟩
  | .ok f =>
    let (out, r) := f.options.run disk host {} input
    ofOutcome out r

end Report

end LazySession
