import LazySession.Session.State

/-!
# Operations on a session

Every operation gives the next state of the session, or an error and no state: a session whose
operation fails stays as it was.

Operations come one after the other. Of waiting for another one, only a context that is closed is left.
-/

namespace LazySession

/-- What a session needs of an interpreter. -/
structure Engine where
  setting : Setting
  interpret : String → Act Program
  run : Program → History → Loader → Act RunResult
  artifactName : Symbol → Loader → Except Error String
  fieldName : Symbol → Except Error String

def Interpreter.engine (ip : Interpreter) : Engine where
  setting := ip.setting
  interpret := interpret
  run p history l := ip.run (.ours p) history (some (.ours l))
  artifactName sym l := artifactName (.ours sym) (some l)
  fieldName sym := fieldName (.ours sym)

/-- An engine and the generator of bindings that go together in a session. -/
structure Workshop where
  engine : Engine
  generator : Generator

namespace Session

/-- Waits for the session's turn. -/
def lock : Act Unit := do
  if (← get).context.closed then throw .canceled

def loadInstance (ws : Workshop) (l : Loader) (name : String) : Act Instance := do
  let id ← l.load ws.engine.setting name
  match (← get).instances[id]? with
  | some i => return i
  | none => throw (.notLoaded name)

/-! ## Values of expressions -/

/-- Writes bound values into their cells. -/
def injectAll (ws : Workshop) (prelude : Instance) : Table Bound → Act Unit
  | [] => return ()
  | (name, b) :: bs => do
    (prelude.write (ws.generator.cellName name) b.value).during (.injecting name)
    injectAll ws prelude bs

/-- Loads the prelude and writes all bound values into it. -/
def inject (ws : Workshop) (s : Session) (l : Loader) : Act Unit := do
  let prelude ← (loadInstance ws l ws.generator.preludeArtifact).during .loadingPrelude
  injectAll ws prelude s.bindings

/-- The value of a field of an artifact, after the bound values have been written. -/
def readField (ws : Workshop) (s : Session) (l : Loader) (artifact field : String) :
    Act HostValue := do
  if !s.bindings.isEmpty then inject ws s l
  let i ← loadInstance ws l artifact
  i.read ws.engine.setting field

/-- The value of an expression. The loader of the run is used and not kept. -/
def readSymbol (ws : Workshop) (s : Session) (sym : Symbol) (l : Loader) : Act HostValue :=
  match ws.engine.artifactName sym l with
  | .error e => throw (.evaluation "" "" e)
  | .ok artifact => match ws.engine.fieldName sym with
    | .error e => throw (.evaluation "" "" e)
    | .ok field =>
      tryCatch (readField ws s l artifact field) fun e => throw (.evaluation artifact field e)

/-! ## Fragments -/

/-- Takes the outcome of a run into the session. -/
def accept (ws : Workshop) (s : Session) (text : String) : RunResult → Act (HostValue × Session)
  | .rejected ds => throw (.compilation (ds.map (·.text)))
  | .accepted (.module _) loader => return (.nil, { s with loader })
  | .accepted .definitions _ => return (.nil, { s with history := s.history.prepend [text] })
  | .accepted (.expression sym) loader => do return (← readSymbol ws s sym loader, s)

/-- Evaluates a fragment that has been read. -/
def evaluateProgram (ws : Workshop) (s : Session) (p : Program) : Act (HostValue × Session) := do
  lock
  let r ← (ws.engine.run p s.history s.loader).during .runningFragment
  accept ws s p.text r

/-- Evaluates a text. An expression has a value; everything else gives nothing. -/
def evaluate (ws : Workshop) (s : Session) (text : String) : Act (HostValue × Session) := do
  let p ← ws.engine.interpret text
  evaluateProgram ws s p

/-- Evaluates a text that is read from somewhere, which may fail. -/
def evaluateFrom (ws : Workshop) (s : Session) (source : Except String String) :
    Act (HostValue × Session) :=
  match source with
  | .error text => throw (.during .readingFragment (.other text))
  | .ok text => evaluate ws s text

/-- Checks a text against the session without changing it. -/
def compile (ws : Workshop) (s : Session) (text : String) : Act Program := do
  let p ← ws.engine.interpret text
  match ← (ws.engine.run p s.history s.loader).during .compilingFragment with
  | .rejected ds => throw (.compilation (ds.map (·.text)))
  | .accepted .. => return p

/-! ## Bindings -/

/-- Loads the prelude of the session as a module. -/
def reload (ws : Workshop) (s : Session) : Act Session := do
  let p ← ws.engine.interpret s.prelude
  let r ← (ws.engine.run p s.history s.loader).during .reloadingPrelude
  match r with
  | .accepted (.module _) loader => return { s with loader, reloads := s.reloads + 1 }
  | .accepted kind _ => throw (.preludeKind kind.text)
  | .rejected ds => throw (.compilation (ds.map (·.text)))

/-- The session with a further name bound: its declarations are added, and those that import the
prelude if it is the first. -/
def bindNew (g : Generator) (s : Session) (k : BindKey) (value : HostValue) :
    Except Error Session := do
  let d ← g.declare k.name k.type
  return { s with
    history := s.history.prepend
      (d.config :: if s.bindings.isEmpty then [g.preludeImport] else [])
    prelude := s.prelude ++ d.prelude
    bindings := s.bindings.put k.name ⟨k.type, value⟩ }

/-- The session with a value bound, before the prelude is loaded again. A name keeps the type of its
first binding. -/
def bindState (g : Generator) (s : Session) (k : BindKey) (value : HostValue) :
    Except Error Session :=
  match s.bindings.get? k.name with
  | none => bindNew g s k value
  | some old =>
    if k.annotation.isSome ∧ k.type ≠ old.type then
      .error (.typeMismatch k.name old.type k.type)
    else .ok { s with bindings := s.bindings.put k.name ⟨old.type, value⟩ }

/-- Binds a value to the name in a key. -/
def bind (ws : Workshop) (s : Session) (key : String) (value : HostValue) : Act Session := do
  lock
  match BindKey.ofText key with
  | .error e => throw (.binding key e)
  | .ok k => match bindState ws.generator s k value with
    | .error e => throw (.binding k.name e)
    | .ok next => tryCatch (reload ws next) fun e => throw (.binding k.name e)

end Session

end LazySession
