import LazySession.Session.Operation

/-!
# The interactive loop

One fragment per line; a line that ends with a backslash goes on in the next one. Commands start
with a colon.
-/

namespace LazySession

/-! ## Values and bindings as text -/

/-- A truth value: a digit, a letter or a word that is not in mixed case. -/
def truth? (s : String) : Option Bool :=
  if ["1", "t", "T", "true", "TRUE", "True"].contains s then some true
  else if ["0", "f", "F", "false", "FALSE", "False"].contains s then some false
  else none

/-- A value read from text: a whole number, a truth value, or else the text itself. -/
def HostData.ofArgument (s : String) : HostData :=
  match Text.signed? s.toList, truth? s with
  | some n, _ => .ofInt n.toInt
  | none, some b => .ofBool b
  | none, none => .ofText s

/-- The directories in a list with commas between them; blank ones are left out. -/
def splitPaths (s : String) : List String :=
  ((Text.split ',' s).map Text.trim).filter (· ≠ "")

namespace Session

/-- Binds by a text `name[::Type]=value`. -/
def bindArgument (ws : Workshop) (s : Session) (arg : String) : Act Session :=
  match Text.cut? "=" arg with
  | none => throw (.badBinding arg)
  | some (key, raw) => s.bind ws (Text.trim key) (.data (.ofArgument raw))

end Session

/-- What is printed for a value. -/
def printed (host : HostLibrary) (h : Heap) : HostValue → String
  | .nil => ""
  | .data d => ": " ++ d.text ++ "\n"
  | .object v => ": " ++ host.objectText h v ++ "\n"

/-! ## Lines -/

/-- A line has to be shorter than this number of bytes. -/
def lineLimit : Nat := 64 * 1024

/-- The line without one carriage return at its end. -/
def dropReturn (line : String) : String :=
  match line.toList.reverse with
  | '\r' :: cs => String.ofList cs.reverse
  | _ => line

/-- A line of an input, from what stands between two line breaks. -/
def inputLine (piece : String) : Except Error String :=
  if piece.utf8ByteSize < lineLimit then .ok (dropReturn piece) else .error .lineTooLong

/-- The lines of an input. What stands behind the last line break is a line if it is not empty. -/
def inputLines (input : String) : List (Except Error String) :=
  let pieces := Text.split '\n' input
  (if pieces.getLast? = some "" then pieces.dropLast else pieces).map inputLine

/-! ## The loop -/

structure Repl where
  session : Session
  world : World
  /-- The lines of a fragment that goes on. -/
  pending : String := ""

/-- Whether the loop goes on after a line. -/
inductive Verdict
  | more
  | quit
  | failed (e : Error)

namespace Repl

/-- Does something that changes the session. On success it prints what `act` says, otherwise the
error. -/
def attempt (r : Repl) (act : Act (String × Session)) : Repl × String × Option Error :=
  match act.run r.world with
  | (.ok (out, session), world) => ({ r with session, world }, out, none)
  | (.error e, world) => ({ r with world }, "error: " ++ e.message ++ "\n", some e)

/-- Evaluates a fragment. After an error it is asked whether to go on. -/
def evaluate (ws : Workshop) (r : Repl) (text : String) : Repl × String × Verdict :=
  match r.attempt (do
      let (v, s) ← r.session.evaluate ws text
      return (printed ws.engine.setting.host (← get).heap v, s)) with
  | (r, out, none) => (r, out, .more)
  | (r, out, some _) =>
    match Act.inquire.run r.world with
    | (.ok (), world) => ({ r with world }, out, .more)
    | (.error e, world) => ({ r with world }, out, .failed e)

/-- Handles a command or a fragment. -/
def command (ws : Workshop) (r : Repl) (text : String) : Repl × String × Verdict :=
  let cmd := Text.trim text
  if cmd = "" then (r, "", .more)
  else if cmd = ":quit" then (r, "", .quit)
  else if cmd = ":defs" then
    (r, String.join (r.session.definitions.map fun d => Text.trim d ++ "\n"), .more)
  else if cmd = ":prelude" then (r, r.session.prelude, .more)
  else match Text.dropPrefix? ":bind " cmd with
    | some arg =>
      let (r, out, _) := r.attempt do
        return ("", ← r.session.bindArgument ws arg)
      (r, out, .more)
    | none => r.evaluate ws text

/-- Takes in a line. -/
def feed (ws : Workshop) (r : Repl) (line : String) : Repl × String × Verdict :=
  match line.toList.reverse with
  | '\\' :: cs => ({ r with pending := r.pending ++ String.ofList cs.reverse ++ "\n" }, "", .more)
  | _ => { r with pending := "" }.command ws (r.pending ++ line)

/-- Takes in lines until one of them ends the loop. `out` is what was printed before, last first. -/
def runFrom (ws : Workshop) (r : Repl) (out : List String) :
    List (Except Error String) → List String × Except Error Unit
  | [] => (out, .ok ())
  | .error e :: _ => (out, .error e)
  | .ok line :: lines =>
    match r.feed ws line with
    | (r, text, .more) => runFrom ws r (text :: out) lines
    | (_, text, .quit) => (text :: out, .ok ())
    | (_, text, .failed e) => (text :: out, .error e)

/-- What an input prints, and how it ends. -/
def run (ws : Workshop) (r : Repl) (input : String) : String × Except Error Unit :=
  let (out, e) := runFrom ws r [] (inputLines input)
  (String.join out.reverse, e)

end Repl

end LazySession
