import LazySession.CommandLine

/-!
# The program

It reads the arguments and the input line by line, and looks up the files that a fragment may need.
-/

namespace LazySession

/-- The module names that a text mentions. -/
def mentioned (text : String) : List String :=
  match Lexed.ofText "" text with
  | .ok l => (l.tokens.filter (·.kind = .conid)).map (·.text)
  | .error _ => []

/-- Looks up a path and the paths above it. The system tells by its error 21 that a path is one of a
directory. -/
def lookUp (tree : FileTree) (path : String) : IO FileTree :=
  (FileTree.ancestors path ++ [path]).foldlM (fun tree p => do
    try
      return { tree with files := tree.files.put p (← IO.FS.readFile ("/" ++ p : String)) }
    catch
      | .inappropriateType _ 21 _ => return { tree with dirs := p :: tree.dirs }
      | _ => return tree) tree

/-- Looks up the files of modules below directories, and of the modules that they mention. -/
partial def lookUpModules (roots : List (List String)) (done : List String) (tree : FileTree) :
    List String → IO FileTree
  | [] => return tree
  | name :: names => do
    if done.contains name then lookUpModules roots done tree names
    else match ({ roots := [] } : Locator).filePath name with
      | .error _ => lookUpModules roots (name :: done) tree names
      | .ok path =>
        let paths := roots.map fun es => Text.join "/" (es ++ [path])
        let tree ← paths.foldlM lookUp tree
        let found := paths.filterMap tree.files.get?
        lookUpModules roots (name :: done) tree (found.flatMap mentioned ++ names)

/-- What of the disk texts may need. -/
def Options.look (o : Options) (base : List String) (texts : List String) : IO Disk := do
  let roots := o.paths.map (Path.absolute base)
  let tree ← (roots.map (Text.join "/")).foldlM lookUp { storage := .disk, files := [] }
  return { tree := ← lookUpModules roots [] tree (texts.flatMap mentioned), base }

/-- Reads lines until the input or the loop ends. -/
partial def Options.loop (o : Options) (base : List String) (input : IO.FS.Stream) (r : Repl) :
    IO (Except Error Unit) := do
  let piece ← input.getLine
  if piece.isEmpty then return .ok ()
  let piece := if piece.toList.getLast? = some '\n' then (piece.dropEnd 1).toString else piece
  let disk ← o.look base (r.pending :: piece :: r.session.definitions)
  match (do return (← o.workshop disk .empty, ← inputLine piece)) with
  | .error e => return .error e
  | .ok (ws, line) =>
    let (r, out, verdict) := r.feed ws line
    IO.print out
    match verdict with
    | .more => o.loop base input r
    | .quit => return .ok ()
    | .failed e => return .error e

def Options.main (o : Options) (base : List String) : IO (Except Error Unit) := do
  let disk ← o.look base [o.expr]
  match (do let ws ← o.workshop disk .empty; return (ws, ← o.start ws {})) with
  | .error e => return .error e
  | .ok (ws, r) =>
    if o.expr = "" then o.loop base (← IO.getStdin) r
    else match o.evaluate ws r with
      | .error e => return .error e
      | .ok out =>
        IO.print out
        return .ok ()

end LazySession

def main (args : List String) : IO UInt32 := do
  match LazySession.Flags.ofArgs {} args with
  | .error e =>
    IO.eprint e.message
    return e.exitCode
  | .ok f =>
    let base := (LazySession.Text.split '/' (← IO.currentDir).toString).filter (· ≠ "")
    let report := LazySession.Report.ofOutcome "" (← f.options.main base)
    IO.eprint report.stderr
    return report.exit
