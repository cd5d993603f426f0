import LazySession.Locate.FileTree

/-!
# Finding the source of a module

A dotted name stands for a path: `Data.Text` is looked for as `Data/Text.mhs` in one tree after the
other. Sources given by name come before all trees.
-/

namespace LazySession

structure Root where
  /-- The name it has in messages. -/
  name : String
  tree : FileTree
deriving Repr

structure Locator where
  roots : List Root
  ext : String := ".mhs"
  /-- Sources by the names of their modules. -/
  overlay : Table String := []
deriving Repr

/-- A source that was found. -/
structure SourceFile where
  name : String
  path : String
  text : String
deriving Repr

inductive LocateError
  | emptyName
  | invalidName (name path : String) (fault : PathFault)
  | unreadable (path root reason : String)
  | notFound (name : String) (roots : Nat) (path : String)
  /-- A directory to search is not there. -/
  | noDirectory (path reason : String)
  | notDirectory (path : String)
deriving DecidableEq, Repr

namespace LocateError

def message : LocateError → String
  | emptyName => "empty module name"
  | invalidName name path fault =>
    "invalid module name " ++ Text.quote name ++ ": malformed file path " ++ Text.quote path ++
      ": " ++ fault.message
  | unreadable path root reason => "reading " ++ path ++ " in " ++ root ++ ": " ++ reason
  | notFound name roots path =>
    "module not found: " ++ name ++ " (searched " ++ toString roots ++ " roots for " ++ path ++ ")"
  | noDirectory path reason =>
    "could not stat search path " ++ path ++ ": stat " ++ path ++ ": " ++ reason
  | notDirectory path => "search path " ++ path ++ " is not a directory"

def isNotFound : LocateError → Bool
  | notFound .. => true
  | _ => false

end LocateError

namespace Locator

/-- A locator over trees in memory, which are named by their numbers. -/
def ofTrees (trees : List FileTree) : Locator :=
  { roots := trees.zipIdx.map fun (tree, i) => ⟨"root[" ++ toString i ++ "]", tree⟩ }

/-- A directory of a disk as a root. -/
def directory (disk : FileTree) (base : List String) (path : String) : Except LocateError Root :=
  let es := Path.absolute base path
  let full := Path.text es
  let place := Text.join "/" es
  if es.isEmpty then .ok ⟨full, disk⟩
  else if disk.isDirectory place then .ok ⟨full, disk.below es⟩
  else match disk.read place with
    | .ok _ | .error (.locked _) => .error (.notDirectory full)
    | .error .notDirectory => .error (.noDirectory full "not a directory")
    | .error _ => .error (.noDirectory full "no such file or directory")

/-- A locator over directories of a disk. Empty paths are left out. -/
def ofPaths (disk : FileTree) (base : List String) (paths : List String) :
    Except LocateError Locator := do
  let roots ← (paths.filter (· ≠ "")).mapM (directory disk base)
  return { roots }

/-- The path of a module's file. -/
def filePath (l : Locator) (name : String) : Except LocateError String :=
  if name = "" then .error .emptyName
  else
    let path := String.ofList (name.toList.map fun c => if c = '.' then '/' else c) ++ l.ext
    match Path.check path with
    | .ok () => .ok path
    | .error fault => .error (.invalidName name path fault)

/-- The file in the first root that has it. A file that cannot be read ends the search. -/
def findIn (path : String) : List Root → Except LocateError (Option String)
  | [] => .ok none
  | r :: rs => match r.tree.read path with
    | .ok text => .ok (some text)
    | .error .missing => findIn path rs
    | .error fault => .error (.unreadable path r.name (r.tree.faultText path fault))

def find (l : Locator) (name : String) : Except LocateError SourceFile :=
  match l.overlay.get? name with
  | some text => .ok { name, path := "overlay:" ++ name, text }
  | none => do
    let path ← l.filePath name
    match ← findIn path l.roots with
    | some text => return { name, path := Path.clean path, text }
    | none => throw (.notFound name l.roots.length path)

/-- The number of sources that there are to find. -/
def size (l : Locator) : Nat :=
  l.roots.foldl (fun n r => n + r.tree.files.length) l.overlay.length

end Locator

end LazySession
