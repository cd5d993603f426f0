import LazySession.Locate.Path
import LazySession.Table

/-!
# Trees of files
-/

namespace LazySession

/-- Where the files are kept. It shows in the texts of failures only. -/
inductive Storage
  | memory
  | disk
deriving DecidableEq, Repr

/-- Files by their paths below the top of the tree, and directories that may be empty. -/
structure FileTree where
  storage : Storage
  files : Table String
  dirs : List String := []
  /-- Files that cannot be read, with what is said about them. -/
  locked : Table String := []
deriving Repr

inductive ReadFault
  | missing
  | isDirectory
  /-- Something on the way is a file. -/
  | notDirectory
  /-- It is there, but cannot be read. -/
  | locked (reason : String)
deriving DecidableEq, Repr

namespace FileTree

/-- The paths above a path, nearest first. -/
def ancestors (path : String) : List String :=
  let es := Text.split '/' path
  (List.range es.length).tail.reverse.map fun n => Text.join "/" (es.take n)

def isDirectory (t : FileTree) (path : String) : Bool :=
  t.dirs.contains path || (t.files.names ++ t.locked.names ++ t.dirs).any fun p =>
    (Text.dropPrefix? (path ++ "/") p).isSome

def isFile (t : FileTree) (path : String) : Bool :=
  t.files.has path || t.locked.has path

def read (t : FileTree) (path : String) : Except ReadFault String :=
  match t.locked.get? path, t.files.get? path with
  | some reason, _ => .error (.locked reason)
  | none, some content => .ok content
  | none, none =>
    if t.isDirectory path then .error .isDirectory
    else if t.storage = .disk ∧ (ancestors path).any t.isFile then .error .notDirectory
    else .error .missing

/-- Why a file that is there cannot be read. -/
def faultText (t : FileTree) (path : String) : ReadFault → String
  | .missing => "open " ++ path ++ ": file does not exist"
  | .isDirectory => "read " ++ path ++
      (if t.storage = .memory then ": invalid argument" else ": is a directory")
  | .notDirectory => "open " ++ path ++ ": not a directory"
  | .locked reason => reason

/-- The part of the tree below a directory, given by its elements. -/
def below (t : FileTree) (elements : List String) : FileTree :=
  match elements with
  | [] => t
  | _ =>
    let top := Text.join "/" elements ++ "/"
    { t with
      files := t.files.filterMap fun (p, content) =>
        (Text.dropPrefix? top p).map fun rest => (rest, content)
      dirs := t.dirs.filterMap (Text.dropPrefix? top)
      locked := t.locked.filterMap fun (p, reason) =>
        (Text.dropPrefix? top p).map fun rest => (rest, reason) }

end FileTree

end LazySession
