import LazySession.Text.Class.Letter
import LazySession.Text.Parts
import LazySession.Text.Quoted

/-!
# Paths

A file path that is safe on every system: elements between single slashes, none of them made of
dots only, ending in a dot, holding a character that some system gives a meaning to, or named like
a device.
-/

namespace LazySession

inductive PathFault
  | empty
  | doubleSlash
  | trailingSlash
  | emptyElement
  | dots (element : String)
  | trailingDot
  | badChar (c : Char)
  | device (name : String)
deriving DecidableEq, Repr

namespace PathFault

def message : PathFault → String
  | empty => "empty string"
  | doubleSlash => "double slash"
  | trailingSlash => "trailing slash"
  | emptyElement => "empty path element"
  | dots element => "invalid path element " ++ Text.quote element
  | trailingDot => "trailing dot in path element"
  | badChar c => "invalid char " ++ Text.quoteChar c
  | device name => Text.quote name ++ " disallowed as path element component on Windows"

end PathFault

namespace Path

/-- Characters that file names may hold: ASCII letters and digits, some punctuation, the space, and
letters of other scripts. -/
def isFileChar (c : Char) : Bool :=
  if c.toNat < 128 then
    ('0' ≤ c && c ≤ '9') || ('A' ≤ c && c ≤ 'Z') || ('a' ≤ c && c ≤ 'z') ||
      "!#$%&()+,-.=@[]^_\x7b\x7d~ ".toList.contains c
  else Text.isLetter c

/-- Names that stand for devices, in upper case. -/
def devices : List String :=
  ["CON", "PRN", "AUX", "NUL", "COM1", "COM2", "COM3", "COM4", "COM5", "COM6", "COM7", "COM8",
   "COM9", "LPT1", "LPT2", "LPT3", "LPT4", "LPT5", "LPT6", "LPT7", "LPT8", "LPT9"]

def checkElement (element : String) : Except PathFault Unit :=
  let cs := element.toList
  if cs.isEmpty then .error .emptyElement
  else if cs.all (· == '.') then .error (.dots element)
  else if cs.getLast? = some '.' then .error .trailingDot
  else match cs.find? (!isFileChar ·) with
    | some c => .error (.badChar c)
    | none =>
      let short := String.ofList (cs.takeWhile (· != '.'))
      if devices.contains short.toUpper then .error (.device short) else .ok ()

def checkElements : List String → Except PathFault Unit
  | [] => .ok ()
  | e :: es => do
    checkElement e
    checkElements es

/-- Whether two slashes stand side by side. -/
def hasDoubleSlash : List Char → Bool
  | [] => false
  | c :: cs => (c == '/' && cs.head? == some '/') || hasDoubleSlash cs

def check (path : String) : Except PathFault Unit :=
  let cs := path.toList
  if cs.isEmpty then .error .empty
  else if hasDoubleSlash cs then .error .doubleSlash
  else if cs.getLast? = some '/' then .error .trailingSlash
  else checkElements (Text.split '/' path)

/-- The elements of a path without empty ones and `.`, each `..` taking the element before it away.
Those that are kept are in `done`, last first. Above the top of a rooted path there is nothing; another
path may start with `..` then. -/
def cleanElements (rooted : Bool) (done : List String) : List String → List String
  | [] => done.reverse
  | e :: es =>
    if e = "" ∨ e = "." then cleanElements rooted done es
    else if e = ".." then
      cleanElements rooted (if !rooted && done.all (· == "..") then ".." :: done else done.tail) es
    else cleanElements rooted (e :: done) es

/-- The shortest path that leads to the same place. -/
def clean (path : String) : String :=
  let es := Text.split '/' path
  if path.toList.head? = some '/' then "/" ++ Text.join "/" (cleanElements true [] es)
  else match cleanElements false [] es with
    | [] => "."
    | e :: es => Text.join "/" (e :: es)

/-- The elements of a path below the directory `base`, or below the top if it starts there. -/
def absolute (base : List String) (path : String) : List String :=
  let es := Text.split '/' path
  if path.toList.head? = some '/' then cleanElements true [] es else cleanElements true base.reverse es

/-- The text of an absolute path. -/
def text (elements : List String) : String :=
  "/" ++ Text.join "/" elements

end Path

end LazySession
