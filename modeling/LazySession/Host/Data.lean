import LazySession.Host.Type
import LazySession.Host.Double

/-!
# Host data

A host datum is a type together with a content. Several types share a kind of content: every
whole number is an `int`, whatever its width or name. Maps, channels, arrays and complex numbers are left
out, and so is what a datum shares with others: nothing here writes through a pointer.
-/

namespace LazySession

inductive Content
  | int (value : Int)
  | bool (value : Bool)
  | text (value : String)
  | float (value : Double)
  | texts (items : List String)
  /-- The fields of a record, or of the record that a pointer points to. -/
  | record (fields : List Int)
  /-- A pointer or function that is not there. -/
  | nil
  /-- A function: its name in the library and the values it holds on to. -/
  | func (name : String) (held : List Content)
deriving Repr, Inhabited

structure HostData where
  type : HostType
  content : Content
deriving Repr, Inhabited

namespace HostData

/-- The datum as plain text. A function has no text of its own and shows as a masked address. -/
def text (d : HostData) : String :=
  match d.content with
  | .int v => toString v
  | .bool b => if b then "true" else "false"
  | .text s => s
  | .float x => x.text
  | .texts items => "[" ++ Text.join " " items ++ "]"
  | .record fields =>
    (match d.type.base with
      | .pointer _ => "&"
      | _ => "") ++ "\x7b" ++ Text.join " " (fields.map fun v => toString v) ++ "\x7d"
  | .nil => "<nil>"
  | .func _ _ => "0xADDR"

/-- The datum as a value of the language shows it. -/
def inspect (d : HostData) : String :=
  match d.type.base, d.content with
  | .pointer _, .nil => "nil"
  | _, _ => d.text

/-- The whole number, of whatever kind, modulo `2 ^ 64`. -/
def int? (d : HostData) : Option Int64 :=
  match d.content with
  | .int v => some (Int64.ofInt v)
  | _ => none

def bool? (d : HostData) : Option Bool :=
  match d.content with
  | .bool b => some b
  | _ => none

def text? (d : HostData) : Option String :=
  match d.content with
  | .text s => some s
  | _ => none

/-- The number of parameters, if the datum is a function. -/
def arity? (d : HostData) : Option Nat :=
  match d.type.base, d.content with
  | .func ps _ _, .func _ _ => some ps.length
  | _, _ => none

def typeName (d : HostData) : String :=
  match d.content with
  | .int _ => "Int"
  | .bool _ => "Bool"
  | .text _ => "String"
  | _ => "Go " ++ d.type.text

def ofInt64 (v : Int64) : HostData := ⟨.int .int64, .int v.toInt⟩

def ofInt (v : Int) : HostData := ⟨.int .int, .int v⟩

def ofBool (b : Bool) : HostData := ⟨.bool, .bool b⟩

def ofText (s : String) : HostData := ⟨.string, .text s⟩

end HostData

namespace Content

/-- What a variable of the type holds before anything is stored in it. -/
def zero : HostType → Content
  | .int _ => .int 0
  | .bool => .bool false
  | .string => .text ""
  | .float => .float ⟨0⟩
  | .named _ t => zero t
  | .record => .record []
  | .slice _ => .texts []
  | .pointer _ | .any | .interface .. | .func .. => .nil

end Content

end LazySession
