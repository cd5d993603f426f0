import LazySession.Text.Parts

/-!
# The types of host values

Host values come from outside of the language and keep the types they have there.
-/

namespace LazySession

inductive IntKind
  | int
  | int8
  | int16
  | int32
  | int64
  | uint
  | uint8
  | uint16
  | uint32
  | uint64
  | uintptr
deriving DecidableEq, Repr

namespace IntKind

def text : IntKind → String
  | int => "int"
  | int8 => "int8"
  | int16 => "int16"
  | int32 => "int32"
  | int64 => "int64"
  | uint => "uint"
  | uint8 => "uint8"
  | uint16 => "uint16"
  | uint32 => "uint32"
  | uint64 => "uint64"
  | uintptr => "uintptr"

def bits : IntKind → Nat
  | int8 | uint8 => 8
  | int16 | uint16 => 16
  | int32 | uint32 => 32
  | int | int64 | uint | uint64 | uintptr => 64

def signed : IntKind → Bool
  | int | int8 | int16 | int32 | int64 => true
  | uint | uint8 | uint16 | uint32 | uint64 | uintptr => false

/-- How many numbers of this kind there are, `2 ^ bits`. -/
def size (k : IntKind) : Nat := Nat.pow 2 k.bits

/-- The number of this kind that agrees with `v` in its lowest bits. -/
def wrap (k : IntKind) (v : Int) : Int :=
  if k.signed then v.bmod k.size else v % k.size

end IntKind

inductive HostType
  | int (kind : IntKind)
  | bool
  | string
  | float
  /-- A type with a name of its own, and the type it is made of. -/
  | named (name : String) (under : HostType)
  | record
  | slice (item : HostType)
  | pointer (item : HostType)
  /-- The type of all values. -/
  | any
  /-- An interface by its name, and the types that have its methods by their texts. -/
  | interface (name : String) (members : List String)
  | func (params : List HostType) (variadic : Bool) (results : List HostType)
deriving Repr, Inhabited

namespace HostType

def error : HostType := interface "error" []

mutual

def text : HostType → String
  | int k => k.text
  | bool => "bool"
  | string => "string"
  | float => "float64"
  | named name _ => name
  | record => "struct"
  | slice t => "[]" ++ t.text
  | pointer t => "*" ++ t.text
  | any => "interface \x7b\x7d"
  | interface name _ => name
  | func ps variadic rs =>
    "func(" ++ Text.join ", " (paramTexts variadic ps) ++ ")" ++
      match resultTexts rs with
      | [] => ""
      | [r] => " " ++ r
      | rs => " (" ++ Text.join ", " rs ++ ")"

/-- Of a variadic function, the last parameter stands for any number of arguments. -/
def paramTexts (variadic : Bool) : List HostType → List String
  | [] => []
  | [t] => [if variadic then "..." ++ t.text else t.text]
  | t :: u :: ts => t.text :: paramTexts variadic (u :: ts)

def resultTexts : List HostType → List String
  | [] => []
  | t :: ts => t.text :: resultTexts ts

end

/-- The kind of the whole numbers of this type. -/
def intKind? : HostType → Option IntKind
  | int k => some k
  | named _ t => t.intKind?
  | _ => none

/-- Whether two types are the same; a name tells types apart, whatever they are made of. -/
def same (s t : HostType) : Bool := s.text == t.text

/-- The type without the names that it has been given. -/
def base : HostType → HostType
  | named _ t => t.base
  | t => t

/-- Whether the type is known by a name: its own, or that of a basic type. -/
def hasName : HostType → Bool
  | record | slice _ | pointer _ | any | func .. => false
  | _ => true

/-- Whether the type holds values of other types as they are. -/
def isInterface (t : HostType) : Bool :=
  match t.base with
  | any | interface .. => true
  | _ => false

/-- Whether a value of type `s` can stand where `t` is expected: it has the methods of an interface, or
the types are the same, or they are made of the same and not both have a name. -/
def assignable (s t : HostType) : Bool :=
  match t.base with
  | any => true
  | interface _ members => members.contains s.text
  | b => s.same t || (s.base.same b && !(s.hasName && t.hasName))

end HostType

end LazySession
