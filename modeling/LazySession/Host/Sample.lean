import LazySession.Host.Library

/-!
# A sample library

A few host functions and types that show how values cross between the host and the language:
numbers of several widths, named types, pointers, functions that give functions, and functions
that fail.
-/

namespace LazySession

namespace Sample

/-! ## Types -/

def label : HostType := .named "main.label" .string

def celsius : HostType := .named "main.celsius" (.int .int)

def sealed : HostType := .named "main.opaque" .record

def point : HostType := .pointer (.named "main.point" .record)

def texts : HostType := .slice .string

def intType : HostType := .int .int

/-! ## Functions -/

/-- The type of a function by its name. -/
def type? (name : String) : Option HostType :=
  let fn := fun ps rs => some (HostType.func ps false rs)
  match name with
  | "upper" => fn [.string] [.string]
  | "strlen" => fn [.string] [intType]
  | "add" => fn [intType, intType] [intType]
  | "add8" => fn [.int .int8, .int .int8] [.int .int8]
  | "u8" => fn [.int .uint8] [.int .uint8]
  | "u64" => fn [.int .uint64] [.int .uint64]
  | "flip" => fn [.bool] [.bool]
  | "greet" => fn [label] [label]
  | "half" => fn [.float] [.float]
  | "xof" => fn [point] [intType]
  | "mk" => fn [intType, intType] [point]
  | "seven" => fn [] [intType]
  | "nop" => fn [] []
  | "drop" => fn [intType] []
  | "adder" => fn [intType] [.func [intType] false [intType]]
  | "pair" => fn [intType] [intType, .string]
  | "sum" => some (.func [intType] true [intType])
  | "id" => fn [.any] [.any]
  | "isnil" => fn [.any] [.bool]
  | "fail" => fn [.string] [.string, .error]
  | "check" => fn [intType] [.error]
  | "pairerr" => fn [intType] [intType, intType, .error]
  | "nilfunc" => fn [intType] [intType]
  | _ => none

/-- A function as a value. One of them is only a type without a function behind it. -/
def function? (name : String) : Option HostData :=
  (type? name).map fun t => ⟨t, if name = "nilfunc" then .nil else .func name []⟩

def int (k : IntKind) (v : Int) : HostValue := .data ⟨.int k, .int (k.wrap v)⟩

/-- Functions of a text. -/
def onText (t : HostType) (s : String) : String → Except String (List HostValue)
  | "upper" => .ok [.data (.ofText s.toUpper)]
  | "strlen" => .ok [int .int s.utf8ByteSize]
  | "greet" => .ok [.data ⟨t, .text ("hi " ++ s)⟩]
  | "fail" => if s = "" then .ok [.data (.ofText "ok")] else .error ("failed: " ++ s)
  | _ => .ok []

/-- Functions of a whole number. -/
def onInt (n : Int) (held : List Content) : String → Except String (List HostValue)
  | "u8" => .ok [int .uint8 n]
  | "u64" => .ok [int .uint64 n]
  | "adder" => .ok [.data ⟨.func [intType] false [intType], .func "added" [.int n]⟩]
  | "added" => match held with
    | [.int a] => .ok [int .int (a + n)]
    | _ => .ok []
  | "pair" => .ok [int .int n, .data (.ofText "p")]
  | "pairerr" => .ok [int .int n, int .int n]
  | "check" => if n < 0 then .error ("negative: " ++ toString n) else .ok []
  | _ => .ok []

def onPoint (fields : List Int) : List HostValue :=
  [int .int (fields.headD (-1))]

/-- Functions of one argument. -/
def unary (name : String) (held : List Content) (v : HostValue) :
    Except String (List HostValue) :=
  match name with
  | "id" => .ok [v]
  | "isnil" => .ok [.data (.ofBool (v matches .nil))]
  | name => match v with
    | .data ⟨t, .text s⟩ => onText t s name
    | .data ⟨_, .int n⟩ => onInt n held name
    | .data ⟨_, .bool b⟩ => .ok [.data (.ofBool (!b))]
    | .data ⟨t, .float x⟩ => .ok [.data ⟨t, .float x.half⟩]
    | .data ⟨_, .record fields⟩ => .ok (onPoint fields)
    | .data ⟨_, .nil⟩ => .ok (onPoint [])
    | _ => .ok []

/-- Functions of two whole numbers. -/
def binary (name : String) (a b : Int) : List HostValue :=
  match name with
  | "add" => [int .int (a + b)]
  | "add8" => [int .int8 (a + b)]
  | "mk" => [.data ⟨point, .record [a, b]⟩]
  | _ => []

/-- What a function does with arguments of the types it takes. -/
def call (name : String) (held : List Content) (args : List HostValue) :
    Except String (List HostValue) :=
  match args with
  | [] => .ok (if name = "seven" then [int .int 7] else [])
  | [v] => unary name held v
  | [.data ⟨_, .int a⟩, .data ⟨_, .int b⟩] => .ok (binary name a b)
  | _ => .ok []

end Sample

def HostLibrary.sample : HostLibrary where
  call := Sample.call
  nullary := by
    refine ⟨fun fn => ⟨_, fun v h => ⟨_, fun u hu => ?_⟩⟩⟩
    -- what is given is no function
    obtain ⟨_, _, _, name, _, _, _, _, hc, hv⟩ := h
    obtain ⟨_, _, _, _, _, _, hfn, _⟩ := hu
    simp only [Sample.call, Except.ok.injEq] at hc
    subst hc hfn
    obtain ⟨-, hv⟩ | ⟨r, hr, hv⟩ := hv
    · cases hv
    · split at hr
      · cases hr
        cases hv
      · cases hr

end LazySession
