/-!
# The operators and how tightly they bind
-/

namespace LazySession

/-- The infix operators of the language. -/
inductive Operator
  | apply
  | or
  | and
  | eq
  | ne
  | lt
  | le
  | gt
  | ge
  | append
  | add
  | sub
  | mul
  | div
  | rem
deriving DecidableEq, Repr

inductive Associativity
  | left
  | right
  | none
deriving DecidableEq, Repr

namespace Operator

def text : Operator → String
  | apply => "$"
  | or => "||"
  | and => "&&"
  | eq => "=="
  | ne => "/="
  | lt => "<"
  | le => "<="
  | gt => ">"
  | ge => ">="
  | append => "++"
  | add => "+"
  | sub => "-"
  | mul => "*"
  | div => "/"
  | rem => "%"

def all : List Operator :=
  [apply, or, and, eq, ne, lt, le, gt, ge, append, add, sub, mul, div, rem]

/-- The operator that is written so. -/
def ofText? (s : String) : Option Operator :=
  all.find? (·.text == s)

/-- The level of an operator; a higher one binds tighter. -/
def level : Operator → Nat
  | apply => 0
  | or => 2
  | and => 3
  | eq | ne | lt | le | gt | ge => 4
  | append => 5
  | add | sub => 6
  | mul | div | rem => 7

def associativity : Operator → Associativity
  | apply | or | and | append => .right
  | eq | ne | lt | le | gt | ge => .none
  | add | sub | mul | div | rem => .left

/-- The least level an operator may have in the right operand. -/
def rightLevel (op : Operator) : Nat :=
  match op.associativity with
  | .right => op.level
  | .left | .none => op.level + 1

theorem ofText?_text (op : Operator) : ofText? op.text = some op := by
  cases op <;> decide

end Operator

end LazySession
