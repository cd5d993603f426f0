/-!
# Whole numbers in decimal

Reading of 64-bit integers. Only the ten ASCII digits count, and a number that does not fit is
not read at all.
-/

namespace LazySession.Text

def digit? (c : Char) : Option Nat :=
  if '0' ≤ c ∧ c ≤ '9' then some (c.toNat - 48) else none

/-- The number written by `cs` behind the digits already read. -/
def digitsFrom (n : Nat) : List Char → Option Nat
  | [] => some n
  | c :: cs => match digit? c with
    | some d => digitsFrom (10 * n + d) cs
    | none => none

/-- The number written by one or more digits. -/
def nat? (cs : List Char) : Option Nat :=
  if cs.isEmpty then none else digitsFrom 0 cs

/-- The least number that is too large for 64 bits with a sign, `2 ^ 63`. -/
def int64Bound : Nat := 0x8000000000000000

/-- A number without sign below `2 ^ 63`. -/
def unsigned? (cs : List Char) : Option Int64 :=
  match nat? cs with
  | some n => if n < int64Bound then some (Int64.ofNat n) else none
  | none => none

/-- A number with an optional sign, from `-2 ^ 63` to `2 ^ 63 - 1`. -/
def signed? : List Char → Option Int64
  | '-' :: cs => match nat? cs with
    | some n => if n ≤ int64Bound then some (Int64.ofInt (-(n : Int))) else none
    | none => none
  | '+' :: cs => unsigned? cs
  | cs => unsigned? cs

/-- The decimal text of a number. -/
def ofInt64 (n : Int64) : String :=
  toString n.toInt

end LazySession.Text
