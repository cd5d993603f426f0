import LazySession.Text.Shortest

/-!
# Floating-point numbers of the host

The language only passes them on and shows them.
-/

namespace LazySession

/-- A 64-bit floating-point number, by its bits: sign, 11 bits of exponent, 52 bits of fraction. -/
structure Double where
  bits : UInt64
deriving DecidableEq, Repr, Inhabited

namespace Double

def ofFloat (f : Float) : Double := ⟨f.toBits⟩

def toFloat (d : Double) : Float := Float.ofBits d.bits

def negative (d : Double) : Bool := d.bits ≥ 0x8000000000000000

/-- The number of values that the fraction can have, `2 ^ 52`. -/
def fractions : Nat := 0x10000000000000

def exponent (d : Double) : Nat := (d.bits.toNat / fractions) % 2048

def fraction (d : Double) : Nat := d.bits.toNat % fractions

/-- The fewest digits of a number that is neither zero nor infinite, as a number and a decimal
exponent. -/
def digits (d : Double) : Nat × Int :=
  if d.exponent = 0 then (Text.Rounding.ofBinary d.fraction (-1074) false).shortest
  else (Text.Rounding.ofBinary (d.fraction + fractions) ((d.exponent : Int) - 1075)
    (d.fraction == 0 && d.exponent > 1)).shortest

/-- Two or more digits of an exponent behind its sign. -/
def exponentText (e : Int) : String :=
  let s := toString e.natAbs
  (if e < 0 then "-" else "+") ++ (if s.length < 2 then "0" ++ s else s)

/-- The text of `n * 10 ^ e` without sign. Exponents from -4 to 5 are written positionally. -/
def decimalText (n : Nat) (e : Int) : String :=
  let ds := (toString n).toList
  let top : Int := ds.length - 1 + e
  if top < -4 ∨ 6 ≤ top then
    String.ofList (ds.take 1) ++ (if ds.length = 1 then "" else "." ++ String.ofList (ds.drop 1)) ++
      "e" ++ exponentText top
  else if 0 ≤ e then String.ofList (ds ++ List.replicate e.toNat '0')
  else if top < 0 then "0." ++ String.ofList (List.replicate (-top - 1).toNat '0' ++ ds)
  else String.ofList (ds.take (top + 1).toNat) ++ "." ++ String.ofList (ds.drop (top + 1).toNat)

/-- The fewest digits that read back as the same number. -/
def text (d : Double) : String :=
  if d.exponent = 2047 then
    if d.fraction ≠ 0 then "NaN" else if d.negative then "-Inf" else "+Inf"
  else
    let body := if d.exponent = 0 ∧ d.fraction = 0 then "0" else
      let (n, e) := d.digits
      decimalText n e
    if d.negative then "-" ++ body else body

def half (d : Double) : Double := ofFloat (d.toFloat / 2)

end Double

end LazySession
