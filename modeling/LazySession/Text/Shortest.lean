/-!
# The shortest decimal of a binary fraction

A binary fraction `m * 2 ^ q` stands for all reals that round to it. `shortest` gives the fewest
decimal digits that lie among them, and of two such decimals the nearer one. If both are equally
near, the one whose last digit is even is taken.
-/

namespace LazySession.Text

/-- A positive fraction and how far the reals that round to it reach on either side. All four
numbers are over the same denominator. -/
structure Rounding where
  value : Nat
  below : Nat
  above : Nat
  den : Nat
  /-- Whether the ends of the interval round to the fraction too. -/
  ends : Bool

namespace Rounding

/-- The power `10 ^ e`, or 1 for a negative exponent. -/
def pow10 (e : Int) : Nat := Nat.pow 10 e.toNat

/-- The rounding interval of `m * 2 ^ q`. At a power of two (`edge`) the gap below is half the gap
above. -/
def ofBinary (m : Nat) (q : Int) (edge : Bool) : Rounding :=
  let up := Nat.pow 2 q.toNat
  { value := 4 * m * up
    below := (if edge then 1 else 2) * up
    above := 2 * up
    den := 4 * Nat.pow 2 (-q).toNat
    ends := m % 2 == 0 }

/-- Whether `n * 10 ^ e` rounds to the fraction. -/
def holds (r : Rounding) (n : Nat) (e : Int) : Bool :=
  let a := n * pow10 e * r.den
  let s := pow10 (-e)
  if r.ends then (r.value - r.below) * s ≤ a && a ≤ (r.value + r.above) * s
  else (r.value - r.below) * s < a && a < (r.value + r.above) * s

/-- The distance of `n * 10 ^ e` from the value, up to a factor that depends on `e` only. -/
def distance (r : Rounding) (n : Nat) (e : Int) : Nat :=
  let a := n * pow10 e * r.den
  let b := r.value * pow10 (-e)
  (a - b) + (b - a)

/-- The one of `n` and `n + 1` that is nearer to the value in units of `10 ^ e`. Halfway between them
it is the even one. -/
def nearer (r : Rounding) (n : Nat) (e : Int) : Nat :=
  match compare (r.distance n e) (r.distance (n + 1) e) with
  | .lt => n
  | .eq => if n % 2 = 0 then n else n + 1
  | .gt => n + 1

/-- The multiple of `10 ^ e` next to the value, if one rounds to it. -/
def onGrid? (r : Rounding) (e : Int) : Option Nat :=
  let n := r.value * pow10 (-e) / (r.den * pow10 e)
  match r.holds n e, r.holds (n + 1) e with
  | true, true => some (r.nearer n e)
  | true, false => some n
  | false, true => some (n + 1)
  | false, false => none

/-- The first grid with a hit, from `10 ^ e` down through `steps` finer ones. -/
def search (r : Rounding) : (steps : Nat) → (e : Int) → Nat × Int
  | 0, e => (r.value * pow10 (-e) / (r.den * pow10 e), e)
  | steps + 1, e => match r.onGrid? e with
    | some n => if n = 0 then search r steps (e - 1) else (n, e)
    | none => search r steps (e - 1)

/-- The fewest digits that round to the fraction, as a number and its decimal exponent. -/
def shortest (r : Rounding) : Nat × Int :=
  let whole := r.value / r.den
  let start : Int :=
    if whole = 0 then -((r.den / r.value).log2 * 3 / 10 : Nat) else ((toString whole).length : Nat)
  search r 40 start

end Rounding

end LazySession.Text
