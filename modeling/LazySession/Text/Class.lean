/-!
# Classes of characters

A class is the first 128 code points, given by a rule, and a list of ranges for the rest. White
space has so few ranges that it stands here; the other classes have a module each.
-/

namespace LazySession.Text

/-- The code points `lo`, `lo + step`, ... up to `hi`. -/
structure CharRange where
  lo : Nat
  hi : Nat
  step : Nat

namespace CharRange

def contains (r : CharRange) (c : Char) : Bool :=
  r.lo ≤ c.toNat && c.toNat ≤ r.hi && (c.toNat - r.lo) % r.step == 0

def anyContains (rs : List CharRange) (c : Char) : Bool :=
  rs.any (·.contains c)

end CharRange

/-- The white space beyond the first 128 code points. -/
def blankRanges : List CharRange :=
  [⟨0x85, 0x85, 1⟩, ⟨0xa0, 0xa0, 1⟩, ⟨0x1680, 0x1680, 1⟩, ⟨0x2000, 0x200a, 1⟩,
   ⟨0x2028, 0x2029, 1⟩, ⟨0x202f, 0x202f, 1⟩, ⟨0x205f, 0x205f, 1⟩, ⟨0x3000, 0x3000, 1⟩]

/-- White space: the space, the controls from tab to carriage return, and the separators of
other scripts. -/
def isBlank (c : Char) : Bool :=
  if c.toNat < 128 then c == ' ' || ('\t' ≤ c && c ≤ '\r') else CharRange.anyContains blankRanges c

end LazySession.Text
