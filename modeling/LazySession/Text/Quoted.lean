import LazySession.Text.Class.Graphic

/-!
# Quoted text

A quoted text stands between two delimiters. Inside, graphic characters stand for themselves, the
delimiter and the backslash follow a backslash, seven controls have a letter of their own and
everything else is written by its code point.
-/

namespace LazySession.Text

def hexDigit (n : Nat) : Char :=
  if n < 10 then Char.ofNat (48 + n) else Char.ofNat (87 + n)

/-- The last `width` hexadecimal digits of `n`. -/
def hex : (width : Nat) → (n : Nat) → List Char
  | 0, _ => []
  | width + 1, n => hex width (n / 16) ++ [hexDigit (n % 16)]

/-- The control characters that are written with a letter. -/
def controlLetter? (c : Char) : Option Char :=
  match c.toNat with
  | 7 => some 'a'
  | 8 => some 'b'
  | 9 => some 't'
  | 10 => some 'n'
  | 11 => some 'v'
  | 12 => some 'f'
  | 13 => some 'r'
  | _ => none

/-- How one character is written between two `delim`s. -/
def escape (delim c : Char) : List Char :=
  if c = delim ∨ c = '\\' then ['\\', c]
  else if isGraphic c then [c]
  else match controlLetter? c with
    | some l => ['\\', l]
    | none =>
      if c.toNat < 0x20 ∨ c.toNat = 0x7f then '\\' :: 'x' :: hex 2 c.toNat
      else if c.toNat < 0x10000 then '\\' :: 'u' :: hex 4 c.toNat
      else '\\' :: 'U' :: hex 8 c.toNat

def quoteWith (delim : Char) (cs : List Char) : String :=
  String.ofList (delim :: (cs.flatMap (escape delim) ++ [delim]))

/-- A text between double quotes. -/
def quote (s : String) : String :=
  quoteWith '"' s.toList

/-- A character between single quotes. -/
def quoteChar (c : Char) : String :=
  quoteWith '\'' [c]

end LazySession.Text
