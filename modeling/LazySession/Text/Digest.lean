import LazySession.Text.Quoted

/-!
# A digest of texts

The 64-bit FNV-1a digest over the UTF-8 bytes, written as 16 hexadecimal digits.
-/

namespace LazySession.Text

namespace Digest

def start : UInt64 := 0xcbf29ce484222325

def addByte (h : UInt64) (b : UInt8) : UInt64 :=
  (h ^^^ b.toUInt64) * 0x100000001b3

def addText (h : UInt64) (s : String) : UInt64 :=
  s.toUTF8.foldl addByte h

def text (h : UInt64) : String :=
  String.ofList (hex 16 h.toNat)

end Digest

end LazySession.Text
