/-!
# Text as bytes

Sources and literals are bytes, and are read as UTF-8. `Text.runes_bytes`: the characters of a text are
read back from its bytes. A byte with which no character begins is read as U+FFFD, so nothing is refused,
but what such bytes were is lost.
-/

namespace LazySession.Text

/-- The bytes of a text in UTF-8. -/
def bytes (s : String) : List UInt8 := s.toList.flatMap String.utf8EncodeChar

/-- The character at the start of some bytes, in its shortest encoding. -/
def rune? (bs : List UInt8) : Option Char := (bs.take 4).toByteArray.utf8DecodeChar? 0

/-- The characters in some bytes, of which the first ones belong to a character that was read. -/
def runesFrom : (skip : Nat) → List UInt8 → List Char
  | _, [] => []
  | skip + 1, _ :: bs => runesFrom skip bs
  | 0, b :: bs => match rune? (b :: bs) with
    | some c => c :: runesFrom (c.utf8Size - 1) bs
    | none => '\uFFFD' :: runesFrom 0 bs

/-- The characters that bytes are read as. -/
def runes (bs : List UInt8) : List Char := runesFrom 0 bs

theorem rune?_utf8EncodeChar (c : Char) (bs : List UInt8) :
    rune? (String.utf8EncodeChar c ++ bs) = some c := by
  have hlen : (String.utf8EncodeChar c).length ≤ 4 := by
    rw [String.length_utf8EncodeChar]
    exact c.utf8Size_le_four
  rw [rune?, List.take_append, List.take_of_length_le hlen, List.toByteArray_append]
  exact ByteArray.utf8DecodeChar?_utf8EncodeChar_append

theorem runesFrom_skip (cs bs : List UInt8) : runesFrom cs.length (cs ++ bs) = runesFrom 0 bs := by
  induction cs with
  | nil => rfl
  | cons c cs ih => exact ih

theorem runes_utf8EncodeChar (c : Char) (bs : List UInt8) :
    runes (String.utf8EncodeChar c ++ bs) = c :: runes bs := by
  have hlen := String.length_utf8EncodeChar c
  have hrune := rune?_utf8EncodeChar c bs
  cases he : String.utf8EncodeChar c with
  | nil =>
    rw [he] at hlen
    exact absurd hlen.symm (Nat.ne_of_gt c.utf8Size_pos)
  | cons b cs =>
    rw [he, List.cons_append] at hrune
    rw [he, List.length_cons] at hlen
    rw [List.cons_append, runes, runesFrom, hrune]
    simp only [← hlen, Nat.add_sub_cancel, runesFrom_skip]
    rfl

/-- **The characters of a text are read back from its bytes.** -/
theorem runes_bytes (s : String) : runes (bytes s) = s.toList := by
  unfold bytes
  induction s.toList with
  | nil => rfl
  | cons c cs ih => rw [List.flatMap_cons, runes_utf8EncodeChar, ih]

/-- The second byte could not end a character that begins with the first. -/
example : runes [0xC3, 0xA9, 0xC3, 0x22, 0xFF] = ['é', '\uFFFD', '"', '\uFFFD'] := by decide +kernel

end LazySession.Text
