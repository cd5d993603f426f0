import LazySession.Text.Class

/-!
# Parts of a text

Trimming white space, cutting at the first occurrence of a separator and splitting at every
occurrence of a character.
-/

namespace LazySession.Text

/-- The text without the white space at both ends. -/
def trim (s : String) : String :=
  String.ofList ((s.toList.dropWhile isBlank).reverse.dropWhile isBlank).reverse

/-- Looks for `sep` in `cs`; `seen` is what stands before, last character first. -/
def cutFrom (sep : List Char) (seen cs : List Char) : Option (List Char × List Char) :=
  if sep.isPrefixOf cs then some (seen.reverse, cs.drop sep.length)
  else match cs with
    | [] => none
    | c :: cs => cutFrom sep (c :: seen) cs

/-- What stands before and after the first `sep`, if there is one. -/
def cut? (sep : String) (s : String) : Option (String × String) :=
  (cutFrom sep.toList [] s.toList).map fun (a, b) => (String.ofList a, String.ofList b)

/-- The pieces between the occurrences of `sep`, with the piece being read in `piece` and the
finished ones in `done`, both last first. -/
def splitFrom (sep : Char) (piece : List Char) (done : List String) : List Char → List String
  | [] => (String.ofList piece.reverse :: done).reverse
  | c :: cs =>
    if c = sep then splitFrom sep [] (String.ofList piece.reverse :: done) cs
    else splitFrom sep (c :: piece) done cs

/-- The pieces between the occurrences of a character; one more than there are occurrences. -/
def split (sep : Char) (s : String) : List String :=
  splitFrom sep [] [] s.toList

/-- The rest of `s` behind `pre`, if `s` starts so. -/
def dropPrefix? (pre s : String) : Option String :=
  if pre.toList.isPrefixOf s.toList then some (String.ofList (s.toList.drop pre.toList.length))
  else none

/-- The texts in order with `sep` between them. -/
def join (sep : String) : List String → String
  | [] => ""
  | [s] => s
  | s :: t :: rest => s ++ sep ++ join sep (t :: rest)

end LazySession.Text
