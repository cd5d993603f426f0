import LazySession.Lang.Token
import LazySession.Text.Bytes
import LazySession.Text.Class.Digit
import LazySession.Text.Class.Letter
import LazySession.Text.Class.Lower
import LazySession.Text.Class.Upper

/-!
# From characters to tokens

A text is first cut into lexemes, each holding the characters it was cut from, so that nothing is
lost: white space and comments are lexemes too. The tokens are then read off the lexemes, and
their positions follow from the characters before them.
-/

namespace LazySession

open Text

/-! ## Character classes -/

def isIdentStart (c : Char) : Bool :=
  c == '_' || isLower c

def isIdentPart (c : Char) : Bool :=
  c == '_' || c == '\'' || isLetter c || isDigit c

def isSymbol (c : Char) : Bool :=
  "+-*/<>=!&|$:\\%^.~?@#".toList.contains c

theorem length_dropWhile_le (p : Char → Bool) (cs : List Char) :
    (cs.dropWhile p).length ≤ cs.length :=
  (List.dropWhile_suffix p).length_le

/-- A stretch of the source: a token, or something between tokens. -/
structure Lexeme where
  /-- The characters of the source. -/
  raw : List Char
  /-- The token, if it is one: its class and its text. -/
  token? : Option (TokenKind × String)
deriving DecidableEq, Repr

namespace Lexeme

def blank (raw : List Char) : Lexeme := ⟨raw, none⟩

def token (kind : TokenKind) (raw : List Char) : Lexeme := ⟨raw, some (kind, String.ofList raw)⟩

/-- A lexeme and what follows it, or what is wrong with it. -/
abbrev Cut := Except SyntaxFault (Lexeme × List Char)

/-! ## The classes of lexemes -/

/-- What follows the first part of a dotted name: further parts up to the first variable. -/
def dotted (cs : List Char) : TokenKind × List Char × List Char :=
  match cs with
  | dot :: c :: cs' =>
    if dot = '.' ∧ isUpper c then
      let (kind, more, rest) := dotted (cs'.dropWhile isIdentPart)
      (kind, '.' :: c :: (cs'.takeWhile isIdentPart ++ more), rest)
    else if dot = '.' ∧ isIdentStart c then
      (.qvar, '.' :: c :: cs'.takeWhile isIdentPart, cs'.dropWhile isIdentPart)
    else (.conid, [], cs)
  | _ => (.conid, [], cs)
termination_by cs.length
decreasing_by
  have := length_dropWhile_le isIdentPart cs'
  simp only [List.length_cons]
  omega

/-- A name that starts with an upper-case letter. -/
def name (c : Char) (cs : List Char) : Lexeme × List Char :=
  let (kind, more, rest) := dotted (cs.dropWhile isIdentPart)
  (token kind (c :: (cs.takeWhile isIdentPart ++ more)), rest)

def unescape? (c : Char) : Option Char :=
  if c = 'n' then some '\n'
  else if c = 't' then some '\t'
  else if c = '\\' ∨ c = '"' then some c
  else none

/-- The rest of a string literal. `raw` and `text` are what was read of it and what that denotes,
last character first. -/
def stringFrom (raw text : List Char) : List Char → Cut
  | [] => .error .unterminatedString
  | c :: cs =>
    if c = '\n' then .error .unterminatedString
    else if c = '"' then
      .ok (⟨(c :: raw).reverse, some (.string, String.ofList text.reverse)⟩, cs)
    else if c = '\\' then
      match cs with
      | [] => .error .unterminatedString
      | d :: cs => match unescape? d with
        | some e => stringFrom (d :: c :: raw) (e :: text) cs
        | none => .error (.unknownEscape d)
    else stringFrom (c :: raw) (c :: text) cs

/-- The rest of a block comment with `depth` more comments around the innermost one. -/
def commentFrom (depth : Nat) (raw : List Char) : List Char → Cut
  | [] => .error .unterminatedComment
  | [_] => .error .unterminatedComment
  | c :: d :: cs =>
    if c = '{' ∧ d = '-' then commentFrom (depth + 1) (d :: c :: raw) cs
    else if c = '-' ∧ d = '}' then
      match depth with
      | 0 => .ok (blank (d :: c :: raw).reverse, cs)
      | depth + 1 => commentFrom depth (d :: c :: raw) cs
    else commentFrom depth (c :: raw) (d :: cs)

/-- A run of symbol characters. Two or more dashes start a comment up to the end of the line. -/
def symbols (c : Char) (cs : List Char) : Lexeme × List Char :=
  let run := c :: cs.takeWhile isSymbol
  let rest := cs.dropWhile isSymbol
  if 2 ≤ run.length && run.all (· == '-') then
    (blank (run ++ rest.takeWhile (· != '\n')), rest.dropWhile (· != '\n'))
  else (token (.ofSymbols (String.ofList run)) run, rest)

/-- The lexeme that starts with `c`. -/
def next (c : Char) (cs : List Char) : Cut :=
  if isBlank c then .ok (blank [c], cs)
  else if c = '{' ∧ cs.head? = some '-' then commentFrom 0 ['-', '{'] cs.tail
  else if isIdentStart c then
    let word := c :: cs.takeWhile isIdentPart
    .ok (token (.ofWord (String.ofList word)) word, cs.dropWhile isIdentPart)
  else if isUpper c then .ok (name c cs)
  else if isDigit c then .ok (token .int (c :: cs.takeWhile isDigit), cs.dropWhile isDigit)
  else if c = '"' then stringFrom ['"'] [] cs
  else if c = '(' then .ok (token .lparen [c], cs)
  else if c = ')' then .ok (token .rparen [c], cs)
  else if c = ',' then .ok (token .comma [c], cs)
  else if c = ';' then .ok (token .semi [c], cs)
  else if isSymbol c then .ok (symbols c cs)
  else .error (.unexpectedChar c)

/-! ## Every lexeme shortens the text -/

theorem dotted_length_le (cs : List Char) : (dotted cs).2.2.length ≤ cs.length := by
  fun_induction dotted cs with
  | case1 dot c cs' _ _ _ _ h ih =>
    have := length_dropWhile_le isIdentPart cs'
    rw [h] at ih
    simp only [List.length_cons] at ih ⊢
    omega
  | case2 dot c cs' =>
    have := length_dropWhile_le isIdentPart cs'
    simp only [List.length_cons]
    omega
  | case3 => simp
  | case4 => simp

theorem name_length_le (c : Char) (cs : List Char) : (name c cs).2.length ≤ cs.length :=
  Nat.le_trans (dotted_length_le _) (length_dropWhile_le _ _)

theorem stringFrom_length_le {raw text cs : List Char} {l : Lexeme} {rest : List Char}
    (h : stringFrom raw text cs = .ok (l, rest)) : rest.length ≤ cs.length := by
  fun_induction stringFrom raw text cs with
  | case1 => cases h
  | case2 => cases h
  | case3 => cases h; simp
  | case4 => cases h
  | case5 _ _ _ _ _ _ _ _ ih => have := ih h; simp only [List.length_cons]; omega
  | case6 => cases h
  | case7 _ _ _ _ _ _ _ ih => have := ih h; simp only [List.length_cons]; omega

theorem commentFrom_length_le {depth : Nat} {raw cs : List Char} {l : Lexeme} {rest : List Char}
    (h : commentFrom depth raw cs = .ok (l, rest)) : rest.length ≤ cs.length := by
  fun_induction commentFrom depth raw cs with
  | case1 => cases h
  | case2 => cases h
  | case3 _ _ _ _ _ _ ih => have := ih h; simp only [List.length_cons]; omega
  | case4 => cases h; simp only [List.length_cons]; omega
  | case5 _ _ _ _ _ _ _ ih => have := ih h; simp only [List.length_cons]; omega
  | case6 _ _ _ _ _ _ _ ih => have := ih h; simp only [List.length_cons] at this ⊢; omega

theorem symbols_length_le (c : Char) (cs : List Char) : (symbols c cs).2.length ≤ cs.length := by
  have h := length_dropWhile_le isSymbol cs
  have h' := length_dropWhile_le (· != '\n') (cs.dropWhile isSymbol)
  unfold symbols
  dsimp only
  split <;> dsimp only <;> omega

theorem next_length_le {c : Char} {cs : List Char} {l : Lexeme} {rest : List Char}
    (h : next c cs = .ok (l, rest)) : rest.length ≤ cs.length := by
  revert h
  fun_cases next c cs with
  | case2 =>
    intro h
    have := commentFrom_length_le h
    simp only [List.length_tail] at this
    omega
  | case4 =>
    intro h
    have := name_length_le c cs
    simp only [Except.ok.injEq] at h
    rw [h] at this
    exact this
  | case6 => exact stringFrom_length_le
  | case11 =>
    intro h
    have := symbols_length_le c cs
    simp only [Except.ok.injEq] at h
    rw [h] at this
    exact this
  | case12 => intro h; cases h
  | case3 => intro h; cases h; exact length_dropWhile_le _ _
  | case5 => intro h; cases h; exact length_dropWhile_le _ _
  | _ => intro h; cases h; exact Nat.le_refl _

/-! ## The whole text -/

/-- The lexemes of a text, behind those in `done` (last first), up to the end or to the first
fault. -/
def scanFrom (done : List Lexeme) (cs : List Char) : List Lexeme × Option SyntaxFault :=
  match cs with
  | [] => (done.reverse, none)
  | c :: cs' => match h : next c cs' with
    | .error f => (done.reverse, some f)
    | .ok (l, rest) =>
      have := next_length_le h
      scanFrom (l :: done) rest
termination_by cs.length
decreasing_by
  simp only [List.length_cons]
  omega

def scan (cs : List Char) : List Lexeme × Option SyntaxFault :=
  scanFrom [] cs

/-- The characters that the lexemes were cut from. -/
def chars (ls : List Lexeme) : List Char :=
  ls.flatMap (·.raw)

/-- The tokens among the lexemes. `fresh` says that no token stands before on the line of `pos`.
Those before are in `done`, last first. -/
def tokensFrom (done : List Token) (pos : Pos) (fresh : Bool) : List Lexeme → List Token
  | [] => done.reverse
  | l :: ls =>
    let pos' := pos.after l.raw
    match l.token? with
    | some (kind, text) => tokensFrom (⟨kind, text, pos, fresh⟩ :: done) pos' false ls
    | none => tokensFrom done pos' (fresh || l.raw.contains '\n') ls

def tokens (ls : List Lexeme) : List Token :=
  tokensFrom [] .start true ls

end Lexeme

/-- A text as tokens. -/
structure Lexed where
  tokens : List Token
  /-- Where the last token ends; in a text without tokens, where the text ends. -/
  stop : Pos
deriving Repr

namespace Lexed

def ofText (source text : String) : Except SyntaxError Lexed :=
  match Lexeme.scan text.toList with
  | (ls, some fault) => .error ⟨source, Pos.start.after (Lexeme.chars ls), fault⟩
  | (ls, none) =>
    let tokens := Lexeme.tokens ls
    .ok { tokens
          stop := match tokens.getLast? with
            | some t => t.stop
            | none => Pos.start.after (Lexeme.chars ls) }

/-- A source as its bytes, with a U+FFFD for every byte that no character begins with. -/
def ofBytes (source : String) (bs : List UInt8) : Except SyntaxError Lexed :=
  ofText source (String.ofList (Text.runes bs))

theorem ofBytes_bytes (source text : String) : ofBytes source (Text.bytes text) = ofText source text := by
  rw [ofBytes, Text.runes_bytes, String.ofList_toList]

end Lexed

end LazySession
