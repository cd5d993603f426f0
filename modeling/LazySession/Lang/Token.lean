import LazySession.Text.Quoted

/-!
# Positions and tokens
-/

namespace LazySession

/-- A line and a column, both counted from 1. A line of 0 or less is no place in a text. -/
structure Pos where
  line : Int
  col : Int
deriving DecidableEq, Repr, Inhabited

namespace Pos

def start : Pos := ⟨1, 1⟩

def text (p : Pos) : String :=
  toString p.line ++ ":" ++ toString p.col

/-- The place behind a character. -/
def step (p : Pos) (c : Char) : Pos :=
  if c = '\n' then ⟨p.line + 1, 1⟩ else ⟨p.line, p.col + 1⟩

/-- The place behind a text. -/
def after (p : Pos) (cs : List Char) : Pos :=
  cs.foldl step p

/-- The place `n` columns further right. -/
def right (p : Pos) (n : Nat) : Pos :=
  ⟨p.line, p.col + n⟩

end Pos

inductive TokenKind
  | eof
  /-- A variable: `foo`. -/
  | ident
  /-- A constructor or a module name: `Foo`, `Data.List`. -/
  | conid
  /-- A variable of a module: `Data.List.foo`. -/
  | qvar
  | int
  | string
  | op
  | doubleColon
  | equals
  | arrow
  | backslash
  | bang
  | lparen
  | rparen
  | comma
  | semi
  | kwModule
  | kwWhere
  | kwImport
  | kwLet
  | kwIn
  | kwIf
  | kwThen
  | kwElse
deriving DecidableEq, Repr, Inhabited

namespace TokenKind

/-- The class of a word that starts like a variable. -/
def ofWord (word : String) : TokenKind :=
  match word with
  | "module" => kwModule
  | "where" => kwWhere
  | "import" => kwImport
  | "let" => kwLet
  | "in" => kwIn
  | "if" => kwIf
  | "then" => kwThen
  | "else" => kwElse
  | _ => ident

/-- The class of a run of symbol characters. -/
def ofSymbols (run : String) : TokenKind :=
  match run with
  | "::" => doubleColon
  | "=" => equals
  | "->" => arrow
  | "\\" => backslash
  | "!" => bang
  | _ => op

end TokenKind

/-- A token and where it starts. Of a string literal, `text` is what it denotes. -/
structure Token where
  kind : TokenKind
  text : String
  pos : Pos
  /-- No other token stands before it on its line. -/
  startsLine : Bool
deriving DecidableEq, Repr, Inhabited

namespace Token

/-- The token that stands for the end of the input. -/
def eof (pos : Pos) : Token := ⟨.eof, "", pos, false⟩

/-- Where the token ends, its text being written as it is. -/
def stop (t : Token) : Pos :=
  t.pos.right t.text.length

/-- The token as a message names it. -/
def describe (t : Token) : String :=
  match t.kind with
  | .eof => "end of input"
  | .ident => "identifier " ++ Text.quote t.text
  | .conid | .qvar => "name " ++ Text.quote t.text
  | .int => "number " ++ t.text
  | .string => "string literal"
  | .op => "operator " ++ Text.quote t.text
  | _ => Text.quote t.text

end Token

/-! ## Syntax errors -/

/-- What can be wrong with a text. -/
inductive SyntaxFault
  | unexpectedChar (c : Char)
  | unterminatedString
  | unknownEscape (c : Char)
  | unterminatedComment
  /-- Something else than `what` was found. -/
  | expected (what : String) (found : Token)
  | unexpected (found : Token)
  | unknownOperator (op : String)
  /-- Two operators of one level that does not associate. -/
  | chained (op before : String)
  | unknownConstructor (name : String)
  | intRange (digits : String)
  | strictParams (name : String)
  | mixedFragment
  | noModuleHeader
deriving DecidableEq, Repr

namespace SyntaxFault

def message : SyntaxFault → String
  | unexpectedChar c => "unexpected character " ++ Text.quoteChar c
  | unterminatedString => "unterminated string literal"
  | unknownEscape c => "unknown escape sequence \\" ++ String.singleton c
  | unterminatedComment => "unterminated block comment"
  | expected what found => "expected " ++ what ++ ", found " ++ found.describe
  | unexpected found => "unexpected " ++ found.describe
  | unknownOperator op => "unknown operator " ++ Text.quote op
  | chained op before =>
    "operator " ++ Text.quote op ++ " cannot be chained with " ++ Text.quote before
  | unknownConstructor name => "unknown constructor " ++ Text.quote name
  | intRange digits => "integer literal " ++ digits ++ " is out of range"
  | strictParams name => "strict binding " ++ name ++ " cannot take parameters"
  | mixedFragment => "cannot mix declarations and expressions in one fragment"
  | noModuleHeader => "expected a module header"

end SyntaxFault

/-- A fault and its place in a named source. -/
structure SyntaxError where
  source : String
  pos : Pos
  fault : SyntaxFault
deriving DecidableEq, Repr

namespace SyntaxError

def message (e : SyntaxError) : String := e.fault.message

def text (e : SyntaxError) : String :=
  e.source ++ ":" ++ e.pos.text ++ ": " ++ e.message

end SyntaxError

end LazySession
