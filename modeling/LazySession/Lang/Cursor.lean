import LazySession.Lang.Tree

/-!
# Reading tokens

A reader consumes tokens from a cursor and either gives a result or stops at the first fault. The
cursor also holds the columns of the `let` blocks around it: a token that starts a line at or left
of the innermost column ends the binding that is being read.
-/

namespace LazySession

/-- A fault and where it is. -/
structure Issue where
  pos : Pos
  fault : SyntaxFault
deriving DecidableEq, Repr

def Issue.in (i : Issue) (source : String) : SyntaxError := ⟨source, i.pos, i.fault⟩

structure Cursor where
  /-- The tokens not read yet. -/
  toks : List Token
  /-- Where the input ends. -/
  stop : Pos
  /-- The columns of the blocks around, innermost first. Parentheses push a 0, which no token
  reaches. -/
  layout : List Int := []
deriving Repr

namespace Cursor

/-- The next token; at the end, the token that stands for the end. -/
def peek (c : Cursor) : Token :=
  c.toks.headD (.eof c.stop)

/-- The token behind the next one. -/
def peekSecond (c : Cursor) : Token :=
  c.toks.tail.headD (.eof c.stop)

/-- The cursor behind the next token. The end stays. -/
def advance (c : Cursor) : Cursor :=
  { c with toks := c.toks.tail }

/-- Whether the next token ends the binding that is being read. -/
def atBoundary (c : Cursor) : Bool :=
  match c.layout with
  | [] => false
  | col :: _ => c.peek.startsLine && c.peek.pos.col ≤ col

end Cursor

/-- A reader of an `α`. -/
abbrev Reader (α : Type) := StateT Cursor (Except Issue) α

namespace Reader

def fail {α : Type} (t : Token) (fault : SyntaxFault) : Reader α :=
  throw ⟨t.pos, fault⟩

def peek : Reader Token := return (← get).peek

def next : Reader Token := do
  let c ← get
  set c.advance
  return c.peek

def skip : Reader Unit := modify Cursor.advance

/-- Reads a token of the given class; `what` names it in the message. -/
def expect (kind : TokenKind) (what : String) : Reader Token := do
  let t ← peek
  if t.kind = kind then next else fail t (.expected what t)

def expectEnd : Reader Unit := do
  let t ← peek
  if t.kind = .eof then return () else fail t (.unexpected t)

/-- Reads with a further column on the layout. -/
def withColumn {α : Type} (col : Int) (r : Reader α) : Reader α := do
  modify fun c => { c with layout := col :: c.layout }
  let a ← r
  modify fun c => { c with layout := c.layout.tail }
  return a

/-- Runs a reader on all of the tokens. -/
def runAll {α : Type} (r : Reader α) (toks : List Token) (stop : Pos) : Except Issue α := do
  let (a, _) ← (do let a ← r; expectEnd; return a : Reader α).run { toks, stop }
  return a

end Reader

end LazySession
