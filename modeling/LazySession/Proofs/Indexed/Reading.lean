import LazySession.Lang.Fragment

/-!
# Reading by index

The readers once more, with nothing about them given: the tokens stand in one list with a position in
it, the columns of the blocks in a list that is cut at its end, loops and calls may go on for ever, and
every access may miss. `Halt` tells the ways apart in which such a reader stops without a result.
-/

namespace LazySession

namespace Indexed

inductive Halt where
  /-- A fault in the text. -/
  | issue (i : Issue)
  /-- An index or the bound of a slice is out of range. -/
  | outOfRange
  /-- A branch was entered that is not meant to be. -/
  | unreachable
  /-- The calls and the rounds of loops are more than allowed. -/
  | tooDeep
deriving DecidableEq, Repr

/-! ## Lists -/

section
variable {α : Type}

/-- The element at an index, which may be negative. -/
def index (xs : List α) (i : Int) : Except Halt α :=
  if i < 0 then .error .outOfRange
  else match xs[i.toNat]? with
    | some x => .ok x
    | none => .error .outOfRange

/-- The elements from `lo` up to `hi`, that one excluded. -/
def slice (xs : List α) (lo hi : Int) : Except Halt (List α) :=
  if 0 ≤ lo ∧ lo ≤ hi ∧ hi ≤ xs.length then .ok ((xs.take hi.toNat).drop lo.toNat)
  else .error .outOfRange

end

/-- The index of the last dot, or -1. -/
def lastDot (cs : List Char) : Int :=
  match cs.reverse.idxOf? '.' with
  | some i => cs.length - 1 - i
  | none => -1

/-- The module and the name of a qualified variable. -/
def cutQualified (s : String) : Except Halt (String × String) := do
  let cs := s.toList
  let mod ← slice cs 0 (lastDot cs)
  let name ← slice cs (lastDot cs + 1) cs.length
  return (String.ofList mod, String.ofList name)

/-! ## Readers -/

structure State where
  toks : List Token
  pos : Nat
  /-- The columns of the blocks around, innermost last. -/
  layout : List Int
deriving Repr

abbrev Reader (α : Type) := StateT State (Except Halt) α

section
variable {α : Type}

def tooDeep : Reader α := throw .tooDeep

def fail (t : Token) (fault : SyntaxFault) : Reader α :=
  throw (.issue ⟨t.pos, fault⟩)

def peek : Reader Token := do
  let s ← get
  index s.toks s.pos

/-- The token behind the next one; behind the last one, that one again. -/
def peekSecond : Reader Token := do
  let s ← get
  if s.toks.length ≤ s.pos + 1 then index s.toks (s.toks.length - 1)
  else index s.toks (s.pos + 1)

def next : Reader Token := do
  let s ← get
  let t ← index s.toks s.pos
  if t.kind ≠ .eof then set { s with pos := s.pos + 1 }
  return t

def expect (kind : TokenKind) (what : String) : Reader Token := do
  let t ← peek
  if t.kind = kind then next else fail t (.expected what t)

def expectEnd : Reader Unit := do
  let t ← peek
  if t.kind = .eof then return () else fail t (.unexpected t)

def atBoundary : Reader Bool := do
  let s ← get
  if s.layout.length = 0 then return false
  else
    let t ← peek
    let col ← index s.layout (s.layout.length - 1)
    return t.startsLine && t.pos.col ≤ col

/-- Whether the next token is as described and does not start a new binding. -/
def goesOn (p : Token → Bool) : Reader Bool := do
  if p (← peek) then return !(← atBoundary) else return false

def withColumn (col : Int) (r : Reader α) : Reader α := do
  modify fun s => { s with layout := s.layout ++ [col] }
  let a ← r
  let s ← get
  let layout ← slice s.layout 0 (s.layout.length - 1)
  set { s with layout }
  return a

end

/-! ## Types -/

mutual

def typeExpr : Nat → Reader TypeExpr
  | 0 => tooDeep
  | n + 1 => do
    let head ← typeAtom n
    let args ← typeArgs n []
    let t := if args.isEmpty then head else .app head args
    if (← peek).kind = .arrow then
      let _ ← next
      return .arrow t (← typeExpr n)
    else return t

def typeArgs : Nat → (done : List TypeExpr) → Reader (List TypeExpr)
  | 0, _ => tooDeep
  | n + 1, done => do
    if Grammar.startsType (← peek) then
      let t ← typeAtom n
      typeArgs n (t :: done)
    else return done.reverse

def typeAtom : Nat → Reader TypeExpr
  | 0 => tooDeep
  | n + 1 => do
    let t ← next
    match t.kind with
    | .conid => return .con t.pos t.text
    | .ident => return .var t.pos t.text
    | .lparen =>
      if (← peek).kind = .rparen then
        let _ ← next
        return .unit t.pos
      else
        let inner ← typeExpr n
        let _ ← expect .rparen "')'"
        return inner
    | _ => fail t (.expected "a type" t)

end

/-! ## Expressions -/

def params : Nat → (done : List Param) → Reader (List Param)
  | 0, _ => tooDeep
  | n + 1, done => do
    let t ← peek
    if t.kind = .ident then
      let _ ← next
      params n (.named t.text :: done)
    else if t.kind = .lparen then
      if (← peekSecond).kind = .rparen then
        let _ ← next
        let _ ← next
        params n (.unit :: done)
      else return done.reverse
    else return done.reverse

def checkChain (t : Token) (op : Operator) : Reader Unit := do
  if op.associativity = .none then
    let u ← peek
    if ← goesOn (·.kind == .op) then
      match Operator.ofText? u.text with
      | some op' => if op'.level = op.level then fail u (.chained u.text t.text) else return ()
      | none => return ()
    else return ()
  else return ()

mutual

def operation : Nat → (level : Nat) → Reader Expr
  | 0, _ => tooDeep
  | n + 1, level => do
    let left ← operand n
    operationFrom n level left

def operationFrom : Nat → (level : Nat) → (left : Expr) → Reader Expr
  | 0, _, _ => tooDeep
  | n + 1, level, left => do
    let t ← peek
    if ← goesOn (·.kind == .op) then
      match Operator.ofText? t.text with
      | none => fail t (.unknownOperator t.text)
      | some op =>
        if op.level < level then return left
        else
          let _ ← next
          let right ← operation n op.rightLevel
          checkChain t op
          operationFrom n level (.binary t.pos op left right)
    else return left

def operand : Nat → Reader Expr
  | 0 => tooDeep
  | n + 1 => do
    let t ← peek
    match t.kind with
    | .backslash => lambda n
    | .kwLet => letIn n
    | .kwIf => cond n
    | .op =>
      if t.text = "-" then
        let _ ← next
        return .negate t.pos (← operation n 7)
      else application n
    | _ => application n

def application : Nat → Reader Expr
  | 0 => tooDeep
  | n + 1 => do
    let fn ← atom n
    let args ← arguments n []
    return if args.isEmpty then fn else .app fn args

def arguments : Nat → (done : List Expr) → Reader (List Expr)
  | 0, _ => tooDeep
  | n + 1, done => do
    if ← goesOn Grammar.startsAtom then
      let a ← atom n
      arguments n (a :: done)
    else return done.reverse

def atom : Nat → Reader Expr
  | 0 => tooDeep
  | n + 1 => do
    let t ← peek
    match t.kind with
    | .ident =>
      let _ ← next
      return .var t.pos t.text
    | .qvar =>
      let _ ← next
      let (mod, name) ← cutQualified t.text
      return .qualified t.pos mod name
    | .conid =>
      let _ ← next
      match t.text with
      | "True" => return .bool t.pos true
      | "False" => return .bool t.pos false
      | _ => fail t (.unknownConstructor t.text)
    | .int =>
      let _ ← next
      match Text.unsigned? t.text.toList with
      | some v => return .int t.pos v
      | none => fail t (.intRange t.text)
    | .string =>
      let _ ← next
      return .str t.pos t.text
    | .lparen =>
      let _ ← next
      parenthesized n t
    | _ => fail t (.unexpected t)

def parenthesized : Nat → (t : Token) → Reader Expr
  | 0, _ => tooDeep
  | n + 1, t => do
    let u ← peek
    if u.kind = .rparen then
      let _ ← next
      return .unit t.pos
    else
      let v ← peekSecond
      if u.kind = .op ∧ v.kind = .rparen then
        match Operator.ofText? u.text with
        | none => fail u (.unknownOperator u.text)
        | some op =>
          let _ ← next
          let _ ← next
          return .operator t.pos op
      else
        let e ← withColumn 0 (operation n 0)
        let _ ← expect .rparen "')'"
        return e

def lambda : Nat → Reader Expr
  | 0 => tooDeep
  | n + 1 => do
    let t ← next
    match ← params n [] with
    | [] =>
      let u ← peek
      fail u (.expected "a parameter" u)
    | p :: ps =>
      let _ ← expect .arrow "'->'"
      return .lambda t.pos p ps (← operation n 0)

def cond : Nat → Reader Expr
  | 0 => tooDeep
  | n + 1 => do
    let t ← next
    let test ← operation n 0
    let _ ← expect .kwThen "'then'"
    let yes ← operation n 0
    let _ ← expect .kwElse "'else'"
    return .cond t.pos test yes (← operation n 0)

def letIn : Nat → Reader Expr
  | 0 => tooDeep
  | n + 1 => do
    let t ← next
    let first ← peek
    if first.kind ≠ .ident then fail first (.expected "a binding after 'let'" first)
    else
      let binds ← withColumn first.pos.col (bindings n first.pos.col [])
      let _ ← expect .kwIn "'in'"
      return .letIn t.pos binds (← operation n 0)

def bindings : Nat → (col : Int) → (done : List Binding) → Reader (List Binding)
  | 0, _, _ => tooDeep
  | n + 1, col, done => do
    let b ← binding n false
    let t ← peek
    if t.kind = .semi then
      let _ ← next
      bindings n col (b :: done)
    else if t.kind = .kwIn then return (b :: done).reverse
    else if t.kind = .ident ∧ t.startsLine ∧ t.pos.col = col then bindings n col (b :: done)
    else fail t (.expected "'in'" t)

def binding : Nat → (strict : Bool) → Reader Binding
  | 0, _ => tooDeep
  | n + 1, strict => do
    let t ← expect .ident "a name"
    let ps ← params n []
    let eq ← expect .equals "'='"
    if strict ∧ ps ≠ [] then fail eq (.strictParams t.text)
    else
      let body ← operation n 0
      return { pos := t.pos, name := t.text, params := ps, strict, body }

end

def expr (n : Nat) : Reader Expr := operation n 0

/-! ## Declarations -/

def signatureNames : Nat → (done : List String) → Reader (List String)
  | 0, _ => tooDeep
  | n + 1, done => do
    if (← peek).kind = .comma then
      let _ ← next
      let t ← expect .ident "a name"
      signatureNames n (t.text :: done)
    else return done.reverse

def signature (n : Nat) : Reader Decl := do
  let t ← expect .ident "a name"
  let names ← signatureNames n [t.text]
  let _ ← expect .doubleColon "'::'"
  return .signature t.pos names (← typeExpr n)

def decl (n : Nat) : Reader Decl := do
  let t ← peek
  match t.kind with
  | .kwImport =>
    let _ ← next
    let name ← expect .conid "a module name"
    return .importing t.pos name.text
  | .bang =>
    let _ ← next
    return .binding (← binding n true)
  | .ident =>
    let u ← peekSecond
    if u.kind = .comma ∨ u.kind = .doubleColon then signature n
    else return .binding (← binding n false)
  | _ => fail t (.expected "a declaration" t)

def moduleHeader : Reader (Pos × String) := do
  let t ← expect .kwModule "'module'"
  let name ← expect .conid "a module name"
  let _ ← expect .kwWhere "'where'"
  return (t.pos, name.text)

end Indexed

end LazySession
