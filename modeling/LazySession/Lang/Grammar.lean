import LazySession.Lang.Cursor
import LazySession.Text.Decimal

/-!
# The grammar

Readers for types, expressions and declarations. Each level of nesting takes one unit of fuel from
its first argument. Every token leads through at most eight levels, so `fuel` is enough for the
tokens that are left.
-/

namespace LazySession

namespace Grammar

open Reader

/-- Enough for every way through the tokens of a cursor. -/
def fuel (c : Cursor) : Nat := 8 * (c.toks.length + 1)

/-- Where the fuel ends. No reader comes here with the fuel it is given. -/
def exhausted {α : Type} : Reader α := do
  let t ← peek
  fail t (.unexpected t)

/-! ## Types -/

def startsType (t : Token) : Bool :=
  t.kind == .conid || t.kind == .ident || t.kind == .lparen

mutual

/-- A type: applications with arrows between them, grouped to the right. -/
def typeExpr : Nat → Reader TypeExpr
  | 0 => exhausted
  | n + 1 => do
    let head ← typeAtom n
    let args ← typeArgs n []
    let t := if args.isEmpty then head else .app head args
    if (← peek).kind = .arrow then
      skip
      return .arrow t (← typeExpr n)
    else return t

/-- The arguments of a type, behind those in `done` (last first). -/
def typeArgs : Nat → (done : List TypeExpr) → Reader (List TypeExpr)
  | 0, _ => exhausted
  | n + 1, done => do
    if startsType (← peek) then
      let t ← typeAtom n
      typeArgs n (t :: done)
    else return done.reverse

def typeAtom : Nat → Reader TypeExpr
  | 0 => exhausted
  | n + 1 => do
    let t ← next
    match t.kind with
    | .conid => return .con t.pos t.text
    | .ident => return .var t.pos t.text
    | .lparen =>
      if (← peek).kind = .rparen then
        skip
        return .unit t.pos
      else
        let inner ← typeExpr n
        let _ ← expect .rparen "')'"
        return inner
    | _ => fail t (.expected "a type" t)

end

/-! ## Parameters -/

/-- The longest run of parameters at the front of the tokens, and what follows it. -/
def paramsFrom (done : List Param) : List Token → List Param × List Token
  | [] => (done.reverse, [])
  | t :: ts =>
    if t.kind = .ident then paramsFrom (.named t.text :: done) ts
    else match ts with
      | [] => (done.reverse, [t])
      | u :: us =>
        if t.kind = .lparen ∧ u.kind = .rparen then paramsFrom (.unit :: done) us
        else (done.reverse, t :: u :: us)

def params : Reader (List Param) := do
  let c ← get
  let (ps, rest) := paramsFrom [] c.toks
  set { c with toks := rest }
  return ps

/-! ## Expressions -/

def startsAtom (t : Token) : Bool :=
  match t.kind with
  | .ident | .qvar | .conid | .int | .string | .lparen => true
  | _ => false

/-- The module and the name of a qualified variable, cut at the last dot. -/
def splitQualified (s : String) : String × String :=
  let cs := s.toList.reverse
  (String.ofList (cs.dropWhile (· != '.')).tail.reverse,
    String.ofList (cs.takeWhile (· != '.')).reverse)

/-- After an operator that does not associate, no other of its level may follow. -/
def checkChain (t : Token) (op : Operator) : Reader Unit := do
  let c ← get
  let u := c.peek
  if op.associativity = .none ∧ u.kind = .op ∧ ¬ c.atBoundary then
    match Operator.ofText? u.text with
    | some op' => if op'.level = op.level then fail u (.chained u.text t.text) else return ()
    | none => return ()
  else return ()

mutual

/-- Operands with operators of at least the given level between them. -/
def operation : Nat → (level : Nat) → Reader Expr
  | 0, _ => exhausted
  | n + 1, level => do
    let left ← operand n
    operationFrom n level left

/-- The operators and operands that follow a left operand. -/
def operationFrom : Nat → (level : Nat) → (left : Expr) → Reader Expr
  | 0, _, _ => exhausted
  | n + 1, level, left => do
    let c ← get
    let t := c.peek
    if t.kind ≠ .op ∨ c.atBoundary then return left
    else match Operator.ofText? t.text with
      | none => fail t (.unknownOperator t.text)
      | some op =>
        if op.level < level then return left
        else
          skip
          let right ← operation n op.rightLevel
          checkChain t op
          operationFrom n level (.binary t.pos op left right)

def operand : Nat → Reader Expr
  | 0 => exhausted
  | n + 1 => do
    let t ← peek
    match t.kind with
    | .backslash => lambda n
    | .kwLet => letIn n
    | .kwIf => cond n
    | .op =>
      if t.text = "-" then
        skip
        return .negate t.pos (← operation n 7)
      else application n
    | _ => application n

def application : Nat → Reader Expr
  | 0 => exhausted
  | n + 1 => do
    let fn ← atom n
    let args ← arguments n []
    return if args.isEmpty then fn else .app fn args

/-- The arguments of a function, behind those in `done` (last first). -/
def arguments : Nat → (done : List Expr) → Reader (List Expr)
  | 0, _ => exhausted
  | n + 1, done => do
    let c ← get
    if startsAtom c.peek ∧ ¬ c.atBoundary then
      let a ← atom n
      arguments n (a :: done)
    else return done.reverse

def atom : Nat → Reader Expr
  | 0 => exhausted
  | n + 1 => do
    let t ← peek
    match t.kind with
    | .ident =>
      skip
      return .var t.pos t.text
    | .qvar =>
      skip
      let (mod, name) := splitQualified t.text
      return .qualified t.pos mod name
    | .conid =>
      skip
      match t.text with
      | "True" => return .bool t.pos true
      | "False" => return .bool t.pos false
      | _ => fail t (.unknownConstructor t.text)
    | .int =>
      skip
      match Text.unsigned? t.text.toList with
      | some v => return .int t.pos v
      | none => fail t (.intRange t.text)
    | .string =>
      skip
      return .str t.pos t.text
    | .lparen =>
      skip
      parenthesized n t
    | _ => fail t (.unexpected t)

/-- What follows the parenthesis `t`: the unit value, an operator as a function, or an
expression. -/
def parenthesized : Nat → (t : Token) → Reader Expr
  | 0, _ => exhausted
  | n + 1, t => do
    let c ← get
    let u := c.peek
    if u.kind = .rparen then
      skip
      return .unit t.pos
    else if u.kind = .op ∧ c.peekSecond.kind = .rparen then
      match Operator.ofText? u.text with
      | none => fail u (.unknownOperator u.text)
      | some op =>
        skip
        skip
        return .operator t.pos op
    else
      let e ← withColumn 0 (operation n 0)
      let _ ← expect .rparen "')'"
      return e

def lambda : Nat → Reader Expr
  | 0 => exhausted
  | n + 1 => do
    let t ← next
    match ← params with
    | [] =>
      let u ← peek
      fail u (.expected "a parameter" u)
    | p :: ps =>
      let _ ← expect .arrow "'->'"
      return .lambda t.pos p ps (← operation n 0)

def cond : Nat → Reader Expr
  | 0 => exhausted
  | n + 1 => do
    let t ← next
    let test ← operation n 0
    let _ ← expect .kwThen "'then'"
    let yes ← operation n 0
    let _ ← expect .kwElse "'else'"
    return .cond t.pos test yes (← operation n 0)

def letIn : Nat → Reader Expr
  | 0 => exhausted
  | n + 1 => do
    let t ← next
    let first ← peek
    if first.kind ≠ .ident then fail first (.expected "a binding after 'let'" first)
    else
      let binds ← withColumn first.pos.col (bindings n first.pos.col [])
      let _ ← expect .kwIn "'in'"
      return .letIn t.pos binds (← operation n 0)

/-- The bindings of a `let`, behind those in `done` (last first). The next one follows a semicolon
or starts a line in column `col`. -/
def bindings : Nat → (col : Int) → (done : List Binding) → Reader (List Binding)
  | 0, _, _ => exhausted
  | n + 1, col, done => do
    let b ← binding n false
    let t ← peek
    if t.kind = .semi then
      skip
      bindings n col (b :: done)
    else if t.kind = .kwIn then return (b :: done).reverse
    else if t.kind = .ident ∧ t.startsLine ∧ t.pos.col = col then bindings n col (b :: done)
    else fail t (.expected "'in'" t)

def binding : Nat → (strict : Bool) → Reader Binding
  | 0, _ => exhausted
  | n + 1, strict => do
    let t ← expect .ident "a name"
    let ps ← params
    let eq ← expect .equals "'='"
    if strict ∧ ps ≠ [] then fail eq (.strictParams t.text)
    else
      let body ← operation n 0
      return { pos := t.pos, name := t.text, params := ps, strict, body }

end

/-- An expression. -/
def expr : Reader Expr := do operation (fuel (← get)) 0

/-! ## Declarations -/

/-- The names of a signature, behind those in `done` (last first). -/
def signatureNames : Nat → (done : List String) → Reader (List String)
  | 0, _ => exhausted
  | n + 1, done => do
    if (← peek).kind = .comma then
      skip
      let t ← expect .ident "a name"
      signatureNames n (t.text :: done)
    else return done.reverse

def signature : Reader Decl := do
  let t ← expect .ident "a name"
  let names ← signatureNames (fuel (← get)) [t.text]
  let _ ← expect .doubleColon "'::'"
  return .signature t.pos names (← typeExpr (fuel (← get)))

def decl : Reader Decl := do
  let c ← get
  let t := c.peek
  match t.kind with
  | .kwImport =>
    skip
    let name ← expect .conid "a module name"
    return .importing t.pos name.text
  | .bang =>
    skip
    return .binding (← binding (fuel c) true)
  | .ident =>
    if c.peekSecond.kind = .comma ∨ c.peekSecond.kind = .doubleColon then signature
    else return .binding (← binding (fuel c) false)
  | _ => fail t (.expected "a declaration" t)

/-- The head of a module: where it starts and its name. -/
def moduleHeader : Reader (Pos × String) := do
  let t ← expect .kwModule "'module'"
  let name ← expect .conid "a module name"
  let _ ← expect .kwWhere "'where'"
  return (t.pos, name.text)

end Grammar

end LazySession
