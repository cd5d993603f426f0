import LazySession.Lang.Grammar
import LazySession.Lang.Lexeme

/-!
# Reading a whole text

The tokens are cut into items, one for each token that starts a line in column 1. The leading
tokens tell whether an item is a declaration. A text is a module if it starts with `module`, a
group of definitions if all of its items are declarations, and one expression if none is.
-/

namespace LazySession

/-- A top-level item: a token and those that follow up to the next item. -/
structure Item where
  first : Token
  rest : List Token
deriving Repr

namespace Item

def toks (i : Item) : List Token := i.first :: i.rest

/-- Where the item's last token ends. -/
def stop (i : Item) : Pos :=
  (i.rest.getLastD i.first).stop

def startsItem (t : Token) : Bool :=
  t.startsLine && t.pos.col == 1

/-- Cuts the tokens behind `first` and those of its item in `seen` (last first). -/
def splitFrom (first : Token) (seen : List Token) (done : List Item) : List Token → List Item
  | [] => (⟨first, seen.reverse⟩ :: done).reverse
  | t :: ts =>
    if startsItem t then splitFrom t [] (⟨first, seen.reverse⟩ :: done) ts
    else splitFrom first (t :: seen) done ts

def split : List Token → List Item
  | [] => []
  | t :: ts => splitFrom t [] [] ts

/-- Whether an item whose first name was just read goes on like a declaration: names, commas and
`()` up to `=` or `::`. -/
def leadsToDecl : List Token → Bool
  | [] => false
  | t :: ts => match t.kind with
    | .equals | .doubleColon => true
    | .ident | .comma => leadsToDecl ts
    | .lparen => match ts with
      | [] => false
      | u :: us => if u.kind = .rparen then leadsToDecl us else false
    | _ => false

/-- Whether the leading tokens are those of an import, a signature or an equation. -/
def isDecl (i : Item) : Bool :=
  match i.first.kind with
  | .kwImport => true
  | .bang => match i.rest with
    | [] => false
    | t :: ts => t.kind == .ident && leadsToDecl ts
  | .ident => leadsToDecl i.rest
  | _ => false

def decl (i : Item) : Except Issue Decl :=
  Grammar.decl.runAll i.toks i.stop

end Item

/-- The declarations of the items, or all of the faults in them. -/
def Decl.ofItems (source : String) (items : List Item) : Except (List SyntaxError) (List Decl) :=
  let results := items.map Item.decl
  let errors := results.filterMap fun
    | .error issue => some (issue.in source)
    | .ok _ => none
  if errors.isEmpty then
    .ok (results.filterMap fun
      | .ok d => some d
      | .error _ => none)
  else .error errors

namespace Module

def ofTokens (source : String) (toks : List Token) (stop : Pos) :
    Except (List SyntaxError) Module :=
  match Grammar.moduleHeader.run { toks, stop } with
  | .error issue => .error [issue.in source]
  | .ok ((pos, name), c) => do
    let decls ← Decl.ofItems source (Item.split c.toks)
    return { pos, name, decls }

/-- A text that has to be a module. -/
def ofText (source text : String) : Except (List SyntaxError) Module :=
  match Lexed.ofText source text with
  | .error e => .error [e]
  | .ok { tokens, stop } =>
    match tokens with
    | [] => .error [⟨source, stop, .noModuleHeader⟩]
    | t :: _ =>
      if t.kind = .kwModule then ofTokens source tokens stop
      else .error [⟨source, t.pos, .noModuleHeader⟩]

def ofBytes (source : String) (bs : List UInt8) : Except (List SyntaxError) Module :=
  ofText source (String.ofList (Text.runes bs))

theorem ofBytes_bytes (source text : String) : ofBytes source (Text.bytes text) = ofText source text := by
  rw [ofBytes, Text.runes_bytes, String.ofList_toList]

end Module

namespace Fragment

/-- Where the items stop being of one kind. -/
def mixedAt (items : List Item) : Pos :=
  match items with
  | [] => Pos.start
  | i :: rest => match rest.find? fun j => j.isDecl != i.isDecl with
    | some j => j.first.pos
    | none => i.first.pos

def ofItems (source : String) (toks : List Token) (stop : Pos) (items : List Item) :
    Except (List SyntaxError) Fragment :=
  if items.all (·.isDecl) then do
    return .definitions (← Decl.ofItems source items)
  else if items.any (·.isDecl) then .error [⟨source, mixedAt items, .mixedFragment⟩]
  else match Grammar.expr.runAll toks stop with
    | .error issue => .error [issue.in source]
    | .ok e => .ok (.expression e)

/-- Reads and classifies one unit of interactive input. -/
def ofText (source text : String) : Except (List SyntaxError) Fragment :=
  match Lexed.ofText source text with
  | .error e => .error [e]
  | .ok { tokens, stop } =>
    match tokens with
    | [] => .ok (.definitions [])
    | t :: _ =>
      if t.kind = .kwModule then do
        return .module (← Module.ofTokens source tokens stop)
      else ofItems source tokens stop (Item.split tokens)

def ofBytes (source : String) (bs : List UInt8) : Except (List SyntaxError) Fragment :=
  ofText source (String.ofList (Text.runes bs))

theorem ofBytes_bytes (source text : String) : ofBytes source (Text.bytes text) = ofText source text := by
  rw [ofBytes, Text.runes_bytes, String.ofList_toList]

end Fragment

end LazySession
