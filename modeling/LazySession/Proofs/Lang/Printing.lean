import LazySession.Proofs.Lang.Types

/-!
# Printing trees

A tree is printed as a row of words with a space between any two of them, every expression and every
type inside another one in parentheses. A declaration takes one line.

`Expr.Writable`, `Decl.Writable` and `Module.Writable` say which trees can be written at all.
-/

namespace LazySession

/-! ## Words -/

/-- A token without its place. -/
abbrev Token.Word := TokenKind × String

/-- What a character of a text is written as in a string literal. -/
def Lexeme.escape (c : Char) : List Char :=
  if c = '\n' then ['\\', 'n']
  else if c = '\t' then ['\\', 't']
  else if c = '\\' then ['\\', '\\']
  else if c = '"' then ['\\', '"']
  else [c]

namespace Token.Word

/-- The characters that the word is written with. -/
def raw : Token.Word → List Char
  | (.string, text) => '"' :: text.toList.flatMap Lexeme.escape ++ ['"']
  | (_, text) => text.toList

def lexeme (w : Token.Word) : Lexeme := ⟨w.raw, some w⟩

/-- The word is a token when it stands alone. -/
def Lexes (w : Token.Word) : Prop := Lexeme.scan w.raw = ([w.lexeme], none)

def lparen : Token.Word := (.lparen, "(")

def rparen : Token.Word := (.rparen, ")")

/-- The words between parentheses. -/
def inParens (ws : List Token.Word) : List Token.Word := lparen :: (ws ++ [rparen])

/-- A line of words. -/
def line : List Token.Word → List Char
  | [] => []
  | [w] => w.raw
  | w :: ws => w.raw ++ ' ' :: line ws

end Token.Word

open Token.Word (inParens Lexes line)

/-- The name of a variable. -/
def IsIdent (name : String) : Prop := Lexes (.ident, name)

/-- The name of a module or a type. -/
def IsConid (name : String) : Prop := Lexes (.conid, name)

/-! ## Types -/

namespace TypeExpr

mutual

def words : TypeExpr → List Token.Word
  | con _ name => [(.conid, name)]
  | var _ name => [(.ident, name)]
  | unit _ => inParens []
  | app head args => inParens head.words ++ wordsAll args
  | arrow dom cod => inParens dom.words ++ (.arrow, "->") :: inParens cod.words

def wordsAll : List TypeExpr → List Token.Word
  | [] => []
  | t :: ts => inParens t.words ++ wordsAll ts

end

mutual

def Writable : TypeExpr → Prop
  | con _ name => IsConid name
  | var _ name => IsIdent name
  | unit _ => True
  | app head args => head.Writable ∧ args ≠ [] ∧ AllWritable args
  | arrow dom cod => dom.Writable ∧ cod.Writable

def AllWritable : List TypeExpr → Prop
  | [] => True
  | t :: ts => t.Writable ∧ AllWritable ts

end

end TypeExpr

/-! ## Expressions -/

namespace Param

def words : Param → List Token.Word
  | unit => inParens []
  | named name => [(.ident, name)]

def Writable : Param → Prop
  | unit => True
  | named name => IsIdent name

end Param

/-- A name with its parameters, the sign, and what it stands for. -/
def BindingOf.wordsOf (name : String) (params : List Param) (body : List Token.Word) :
    List Token.Word :=
  (.ident, name) :: (params.flatMap Param.words ++ (.equals, "=") :: inParens body)

namespace Expr

mutual

def words : Expr → List Token.Word
  | var _ name => [(.ident, name)]
  | qualified _ mod name => [(.qvar, mod ++ "." ++ name)]
  | int _ value => [(.int, Text.ofInt64 value)]
  | str _ value => [(.string, value)]
  | bool _ value => [(.conid, if value then "True" else "False")]
  | unit _ => inParens []
  | app fn args => inParens fn.words ++ wordsAll args
  | binary _ op l r => inParens l.words ++ (.op, op.text) :: inParens r.words
  | negate _ e => (.op, "-") :: inParens e.words
  | operator _ op => inParens [(.op, op.text)]
  | lambda _ p ps body =>
    (.backslash, "\\") :: ((p :: ps).flatMap Param.words ++ (.arrow, "->") :: inParens body.words)
  | letIn _ binds body => (.kwLet, "let") :: (wordsBinds binds ++ (.kwIn, "in") :: inParens body.words)
  | cond _ test yes no =>
    (.kwIf, "if") :: (inParens test.words ++ (.kwThen, "then") :: (inParens yes.words ++
      (.kwElse, "else") :: inParens no.words))

def wordsAll : List Expr → List Token.Word
  | [] => []
  | e :: es => inParens e.words ++ wordsAll es

/-- Bindings with semicolons between them. -/
def wordsBinds : List (BindingOf Expr) → List Token.Word
  | [] => []
  | ⟨_, name, params, _, body⟩ :: bs =>
    BindingOf.wordsOf name params body.words ++
      ((if bs.isEmpty then [] else [(.semi, ";")]) ++ wordsBinds bs)

end

mutual

def Writable : Expr → Prop
  | var _ name => IsIdent name
  | qualified _ mod name => IsConid mod ∧ IsIdent name
  | int _ value => 0 ≤ value.toInt
  | str .. | bool .. | unit .. | operator .. => True
  | app fn args => fn.Writable ∧ args ≠ [] ∧ AllWritable args
  | binary _ _ l r => l.Writable ∧ r.Writable
  | negate _ e => e.Writable
  | lambda _ p ps body => (∀ q ∈ p :: ps, q.Writable) ∧ body.Writable
  | letIn _ binds body => binds ≠ [] ∧ BindsWritable binds ∧ body.Writable
  | cond _ test yes no => test.Writable ∧ yes.Writable ∧ no.Writable

def AllWritable : List Expr → Prop
  | [] => True
  | e :: es => e.Writable ∧ AllWritable es

/-- The bindings of a block have no marks in front of them. -/
def BindsWritable : List (BindingOf Expr) → Prop
  | [] => True
  | ⟨_, name, params, strict, body⟩ :: bs =>
    (IsIdent name ∧ (∀ q ∈ params, q.Writable) ∧ strict = false ∧ body.Writable) ∧ BindsWritable bs

end

mutual

/-- The expression with one place for all. -/
def erase : Expr → Expr
  | var _ name => .var .start name
  | qualified _ mod name => .qualified .start mod name
  | int _ value => .int .start value
  | str _ value => .str .start value
  | bool _ value => .bool .start value
  | unit _ => .unit .start
  | app fn args => .app fn.erase (eraseAll args)
  | binary _ op l r => .binary .start op l.erase r.erase
  | negate _ e => .negate .start e.erase
  | operator _ op => .operator .start op
  | lambda _ p ps body => .lambda .start p ps body.erase
  | letIn _ binds body => .letIn .start (eraseBinds binds) body.erase
  | cond _ test yes no => .cond .start test.erase yes.erase no.erase

def eraseAll : List Expr → List Expr
  | [] => []
  | e :: es => e.erase :: eraseAll es

def eraseBinds : List (BindingOf Expr) → List (BindingOf Expr)
  | [] => []
  | ⟨_, name, params, strict, body⟩ :: bs =>
    ⟨.start, name, params, strict, body.erase⟩ :: eraseBinds bs

end

/-- The text of an expression that stands alone. -/
def printed (e : Expr) : String := String.ofList (line e.words)

end Expr

/-! ## Declarations and modules -/

/-- Names with commas between them. -/
def Decl.wordsNames : List String → List Token.Word
  | [] => []
  | [x] => [(.ident, x)]
  | x :: xs => (.ident, x) :: (.comma, ",") :: wordsNames xs

namespace Decl

def words : Decl → List Token.Word
  | importing _ mod => [(.kwImport, "import"), (.conid, mod)]
  | signature _ names type => wordsNames names ++ (.doubleColon, "::") :: inParens type.words
  | binding ⟨_, name, params, strict, body⟩ =>
    (if strict then [(.bang, "!")] else []) ++ BindingOf.wordsOf name params body.words

def Writable : Decl → Prop
  | importing _ mod => IsConid mod
  | signature _ names type => names ≠ [] ∧ (∀ x ∈ names, IsIdent x) ∧ type.Writable
  | binding b => IsIdent b.name ∧ (∀ q ∈ b.params, q.Writable) ∧ (b.strict → b.params = []) ∧
    b.body.Writable

/-- The declaration with one place for all. -/
def erase : Decl → Decl
  | importing _ mod => .importing .start mod
  | signature _ names type => .signature .start names type.erase
  | binding ⟨_, name, params, strict, body⟩ => .binding ⟨.start, name, params, strict, body.erase⟩

/-- Lines of words. -/
def lines (rows : List (List Token.Word)) : List Char := rows.flatMap (line · ++ ['\n'])

/-- The text of declarations: one line for each. -/
def printed (ds : List Decl) : String := String.ofList (lines (ds.map words))

end Decl

namespace Module

def Writable (m : Module) : Prop := IsConid m.name ∧ ∀ d ∈ m.decls, d.Writable

def erase (m : Module) : Module := ⟨.start, m.name, m.decls.map Decl.erase⟩

def header (m : Module) : List Token.Word :=
  [(.kwModule, "module"), (.conid, m.name), (.kwWhere, "where")]

/-- The text of a module: its header and its declarations, each in a line of its own. -/
def printed (m : Module) : String :=
  String.ofList (Decl.lines (m.header :: m.decls.map Decl.words))

end Module

/-- The fragment with one place for all. -/
def Fragment.erase : Fragment → Fragment
  | definitions ds => .definitions (ds.map Decl.erase)
  | expression e => .expression e.erase
  | module m => .module m.erase

end LazySession
