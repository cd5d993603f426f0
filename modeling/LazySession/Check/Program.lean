import LazySession.Check.Scopes

/-!
# Checking a program

A program is a list of pieces, each from a source of its own. Later definitions of a name replace
those of earlier pieces; signatures count for the piece they stand in.
-/

namespace LazySession

/-- Declarations from one source. -/
structure Piece where
  source : String
  decls : List Decl
deriving Repr

/-- A binding, the source it comes from and the type its value has to have. -/
structure Definition where
  binding : Binding
  source : String
  want : Option BaseType
deriving Repr

/-- A module that has passed the checks. -/
structure ModuleCode where
  name : String
  imports : List String
  defs : List Definition
deriving Repr

namespace ModuleCode

def exports (m : ModuleCode) : List String :=
  m.defs.map (·.binding.name)

end ModuleCode

/-! ## One piece -/

namespace Piece

/-- The first signature of each name. -/
def signatures (p : Piece) : Table (Pos × TypeExpr) :=
  p.decls.foldl (fun sigs d => match d with
    | .signature pos names type =>
      names.foldl (fun sigs n => if sigs.has n then sigs else sigs.put n (pos, type)) sigs
    | _ => sigs) []

def bindings (p : Piece) : List Binding :=
  p.decls.filterMap Decl.binding?

/-- What is said about one declaration, behind `sigs` and `bound`, the names that have a signature
or a binding. -/
def remark (sigs bound : List String) : Decl → List TypeExpr.Remark
  | .importing .. => []
  | .signature pos names type => type.check ++ duplicates pos sigs names
  | .binding b => if bound.contains b.name then [(b.pos, .conflicting b.name)] else []
where
  /-- Names that have a signature already. -/
  duplicates (pos : Pos) (sigs : List String) : List String → List TypeExpr.Remark
    | [] => []
    | n :: ns =>
      if sigs.contains n then (pos, .duplicateSignature n) :: duplicates pos sigs ns
      else duplicates pos (n :: sigs) ns

/-- What is said about the declarations, one after the other. -/
def remarksFrom (sigs bound : List String) : List Decl → List TypeExpr.Remark
  | [] => []
  | d :: ds => remark sigs bound d ++ match d with
    | .importing .. => remarksFrom sigs bound ds
    | .signature _ names _ => remarksFrom (names ++ sigs) bound ds
    | .binding b => remarksFrom sigs (b.name :: bound) ds

/-- Signatures of names that the piece does not bind. -/
def unboundSignatures (p : Piece) : List TypeExpr.Remark :=
  let bound := p.bindings.map (·.name)
  p.signatures.filterMap fun (n, pos, _) =>
    if bound.contains n then none else some (pos, .noBinding n)

def diagnostics (p : Piece) : List Diagnostic :=
  (remarksFrom [] [] p.decls ++ p.unboundSignatures).map fun (pos, c) => ⟨p.source, pos, c⟩

/-- The bindings with the types that their values have to have. Only a name without parameters is
checked against its signature. -/
def definitions (p : Piece) : List Definition :=
  let sigs := p.signatures
  p.bindings.map fun b =>
    { binding := b, source := p.source
      want := if b.params.isEmpty then (sigs.get? b.name).bind fun (_, t) => t.base? else none }

/-- The imports with their places. -/
def imports (p : Piece) : List (String × Pos × String) :=
  p.decls.filterMap fun
    | .importing pos mod => some (p.source, pos, mod)
    | _ => none

end Piece

/-! ## All pieces -/

namespace Program

/-- A definition takes the last place and the one of the same name goes. -/
def addDefinition (ds : List Definition) (d : Definition) : List Definition :=
  ds.filter (·.binding.name ≠ d.binding.name) ++ [d]

/-- The definitions that count. -/
def definitions (ps : List Piece) : List Definition :=
  (ps.flatMap (·.definitions)).foldl addDefinition []

/-- The imports of all pieces, each module once, where it is first imported. -/
def imports (ps : List Piece) : List (String × Pos × String) :=
  (ps.flatMap (·.imports)).foldl (fun seen i =>
    if seen.any (·.2.2 == i.2.2) then seen else seen ++ [i]) []

/-- What became of an import. -/
inductive Import
  | exports (names : List String)
  | unknown
  | failed (ds : List Diagnostic)
deriving Repr

/-- What is said about an import. One that fails without a word is unknown. -/
def importDiagnostics (source : String) (pos : Pos) (mod : String) : Import → List Diagnostic
  | .exports _ => []
  | .unknown | .failed [] => [⟨source, pos, .unknownModule mod⟩]
  | .failed ds => ds

/-- The names that a program sees: builtin functions, what its imports export, and its own. -/
def visible (ps : List Piece) (imported : Table Import) : Visible where
  plain := (definitions ps).map (·.binding.name) ++
    imported.flatMap (fun (_, i) => match i with
      | .exports names => names
      | _ => []) ++ Builtin.all.map (·.name)
  exports := imported.map fun (mod, i) => (mod, match i with
    | .exports names => some names
    | _ => none)

/-- What is said about the names in the definitions. -/
def scopeDiagnostics (ps : List Piece) (vis : Visible) : List Diagnostic :=
  (definitions ps).flatMap fun d =>
    (d.binding.body.check vis (Expr.paramNames d.binding.params)).map
      fun (pos, c) => ⟨d.source, pos, c⟩

/-- Checks the pieces as one module, given what became of its imports. -/
def check (name : String) (ps : List Piece) (imported : Table Import) :
    Except (List Diagnostic) ModuleCode :=
  let ds := ps.flatMap (·.diagnostics) ++
    (imports ps).flatMap (fun (source, pos, mod) =>
      importDiagnostics source pos mod ((imported.get? mod).getD .unknown)) ++
    scopeDiagnostics ps (visible ps imported)
  if ds.isEmpty then
    .ok { name
          imports := (imports ps).map (·.2.2)
          defs := definitions ps }
  else .error (Diagnostic.sort (ps.map (·.source)) ds)

end Program

end LazySession
