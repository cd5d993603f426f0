import LazySession.World

/-!
# Loaders

A loader is a set of compiled modules by name. It never changes: a loader with further modules is a
new one that shares the entries of all modules that the new ones do not reach.
-/

namespace LazySession

structure Loader where
  modules : Table EntryId
deriving DecidableEq, Repr

namespace Loader

def empty : Loader := ⟨[]⟩

def names (l : Loader) : List String := l.modules.sortedNames

/-- The code of a module. -/
def code? (l : Loader) (w : World) (name : String) : Option ModuleCode :=
  (l.modules.get? name).bind fun id => w.entries[id]?.map (·.code)

/-! ## Adding modules -/

/-- The names in `names` and those of the modules that import one of them. -/
def spread (codes : List ModuleCode) (names : List String) : List String :=
  codes.foldl (fun names c =>
    if !names.contains c.name && c.imports.any names.contains then names ++ [c.name] else names)
    names

/-- The names in `names` and those of all modules that import one of them, directly or not. Every
round but the last adds a module. -/
def reach (codes : List ModuleCode) : (rounds : Nat) → (names : List String) → List String
  | 0, names => names
  | rounds + 1, names => reach codes rounds (spread codes names)

/-- Gives a module a fresh entry. -/
def refresh (lw : Loader × World) (code : ModuleCode) : Loader × World :=
  let (l, w) := lw
  (⟨l.modules.put code.name w.entries.size⟩,
    { w with entries := w.entries.push { code, linked := none } })

/-- The loader with further modules in place of those of the same names. Modules that import one of
them, directly or not, get fresh entries too, so that they are linked against the new ones. -/
def extend (l : Loader) (mods : List ModuleCode) (w : World) : Loader × World :=
  if mods.isEmpty then (l, w)
  else
    let (l, w) := mods.foldl refresh (l, w)
    let codes := l.modules.filterMap fun (_, id) => w.entries[id]?.map (·.code)
    let fresh := mods.map (·.name)
    let stale := (reach codes codes.length fresh).filter (!fresh.contains ·)
    (codes.filter (stale.contains ·.name)).foldl refresh (l, w)

/-! ## Linking -/

/-- The scope of a module and what its imports put there: every field with the name of the module
before it, and without unless the module defines the name itself. -/
def importFields (scope : ScopeId) (own : List String) (imported : String) (fields : Table Value)
    (h : Heap) : Heap :=
  fields.foldl (fun h (name, v) =>
    let h := h.setVar scope (imported ++ "." ++ name) v
    if own.contains name then h else h.setVar scope name v) h

/-- Makes the definitions of a module in its scope. -/
def defineAll (scope : ScopeId) (defs : List Definition) (h : Heap) : Table Value × Heap :=
  defs.foldl (fun (fields, h) d =>
    let (v, h) := h.newBinding d.binding scope d.source d.want
    (fields.put d.binding.name v, h.setVar scope d.binding.name v)) ([], h)

/-- Evaluates the strict definitions, `steps` having been done before. -/
def evalStrict (setting : Setting) (mod : String) (fields : Table Value) :
    (steps : Nat) → List Definition → Act Unit
  | _, [] => return ()
  | steps, d :: ds =>
    if d.binding.strict then do
      let v := (fields.get? d.binding.name).getD .unit
      let (_, steps) ← (Act.evaluate steps (EvalState.force setting · v)).during
        (.initializing mod d.binding.name)
      evalStrict setting mod fields steps ds
    else evalStrict setting mod fields steps ds

/-- Links the imports of module `mod` one after the other, each by `linkOne`. -/
def linkImports (linkOne : String → Act InstanceId) (mod : String) (scope : ScopeId)
    (own : List String) : (imports : List String) → Act Unit
  | [] => return ()
  | i :: is => do
    let inst ← (linkOne i).during (.linking mod)
    let w ← get
    let fields := (w.instances[inst]?.map (·.fields)).getD []
    set { w with heap := importFields scope own i fields w.heap }
    linkImports linkOne mod scope own is

/-- Makes the instance of a module whose imports are linked by `linkOne`. -/
def makeInstance (setting : Setting) (linkOne : String → Act InstanceId) (id : EntryId)
    (name : String) (code : ModuleCode) : Act InstanceId := do
  let w ← get
  let (root, heap) := w.heap.newRoot
  let (scope, heap) := heap.newScope [] (some root)
  set { w with heap }
  linkImports linkOne name scope code.exports code.imports
  let w ← get
  let (fields, heap) := defineAll scope code.defs w.heap
  set { w with heap }
  evalStrict setting name fields 0 code.defs
  let w ← get
  let inst := w.instances.size
  set { w with
    instances := w.instances.push { name, fields }
    entries := w.entries.modify id fun e => { e with linked := some inst } }
  return inst

/-- Links a module and, before it, the modules that it imports. `visiting` are the modules whose
imports are being linked, outermost first. As none of them is there twice, the number of modules
bounds how deep linking goes. -/
def link (setting : Setting) (l : Loader) :
    (fuel : Nat) → (visiting : List String) → (name : String) → Act InstanceId
  | 0, visiting, name => throw (.importCycle (visiting ++ [name]))
  | fuel + 1, visiting, name => do
    let w ← get
    match (l.modules.get? name).bind fun id => (w.entries[id]?).map (id, ·) with
    | none => throw (.notLoaded name)
    | some (id, entry) =>
      if visiting.contains name then throw (.importCycle (visiting ++ [name]))
      else match entry.linked with
        | some inst => return inst
        | none => makeInstance setting (link setting l fuel (visiting ++ [name])) id name entry.code

/-- Links a module and gives its instance. -/
def load (setting : Setting) (l : Loader) (name : String) : Act InstanceId := do
  Act.inquire
  link setting l (l.modules.length + 1) [] name

end Loader

/-! ## Fields -/

namespace Instance

/-- Evaluates a field and hands its value to the host. -/
def read (setting : Setting) (i : Instance) (field : String) : Act HostValue := do
  Act.inquire
  match i.fields.get? field with
  | none => throw (.noField i.name field)
  | some v =>
    let (v, _) ← Act.evaluate 0 (EvalState.force setting · v)
    return (← get).heap.toHost v

/-- The cell that a field holds, if the field has been evaluated to one. -/
def cell? (h : Heap) (v : Value) : Option CellId :=
  match v with
  | .thunk id => match h.thunkValue? id with
    | some (.cell c) => some c
    | _ => none
  | _ => none

/-- Stores a host value in the cell that a field holds. -/
def write (i : Instance) (field : String) (value : HostValue) : Act Unit := do
  match i.fields.get? field with
  | none => throw (.noField i.name field)
  | some v =>
    let w ← get
    match cell? w.heap v with
    | some c => set { w with heap := w.heap.setCell c value.toValue }
    | none => throw (.notCell i.name field)

end Instance

end LazySession
