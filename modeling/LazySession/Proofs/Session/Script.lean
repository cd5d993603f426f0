import LazySession.Proofs.Session.Injection

/-!
# The module of an expression

In a session with nothing but bindings, an expression becomes a module that imports the prelude and
defines every bound name by reading its cell: `Session.isScript_check`.
-/

namespace LazySession

namespace Template

/-- The name and the type can be written down, in the prelude and in the definitions. -/
structure Legible (x : String × String) : Prop where
  declarable : Declarable x
  unbroken : Unbroken x.2
  ident : TokenKind.ofWord x.1 = .ident
  known : ∀ type, TypeExpr.ofText? x.2 = some type → type.check = []

/-- The types of cells have passed the checks. -/
theorem DeclaresCells.check {xs : List (String × String)} {decls : List Decl}
    (h : DeclaresCells xs decls) {source : String}
    (hd : (⟨source, decls⟩ : Piece).diagnostics = []) :
    ∀ x ∈ xs, ∀ type, TypeExpr.ofText? x.2 = some type → type.check = [] := by
  have step : ∀ {xs : List (String × String)} {decls : List Decl}, DeclaresCells xs decls →
      ∀ sigs bound, Piece.remarksFrom sigs bound decls = [] →
      ∀ x ∈ xs, ∀ type, TypeExpr.ofText? x.2 = some type → type.check = [] := by
    intro xs decls h
    induction h with
    | nil => nofun
    | cons htype hx _ ih =>
      intro sigs bound hr x hm type ht
      obtain ⟨⟨p, q, type', halike, rfl⟩, p₁, p₂, p₃, rfl⟩ := hx
      simp only [Piece.remarksFrom, Piece.remark, List.append_eq_nil_iff] at hr
      rcases List.mem_cons.mp hm with rfl | hm
      · rw [htype] at ht
        cases ht
        rw [halike.check]
        have hcheck := hr.1.1
        simp only [TypeExpr.check, TypeExpr.checkAll, List.append_eq_nil_iff] at hcheck
        exact hcheck.2.1
      · exact ih _ _ hr.2.2 x hm type ht
  simp only [Piece.diagnostics, List.map_eq_nil_iff, List.append_eq_nil_iff] at hd
  exact step h [] [] hd.1

/-- The piece that the definitions of a bound name are read as. -/
def DefinesName (x : String × String) (p : Piece) : Prop :=
  ∃ type sig bind, TypeExpr.ofText? x.2 = some type ∧ DeclaresName x.1 type sig bind ∧
    p.decls = [sig, bind]

/-- What a piece that defines a bound name comes to. -/
theorem DefinesName.piece {x : String × String} {p : Piece} (h : DefinesName x p)
    (hx : ∀ type, TypeExpr.ofText? x.2 = some type → type.check = []) :
    p.diagnostics = [] ∧ p.imports = [] ∧ ∃ q₁ q₂ q₃ type, TypeExpr.ofText? x.2 = some type ∧
      p.definitions = [⟨reading x.1 (x.1 ++ "Ref") q₁ q₂ q₃, p.source, type.base?⟩] := by
  obtain ⟨type, _, _, ht, ⟨⟨q, type', halike, rfl⟩, q₁, q₂, q₃, rfl⟩, hd⟩ := h
  have hcheck := halike.check.mp (hx type ht)
  have hbindings : p.bindings = [reading x.1 (x.1 ++ "Ref") q₁ q₂ q₃] := by
    simp only [Piece.bindings, hd, List.filterMap_cons, Decl.binding?, List.filterMap_nil]
  have hsigs : p.signatures = [(x.1, q, type')] := by
    simp [Piece.signatures, hd, Table.has, Table.get?, Table.put]
  refine ⟨?_, by simp [Piece.imports, hd], q₁, q₂, q₃, type, ht, ?_⟩
  · simp [Piece.diagnostics, Piece.remarksFrom, Piece.remark, Piece.remark.duplicates,
      Piece.unboundSignatures, hsigs, hbindings, hd, hcheck, reading]
  · simp [Piece.definitions, hsigs, hbindings, reading, Table.get?, halike.base?]

end Template

namespace Session

open Interpreter Template

theorem IsPrelude.legible {xs : List (String × String)} {c : ModuleCode}
    (h : IsPrelude (preludeText xs) c) (hxs : ∀ x ∈ xs, Declarable x)
    (hk : ∀ x ∈ xs, TokenKind.ofWord x.1 = .ident) : ∀ x ∈ xs, Legible x := by
  obtain ⟨pos, decls, imported, hread, hcheck⟩ := h
  obtain ⟨hunbroken, pos', decls', hm, hcells⟩ := read_prelude hxs hread
  obtain rfl : decls = decls' := by
    have := Fragment.module.inj hm
    simp only [Module.mk.injEq] at this
    exact this.2.2
  have hknown := hcells.check (Program.diagnostics_of_check hcheck _ (List.mem_singleton_self _))
  exact fun x hx => ⟨hxs x hx, hunbroken x hx, hk x hx, hknown x hx⟩

variable {xs : List (String × String)} {ps : List Piece}

theorem pieces_configs (hxs : ∀ x ∈ xs, Legible x) : ∀ n, ∃ ps,
    pieces n (xs.map configText) = (ps, []) ∧ List.Forall₂ DefinesName xs ps := by
  induction xs with
  | nil => exact fun n => ⟨[], rfl, .nil⟩
  | cons x xs ih =>
    intro n
    obtain ⟨ps, hps, hall⟩ := ih (fun y hy => hxs y (List.mem_cons_of_mem _ hy)) (n + 1)
    have hx := hxs x List.mem_cons_self
    obtain ⟨type, ht⟩ := hx.declarable.type
    obtain ⟨sig, bind, hread, hd⟩ :=
      read_config hx.declarable.name hx.ident ht hx.unbroken (definitionSource n)
    refine ⟨⟨definitionSource n, [sig, bind]⟩ :: ps, ?_, .cons ⟨type, sig, bind, ht, hd, rfl⟩ hall⟩
    rw [List.map_cons, pieces, hread, hps]

/-- The piece that imports the prelude. -/
def importPiece : Piece := ⟨definitionSource 0, [.importing ⟨2, 1⟩ preludeName]⟩

/-- The piece that an expression becomes. -/
def resultPiece (e : Expr) : Piece := ⟨fragmentSource, [.binding (resultBinding e)]⟩

theorem pieces_program (hxs : ∀ x ∈ xs, Legible x) : ∃ ps,
    pieces 0 ((Template.generator {}).preludeImport :: xs.map configText) = (importPiece :: ps, []) ∧
      List.Forall₂ DefinesName xs ps := by
  obtain ⟨ps, hps, hall⟩ := pieces_configs hxs 1
  refine ⟨ps, ?_, hall⟩
  rw [pieces, read_import, hps]
  rfl

/-- The module reads every bound name from its cell, and has an expression besides. -/
structure IsScript (xs : List (String × String)) (e : Expr) (c : ModuleCode) : Prop where
  imports : c.imports = [preludeName]
  exports : c.exports = xs.map (·.1) ++ [resultField]
  defs : ∀ d ∈ c.defs, d.binding.params = [] ∧ d.binding.strict = false ∧
    ((∃ x ∈ xs, ∃ p q type, TypeExpr.ofText? x.2 = some type ∧ d.binding.name = x.1 ∧
        d.binding.body = .readsCell p q (x.1 ++ "Ref") ∧ d.want = type.base?) ∨
      d.binding.name = resultField ∧ d.binding.body = e ∧ d.want = none)

/-- What the pieces of bound names come to. -/
theorem definitions_names (hps : List.Forall₂ DefinesName xs ps) (hxs : ∀ x ∈ xs, Legible x) :
    (∀ p ∈ ps, p.diagnostics = [] ∧ p.imports = []) ∧
      (ps.flatMap (·.definitions)).map (·.binding.name) = xs.map (·.1) ∧
      ∀ d ∈ ps.flatMap (·.definitions), ∃ x ∈ xs, ∃ p q r source type,
        TypeExpr.ofText? x.2 = some type ∧
          d = ⟨reading x.1 (x.1 ++ "Ref") p q r, source, type.base?⟩ := by
  induction hps with
  | nil => exact ⟨nofun, rfl, nofun⟩
  | @cons x p xs ps hp _ ih =>
    obtain ⟨hds, hnames, hdefs⟩ := ih fun y hy => hxs y (List.mem_cons_of_mem _ hy)
    obtain ⟨hd, hi, q₁, q₂, q₃, type, ht, hdef⟩ := hp.piece (hxs x List.mem_cons_self).known
    refine ⟨?_, ?_, ?_⟩
    · intro p' hp'
      rcases List.mem_cons.mp hp' with rfl | hp'
      · exact ⟨hd, hi⟩
      · exact hds p' hp'
    · rw [List.flatMap_cons, List.map_append, hnames, hdef]
      rfl
    · intro d hd'
      rw [List.flatMap_cons, hdef, List.singleton_append, List.mem_cons] at hd'
      rcases hd' with rfl | hd'
      · exact ⟨x, List.mem_cons_self, q₁, q₂, q₃, _, type, ht, rfl⟩
      · obtain ⟨y, hy, hd'⟩ := hdefs d hd'
        exact ⟨y, List.mem_cons_of_mem _ hy, hd'⟩

/-- The pieces of an expression behind the definitions in `ps`. -/
def scriptPieces (ps : List Piece) (e : Expr) : List Piece := importPiece :: ps ++ [resultPiece e]

theorem imports_scriptPieces (hps : ∀ p ∈ ps, p.imports = []) (e : Expr) :
    Program.imports (scriptPieces ps e) = [(definitionSource 0, ⟨2, 1⟩, preludeName)] := by
  have hnone : ps.flatMap (·.imports) = [] := List.flatMap_eq_nil_iff.mpr hps
  rw [Program.imports, scriptPieces, List.cons_append, List.flatMap_cons, List.flatMap_append, hnone]
  rfl

theorem definitions_scriptPieces
    (hnames : (ps.flatMap (·.definitions)).map (·.binding.name) = xs.map (·.1))
    (hn : (xs.map (·.1)).Nodup) (hres : resultField ∉ xs.map (·.1)) (e : Expr) :
    Program.definitions (scriptPieces ps e) =
      ps.flatMap (·.definitions) ++ [⟨resultBinding e, fragmentSource, none⟩] := by
  have hall : (scriptPieces ps e).flatMap (·.definitions) =
      ps.flatMap (·.definitions) ++ [⟨resultBinding e, fragmentSource, none⟩] := by
    rw [scriptPieces, List.cons_append, List.flatMap_cons, List.flatMap_append]
    rfl
  rw [Program.definitions_of_nodup, hall]
  rw [hall, List.map_append, hnames, List.nodup_append]
  refine ⟨hn, by simp, fun y hy z hz he => hres ?_⟩
  obtain rfl : z = resultField := List.mem_singleton.mp hz
  exact he ▸ hy

/-- A bound name, behind the definitions of all bound names, passes the checks. -/
theorem isScript_check (hps : List.Forall₂ DefinesName xs ps) (hxs : ∀ x ∈ xs, Legible x)
    (hn : (xs.map (·.1)).Nodup) (hres : resultField ∉ xs.map (·.1))
    {code? : String → Option ModuleCode} {prelude : ModuleCode}
    (hcode : code? preludeName = some prelude) (hexp : prelude.exports = xs.map (·.1 ++ "Ref"))
    (name : String) {x : String} (hx : x ∈ xs.map (·.1)) (pos : Pos) :
    ∃ c, Program.check name (scriptPieces ps (.var pos x))
        (Program.importsAmong code? (scriptPieces ps (.var pos x))) = .ok c ∧
      c.name = name ∧ IsScript xs (.var pos x) c := by
  obtain ⟨hpieces, hnames, hdefs⟩ := definitions_names hps hxs
  have himports := imports_scriptPieces (fun p hp => (hpieces p hp).2) (.var pos x)
  have hdefinitions := definitions_scriptPieces hnames hn hres (.var pos x)
  have himported : Program.importsAmong code? (scriptPieces ps (.var pos x)) =
      [(preludeName, .exports (xs.map (·.1 ++ "Ref")))] := by
    rw [Program.importsAmong, himports]
    simp [Program.importOf, hcode, hexp]
  have hexports : (Program.definitions (scriptPieces ps (.var pos x))).map (·.binding.name) =
      xs.map (·.1) ++ [resultField] := by
    rw [hdefinitions, List.map_append, hnames]
    rfl
  -- a definition reads a cell, or is the result
  have hdef : ∀ d ∈ Program.definitions (scriptPieces ps (.var pos x)),
      (∃ x ∈ xs, ∃ p q r source type, TypeExpr.ofText? x.2 = some type ∧
        d = ⟨reading x.1 (x.1 ++ "Ref") p q r, source, type.base?⟩) ∨
      d = ⟨resultBinding (.var pos x), fragmentSource, none⟩ := by
    intro d hd
    rw [hdefinitions, List.mem_append, List.mem_singleton] at hd
    exact hd.imp_left (hdefs d)
  have hdiagnostics : ∀ p ∈ scriptPieces ps (.var pos x), p.diagnostics = [] := by
    intro p hp
    rw [scriptPieces, List.cons_append, List.mem_cons, List.mem_append, List.mem_singleton] at hp
    rcases hp with rfl | hp | rfl
    · rfl
    · exact (hpieces p hp).1
    · rfl
  rw [himported]
  generalize scriptPieces ps (.var pos x) = program at *
  refine ⟨_, Program.check_eq_ok hdiagnostics ?_ ?_, rfl, ⟨?_, hexports, ?_⟩⟩
  · intro i hi
    rw [himports, List.mem_singleton] at hi
    subst hi
    simp [Table.get?, Program.importDiagnostics]
  · intro d hd
    rcases hdef d hd with ⟨y, hy, p, q, r, source, type, ht, rfl⟩ | rfl
    -- the name of the cell is one that the prelude exports
    · have hcell : y.1 ++ "Ref" ∈ xs.map (·.1 ++ "Ref") := List.mem_map.mpr ⟨y, hy, rfl⟩
      simp only [reading, Expr.check, Expr.checkAll, Visible.checkVar]
      simp [Program.visible, hcell, Builtin.all, Builtin.name]
    · have hown : x ∈ (Program.definitions program).map (·.binding.name) := by
        rw [hexports]
        exact List.mem_append_left _ hx
      simp only [resultBinding, Expr.check, Visible.checkVar]
      simp [Program.visible, hown]
  · simp [himports]
  · intro d hd
    rcases hdef d hd with ⟨y, hy, p, q, r, source, type, ht, rfl⟩ | rfl
    · exact ⟨rfl, rfl, .inl ⟨y, hy, q, r, type, ht, rfl, rfl, rfl⟩⟩
    · exact ⟨rfl, rfl, .inr ⟨rfl, rfl, rfl⟩⟩

end Session

/-! ## Linking it -/

namespace Loader

variable {set : Setting} {l : Loader} {w : World}

theorem run_evalStrict_lazy (mod : String) (fields : Table Value) (steps : Nat)
    {ds : List Definition} (h : ∀ d ∈ ds, d.binding.strict = false) (w : World) :
    (evalStrict set mod fields steps ds).run w = (.ok (), w) := by
  induction ds with
  | nil => rfl
  | cons d ds ih =>
    unfold evalStrict
    rw [if_neg (by simp [h d List.mem_cons_self])]
    exact ih fun e he => h e (List.mem_cons_of_mem _ he)

theorem run_link_linked (set : Setting) {name : String} {inst : Instance}
    (h : l.instance? w name = some inst) {visiting : List String} (hv : name ∉ visiting)
    (fuel : Nat) :
    ∃ i, w.instances[i]? = some inst ∧
      (link set l (fuel + 1) visiting name).run w = (.ok i, w) := by
  obtain ⟨id, e, i, hid, he, hi, hinst⟩ := instance?_eq_some.mp h
  refine ⟨i, hinst, ?_⟩
  unfold link
  simp only [Act.run_bind, Act.run_get, hid, he, Option.bind_some, Option.map_some]
  rw [if_neg (by simpa using hv), hi]
  rfl

/-- A module that has one import, linked before, and no strict definitions is linked by making its
definitions. -/
theorem run_link_lazy (set : Setting) {name dep : String} {id : EntryId} {e : Entry}
    {inst : Instance} (hid : l.modules.get? name = some id) (he : w.entries[id]? = some e) (hn : e.linked = none)
    (himports : e.code.imports = [dep]) (hdep : l.instance? w dep = some inst) (hne : dep ≠ name)
    (hlazy : ∀ d ∈ e.code.defs, d.binding.strict = false) (fuel : Nat) :
    ∃ fields h', Defined (newModuleScope w.heap).1 e.code.defs fields
        (importFields (newModuleScope w.heap).1 e.code.exports dep inst.fields
          (newModuleScope w.heap).2) h' ∧
      (link set l (fuel + 2) [] name).run w = (.ok w.instances.size,
        setInstance { w with heap := h' } id ⟨name, fields⟩) := by
  generalize hscope : (newModuleScope w.heap).1 = scope
  generalize hh : importFields scope e.code.exports dep inst.fields (newModuleScope w.heap).2 = h
  refine ⟨_, _, defined_defineAll _ _ _, ?_⟩
  have hdep' : l.instance? { w with heap := (newModuleScope w.heap).2 } dep = some inst := hdep
  have hv : dep ∉ [name] := by simpa using hne
  obtain ⟨i, hinst, hlink⟩ := run_link_linked set hdep' hv fuel
  have hrun : (linkImports (link set l (fuel + 1) [name]) name scope e.code.exports
      e.code.imports).run { w with heap := (newModuleScope w.heap).2 } =
      (.ok (), { w with heap := h }) := by
    have hduring : ((link set l (fuel + 1) [name] dep).during (.linking name)).run
        { w with heap := (newModuleScope w.heap).2 } =
          (.ok i, { w with heap := (newModuleScope w.heap).2 }) := by
      rw [Act.run_during, hlink]
      rfl
    rw [himports, linkImports, Act.run_bind, hduring]
    simp only [Act.run_bind, Act.run_get, Act.run_set, hinst, Option.map_some, Option.getD_some, hh]
    rfl
  unfold link
  simp only [Act.run_bind, Act.run_get, hid, he, Option.bind_some, Option.map_some]
  rw [if_neg (by simp), hn]
  simp only [makeInstance_eq, Act.run_bind, Act.run_get, Act.run_set, List.nil_append, hscope, hrun,
    run_evalStrict_lazy _ _ _ hlazy]
  rfl

theorem get?_importNames_plain {own : List String} {imported y : String} {fields : Table Value}
    (hn : fields.names.Nodup) (hy : ∀ f, y ≠ imported ++ "." ++ f) :
    (importNames own imported fields []).get? y = if y ∈ own then none else fields.get? y := by
  have hfield : ∀ v, (importNames own imported fields []).get? y = some v →
      y ∉ own ∧ fields.get? y = some v := by
    intro v hv
    rcases mem_importNames hv with hv | ⟨f, hf, he | ⟨rfl, hown⟩⟩
    · cases hv
    · exact absurd he (hy f)
    · exact ⟨hown, Table.get?_of_mem hn hf⟩
  split
  · rename_i hown
    exact Option.eq_none_iff_forall_ne_some.mpr fun v hv => (hfield v hv).1 hown
  · rename_i hown
    cases hv : fields.get? y with
    | none =>
      refine Option.eq_none_iff_forall_ne_some.mpr fun v hv' => ?_
      rw [(hfield v hv').2] at hv
      cases hv
    | some v =>
      have hsome : ((importNames own imported fields []).get? y).isSome :=
        isSome_importNames (.inr ⟨y, Table.get?_isSome.mp (by simp [hv]), .inr ⟨rfl, hown⟩⟩)
      obtain ⟨u, hu⟩ := Option.isSome_iff_exists.mp hsome
      rw [hu, ← (hfield u hu).2, hv]

/-- The names of a module with one import: its own, those of the import, and the builtin ones. -/
theorem lookup_defined {h h' : Heap} {code : ModuleCode} {dep : String} {imported fields : Table Value}
    (hd : Defined (newModuleScope h).1 code.defs fields
      (importFields (newModuleScope h).1 code.exports dep imported (newModuleScope h).2) h')
    (y : String) :
    h'.lookup (newModuleScope h).1 y =
      ((fields.get? y).or ((importNames code.exports dep imported []).get? y)).or
        (builtins.get? y) := by
  have hlt : h.scopes.size < (newModuleScope h).1 := by
    rw [newModuleScope_fst]
    exact Nat.lt_succ_self _
  have hne : h.scopes.size ∉ [(newModuleScope h).1] := by simpa using Nat.ne_of_lt hlt
  have hroot := hd.fills.scopes _ _ hne ((fills_importFields _ code.exports dep imported _).scopes
    _ _ hne (root_newModuleScope h))
  obtain ⟨vars, hvars, hget⟩ := hd.scope _ _
    (scope_importFields code.exports dep imported (scope_newModuleScope h))
  rw [lookup_module hlt hroot hvars, hget]

end Loader

end LazySession
