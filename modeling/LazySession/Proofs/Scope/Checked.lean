import LazySession.Check.Program
import LazySession.Proofs.Scope.Scoped
import LazySession.Proofs.Table

/-!
# Modules that pass the checks

`ModuleCode.Passes`: a module is what the checks make of some declarations, given what the modules
it imports export. `ModuleCode.Passes.scoped`: its definitions have only variables that they bind,
that the module defines, that its imports export, or that every module starts with.
-/

namespace LazySession

/-- No variable is called `()`. This is so in everything that can be written. -/
def Decl.Tidy : Decl → Prop
  | .binding b => b.body.Scoped (· ≠ "()")
  | _ => True

def Piece.Tidy (p : Piece) : Prop := ∀ d ∈ p.decls, d.Tidy

/-! ## The definitions of a program -/

theorem Piece.mem_signatures {p : Piece} {n : String} {pos : Pos} {type : TypeExpr}
    (h : (n, pos, type) ∈ p.signatures) :
    ∃ names, n ∈ names ∧ .signature pos names type ∈ p.decls := by
  have inner : ∀ (pos' : Pos) (type' : TypeExpr) (ns : List String) (sigs : Table (Pos × TypeExpr)),
      (n, pos, type) ∈ ns.foldl (fun sigs n => if sigs.has n then sigs else sigs.put n (pos', type'))
        sigs → (n, pos, type) ∈ sigs ∨ (n ∈ ns ∧ pos = pos' ∧ type = type') := by
    intro pos' type' ns
    induction ns with
    | nil => exact fun sigs h => .inl h
    | cons m ns ih =>
      intro sigs h
      rcases ih _ h with h | h
      · simp only at h
        split at h
        · exact .inl h
        · rename_i hm
          rw [Table.put_of_not_has (by simpa using hm), List.mem_append, List.mem_singleton] at h
          exact h.imp_right fun he => by cases he; exact ⟨List.mem_cons_self, rfl, rfl⟩
      · exact .inr ⟨List.mem_cons_of_mem _ h.1, h.2⟩
  have hnil : (n, pos, type) ∈ ([] : Table (Pos × TypeExpr)) →
      ∃ names, n ∈ names ∧ .signature pos names type ∈ p.decls := by
    rintro ⟨⟩
  revert h
  refine List.foldlRecOn (motive := fun sigs => (n, pos, type) ∈ sigs →
    ∃ names, n ∈ names ∧ .signature pos names type ∈ p.decls) _ _ hnil ?_
  intro sigs ih d hd h
  cases d with
  | signature pos' names type' =>
    rcases inner pos' type' names sigs h with h | ⟨hn, rfl, rfl⟩
    · exact ih h
    · exact ⟨names, hn, hd⟩
  | _ => exact ih h

namespace Program

theorem mem_addDefinition {ds : List Definition} {d e : Definition} (h : e ∈ addDefinition ds d) :
    e ∈ ds ∨ e = d := by
  rcases List.mem_append.mp h with h | h
  · exact .inl (List.mem_filter.mp h).1
  · exact .inr (List.mem_singleton.mp h)

theorem mem_definitions {ps : List Piece} {d : Definition} (h : d ∈ definitions ps) :
    ∃ p ∈ ps, d ∈ p.definitions := by
  have step : ∀ (ds done : List Definition), d ∈ ds.foldl addDefinition done → d ∈ done ∨ d ∈ ds := by
    intro ds
    induction ds with
    | nil => exact fun done h => .inl h
    | cons e ds ih =>
      intro done h
      rcases ih _ h with h | h
      · rcases mem_addDefinition h with h | rfl
        · exact .inl h
        · exact .inr List.mem_cons_self
      · exact .inr (List.mem_cons_of_mem _ h)
  rcases step _ _ h with h | h
  · cases h
  · exact List.mem_flatMap.mp h

theorem tidy_of_mem {ps : List Piece} (ht : ∀ p ∈ ps, p.Tidy) {d : Definition}
    (h : d ∈ definitions ps) : d.binding.body.Scoped (· ≠ "()") := by
  obtain ⟨p, hp, hd⟩ := mem_definitions h
  obtain ⟨b, hb, rfl⟩ := List.mem_map.mp hd
  obtain ⟨decl, hdecl, he⟩ := List.mem_filterMap.mp hb
  cases decl with
  | binding b' => cases he; exact ht p hp _ hdecl
  | _ => cases he

theorem definitions_of_nodup {ps : List Piece}
    (h : ((ps.flatMap (·.definitions)).map (·.binding.name)).Nodup) :
    definitions ps = ps.flatMap (·.definitions) := by
  have step : ∀ ds done : List Definition, ((done ++ ds).map (·.binding.name)).Nodup →
      ds.foldl addDefinition done = done ++ ds := by
    intro ds
    induction ds with
    | nil => simp
    | cons d ds ih =>
      intro done hn
      have hd : addDefinition done d = done ++ [d] := by
        unfold addDefinition
        rw [List.filter_eq_self.mpr]
        intro e he
        rw [List.map_append, List.nodup_append] at hn
        exact decide_eq_true (hn.2.2 _ (List.mem_map_of_mem he) _ (by simp))
      rw [List.append_cons] at hn
      rw [List.foldl_cons, hd, ih _ hn, ← List.append_cons]
  exact step _ [] h

/-! ## Imports -/

/-- What an import comes to among modules that have been compiled. -/
def importOf (code? : String → Option ModuleCode) (mod : String) : Import :=
  match code? mod with
  | some c => .exports c.exports
  | none => .unknown

/-- What becomes of the imports of a program among modules that have been compiled. -/
def importsAmong (code? : String → Option ModuleCode) (ps : List Piece) : Table Import :=
  (imports ps).map fun (_, _, mod) => (mod, importOf code? mod)

section
variable {code? : String → Option ModuleCode} {ps : List Piece} {name mod : String}
variable {imported : Table Import} {i : Import} {c : ModuleCode}

theorem check_ok (h : check name ps imported = .ok c) :
    c = ⟨name, (imports ps).map (·.2.2), definitions ps⟩ ∧
      (∀ p ∈ imports ps, importDiagnostics p.1 p.2.1 p.2.2 ((imported.get? p.2.2).getD .unknown) =
        []) ∧
      ∀ d ∈ definitions ps,
        d.binding.body.check (visible ps imported) (Expr.paramNames d.binding.params) = [] := by
  unfold check at h
  simp only at h
  split at h
  · rename_i hds
    simp only [List.isEmpty_iff, List.append_eq_nil_iff, List.flatMap_eq_nil_iff,
      scopeDiagnostics, List.map_eq_nil_iff] at hds
    cases h
    exact ⟨rfl, hds.1.2, hds.2⟩
  · cases h

/-- A program of which nothing is said passes. -/
theorem check_eq_ok (hp : ∀ p ∈ ps, p.diagnostics = [])
    (hi : ∀ i ∈ imports ps,
      importDiagnostics i.1 i.2.1 i.2.2 ((imported.get? i.2.2).getD .unknown) = [])
    (hs : ∀ d ∈ definitions ps,
      d.binding.body.check (visible ps imported) (Expr.paramNames d.binding.params) = []) :
    check name ps imported = .ok ⟨name, (imports ps).map (·.2.2), definitions ps⟩ := by
  unfold check
  rw [if_pos]
  simp only [List.isEmpty_iff, List.append_eq_nil_iff, List.flatMap_eq_nil_iff, scopeDiagnostics,
    List.map_eq_nil_iff]
  exact ⟨⟨hp, hi⟩, hs⟩

theorem diagnostics_of_check (h : check name ps imported = .ok c) : ∀ p ∈ ps, p.diagnostics = [] := by
  unfold check at h
  simp only at h
  split at h
  · rename_i hds
    simp only [List.isEmpty_iff, List.append_eq_nil_iff, List.flatMap_eq_nil_iff] at hds
    exact hds.1.1
  · cases h

theorem mem_importsAmong (h : (mod, i) ∈ importsAmong code? ps) :
    mod ∈ (imports ps).map (·.2.2) ∧ i = importOf code? mod := by
  obtain ⟨p, hp, he⟩ := List.mem_map.mp h
  cases he
  exact ⟨List.mem_map_of_mem hp, rfl⟩

theorem get?_importsAmong (h : mod ∈ (imports ps).map (·.2.2)) :
    (importsAmong code? ps).get? mod = some (importOf code? mod) := by
  unfold importsAmong
  generalize imports ps = is at h
  induction is with
  | nil => cases h
  | cons p is ih =>
    obtain ⟨source, pos, m⟩ := p
    simp only [List.map_cons, Table.get?]
    split
    · simp_all
    · exact ih ((List.mem_cons.mp h).resolve_left fun he => by simp_all)

end

end Program

/-! ## Modules -/

namespace ModuleCode

/-- The module is what the checks make of some pieces, given what the modules that it imports
export. -/
def Passes (code? : String → Option ModuleCode) (c : ModuleCode) : Prop :=
  ∃ ps, (∀ p ∈ ps, p.Tidy) ∧ Program.check c.name ps (Program.importsAmong code? ps) = .ok c

/-- The module sees the name: it defines it, an import exports it, or every module has it. -/
def Sees (code? : String → Option ModuleCode) (c : ModuleCode) (x : String) : Prop :=
  x ∈ c.exports ∨ (∃ i ∈ c.imports, ∃ d, code? i = some d ∧ ∃ y ∈ d.exports,
    x = i ++ "." ++ y ∨ x = y) ∨ x ∈ Builtin.all.map (·.name)

variable {code? : String → Option ModuleCode} {c : ModuleCode}

theorem Passes.imports (h : c.Passes code?) {i : String} (hi : i ∈ c.imports) :
    ∃ d, code? i = some d := by
  obtain ⟨ps, _, hc⟩ := h
  obtain ⟨he, hd, _⟩ := Program.check_ok hc
  rw [he] at hi
  obtain ⟨p, hp, rfl⟩ := List.mem_map.mp hi
  have := hd p hp
  rw [Program.get?_importsAmong hi, Option.getD_some, Program.importOf] at this
  cases hcode : code? p.2.2 with
  | some d => exact ⟨d, rfl⟩
  | none => rw [hcode] at this; cases this

theorem sees_of_knows {ps : List Piece} (hc : c = ⟨c.name, (Program.imports ps).map (·.2.2),
    Program.definitions ps⟩) {x : String}
    (hx : (Program.visible ps (Program.importsAmong code? ps)).Knows x) : c.Sees code? x := by
  rcases hx with hx | ⟨mod, names, y, hg, hy, rfl⟩
  · simp only [Program.visible, List.mem_append, List.mem_flatMap] at hx
    rcases hx with (hx | ⟨⟨mod, i⟩, hm, hx⟩) | hx
    · refine .inl ?_
      rw [exports, hc]
      exact hx
    · obtain ⟨hmod, rfl⟩ := Program.mem_importsAmong hm
      unfold Program.importOf at hx
      cases hcode : code? mod with
      | none => simp [hcode] at hx
      | some d =>
        rw [hcode] at hx
        refine .inr (.inl ⟨mod, ?_, d, hcode, x, hx, .inr rfl⟩)
        rw [hc]
        exact hmod
    · exact .inr (.inr hx)
  · have hm := Table.mem_of_get? hg
    simp only [Program.visible, List.mem_map] at hm
    obtain ⟨⟨mod', i⟩, hm, he⟩ := hm
    obtain ⟨hmod, rfl⟩ := Program.mem_importsAmong hm
    unfold Program.importOf at he
    cases hcode : code? mod' with
    | none => simp [hcode] at he
    | some d =>
      simp only [hcode, Prod.mk.injEq, Option.some.injEq] at he
      obtain ⟨rfl, rfl⟩ := he
      refine .inr (.inl ⟨mod', ?_, d, hcode, y, hy, .inl rfl⟩)
      rw [hc]
      exact hmod

theorem Passes.scoped (h : c.Passes code?) {d : Definition} (hd : d ∈ c.defs) :
    d.binding.body.Scoped fun x => Param.Binds d.binding.params x ∨ c.Sees code? x := by
  have himports := fun {i} => h.imports (i := i)
  obtain ⟨ps, ht, hc⟩ := h
  obtain ⟨he, _, hcheck⟩ := Program.check_ok hc
  have hd' : d ∈ Program.definitions ps := by
    rw [he] at hd
    exact hd
  have hcomplete : (Program.visible ps (Program.importsAmong code? ps)).Complete := by
    intro mod hg
    have hm := Table.mem_of_get? hg
    simp only [Program.visible, List.mem_map] at hm
    obtain ⟨⟨mod', i⟩, hm, heq⟩ := hm
    obtain ⟨hmod, rfl⟩ := Program.mem_importsAmong hm
    obtain ⟨d', hd'⟩ := himports (i := mod') (by rw [he]; exact hmod)
    simp [Program.importOf, hd'] at heq
  refine Expr.scoped_of_check hcomplete (Program.tidy_of_mem ht hd') (hcheck d hd')
    (fun x hn he => absurd he hn) fun x hx => ?_
  rcases hx with hx | hx
  · exact (Expr.mem_paramNames hx).imp_left .inl
  · exact .inl (.inr (sees_of_knows he hx))

/-- The module imports only modules that are there, and its definitions have only variables that
they bind or that the module sees. -/
structure SeesAll (code? : String → Option ModuleCode) (c : ModuleCode) : Prop where
  imports : ∀ i ∈ c.imports, ∃ d, code? i = some d
  defs : ∀ d ∈ c.defs, d.binding.body.Scoped fun x =>
    Param.Binds d.binding.params x ∨ c.Sees code? x

theorem Passes.seesAll (h : c.Passes code?) : c.SeesAll code? :=
  ⟨fun _ => h.imports, fun _ => h.scoped⟩

/-- Imports may be replaced by modules that export more. -/
theorem SeesAll.mono {code?' : String → Option ModuleCode} (h : c.SeesAll code?)
    (hcode : ∀ i ∈ c.imports, ∀ d, code? i = some d →
      ∃ d', code?' i = some d' ∧ d.exports ⊆ d'.exports) : c.SeesAll code?' where
  imports i hi := by
    obtain ⟨d, hd⟩ := h.imports i hi
    obtain ⟨d', hd', _⟩ := hcode i hi d hd
    exact ⟨d', hd'⟩
  defs d hd := by
    refine (h.defs d hd).mono fun x => Or.imp_right ?_
    rintro (hx | ⟨i, hi, e, he, y, hy, hx⟩ | hx)
    · exact .inl hx
    · obtain ⟨e', he', hsub⟩ := hcode i hi e he
      exact .inr (.inl ⟨i, hi, e', he', y, hsub hy, hx⟩)
    · exact .inr (.inr hx)

theorem SeesAll.congr {code?' : String → Option ModuleCode} (h : c.SeesAll code?)
    (hcode : ∀ i ∈ c.imports, code?' i = code? i) : c.SeesAll code?' :=
  h.mono fun i hi d hd => ⟨d, (hcode i hi).trans hd, List.Subset.refl _⟩

/-! ## Modules with all that they import -/

/-- The module is there, with all that it imports, and no import leads back. -/
inductive Founded (code? : String → Option ModuleCode) : String → Prop
  | intro {k : String} {c : ModuleCode} (hc : code? k = some c)
    (hi : ∀ i ∈ c.imports, Founded code? i) : Founded code? k

/-- The module has only names that it sees, and so does all that it imports. -/
inductive Vouched (code? : String → Option ModuleCode) : String → Prop
  | intro {k : String} {c : ModuleCode} (hc : code? k = some c) (hs : c.SeesAll code?)
    (hi : ∀ i ∈ c.imports, Vouched code? i) : Vouched code? k

/-- Every module is vouched for whose imports do not lead back to it. -/
def Sealed (code? : String → Option ModuleCode) : Prop := ∀ k, Founded code? k → Vouched code? k

/-- Every module passes whose imports do not lead back to it. A module whose imports do is never
linked. -/
def Checked (code? : String → Option ModuleCode) : Prop :=
  ∀ k c, Founded code? k → code? k = some c → c.Passes code?

theorem Checked.sealed (h : Checked code?) : Sealed code? := by
  intro k hk
  induction hk with
  | intro hc hi ih => exact .intro hc (h _ _ (.intro hc hi) hc).seesAll ih

theorem Passes.congr {code?' : String → Option ModuleCode} (h : c.Passes code?)
    (hcode : ∀ i ∈ c.imports, code?' i = code? i) : c.Passes code?' := by
  obtain ⟨ps, ht, hcheck⟩ := h
  have he := (Program.check_ok hcheck).1
  refine ⟨ps, ht, ?_⟩
  have hsame : Program.importsAmong code?' ps = Program.importsAmong code? ps := by
    refine List.map_congr_left fun p hp => ?_
    have hm : p.2.2 ∈ c.imports := by
      rw [he]
      exact List.mem_map_of_mem hp
    simp only [Program.importOf, hcode _ hm]
  rw [hsame]
  exact hcheck

/-- It is enough to know the code of what the module imports, directly or not. -/
theorem Vouched.congr {code?' : String → Option ModuleCode} (P : String → Prop)
    (hcode : ∀ k, P k → code?' k = code? k)
    (hP : ∀ k c, P k → code? k = some c → ∀ i ∈ c.imports, P i) {k : String}
    (hk : Vouched code? k) : P k → Vouched code?' k := by
  induction hk with
  | @intro k c hc hs hi ih =>
    intro hPk
    have himports := hP k c hPk hc
    refine .intro ((hcode k hPk).trans hc) (hs.congr fun i hm => hcode i (himports i hm)) ?_
    exact fun i hm => ih i hm (himports i hm)

theorem Founded.congr {code?' : String → Option ModuleCode} (P : String → Prop)
    (hcode : ∀ k, P k → code?' k = code? k)
    (hP : ∀ k c, P k → code? k = some c → ∀ i ∈ c.imports, P i) {k : String}
    (hk : Founded code? k) : P k → Founded code?' k := by
  induction hk with
  | @intro k c hc hi ih =>
    intro hPk
    exact .intro ((hcode k hPk).trans hc) fun i hm => ih i hm (hP k c hPk hc i hm)

end ModuleCode

end LazySession
