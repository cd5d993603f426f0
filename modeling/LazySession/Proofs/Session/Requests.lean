import LazySession.Proofs.Interpreter.Outcome
import LazySession.Proofs.Loader.Cells
import LazySession.Proofs.Loader.Coherence
import LazySession.Proofs.Session.Legible
import LazySession.Session.Operation

/-!
# Sessions under any requests

A session is bound to, evaluated in and compiled against, in any order and whatever comes of it.
`Moment.Reached.tended`: along all requests, the prelude of the session is the one that its bindings
declare, its loader holds that prelude, and everything that is linked fits together.
-/

namespace LazySession

/-! ## The world of a session -/

namespace World

/-- The texts that were read are known as what they are, and the modules of the loaders fit
together. -/
structure Sane (ls : List Loader) (w : World) : Prop where
  faithful : Interpreter.Faithful w.cache
  coherent : Loader.Coherent ls [] w
  cells : Loader.CellsHeld w

variable {ls : List Loader} {w w' : World} {l : Loader}

theorem Sane.subset {ls' : List Loader} (h : Sane ls w) (hs : ls' ⊆ ls) : Sane ls' w where
  faithful := h.faithful
  coherent := {
    keyed := fun l hl => h.coherent.keyed l (hs hl)
    shares := fun l hl l' hl' => h.coherent.shares l (hs hl) l' (hs hl')
    linked := fun l hl => h.coherent.linked l (hs hl) }
  cells := h.cells

theorem Sane.of_eq (h : Sane ls w) {cache : Cache Parsed} (hc : Interpreter.Faithful cache)
    (context : Context) : Sane ls { w with cache, context } where
  faithful := hc
  coherent := h.coherent.keeps_heap (.refl _ _) rfl rfl
  cells := h.cells

theorem Sane.reads (h : Sane ls w) (hr : Interpreter.Reads w w') : Sane ls w' := by
  obtain ⟨cache, patience, hc, -, rfl⟩ := hr
  exact h.of_eq hc _

theorem Sane.extend (h : Sane ls w) (hl : l ∈ ls) (mods : List ModuleCode) :
    Sane ((l.extend mods w).1 :: ls) (l.extend mods w).2 := by
  obtain ⟨_, _, r, _⟩ := Loader.renews_extend (h.coherent.keyed l hl) mods
  refine ⟨?_, Family.coherent_extend h.coherent hl mods, ?_⟩
  · rw [r.world]
    exact h.faithful
  · intro id e i he hlinked hcode
    by_cases hlt : id < w.entries.size
    · rw [r.old id hlt] at he
      rw [r.world]
      exact h.cells id e i he hlinked hcode
    · -- fresh entries are not linked
      rw [r.unlinked id e (Nat.not_lt.mp hlt) he] at hlinked
      cases hlinked

/-- Sane worlds lead to sane worlds, in which all that was linked is there. -/
def Tends (ls : List Loader) (w w' : World) : Prop := Sane ls w → Sane ls w' ∧ w.Keeps [] w'

theorem Tends.refl (ls : List Loader) (w : World) : Tends ls w w := fun h => ⟨h, .refl _ _⟩

theorem Tends.trans {w'' : World} (h : Tends ls w w') (h' : Tends ls w' w'') : Tends ls w w'' := by
  intro hw
  obtain ⟨hw', hk⟩ := h hw
  obtain ⟨hw'', hk'⟩ := h' hw'
  exact ⟨hw'', hk.trans hk'⟩

open Loader (Holding)

theorem tends_load (hl : l ∈ ls) (set : Setting) (name : String) :
    Holding (Tends ls) (l.load set name) := by
  refine Loader.holding_of_run fun w hw => ?_
  obtain ⟨hc, hlater⟩ := Family.coherent_load hw.coherent hl set name
  refine ⟨⟨?_, hc, ?_⟩, hlater.world⟩
  · rw [((Loader.kept_cache set).load l name).world w]
    exact hw.faithful
  · exact ((Loader.cellsKept_load set l name).world w).held hw.cells

theorem tends_read (i : Instance) (set : Setting) (field : String) :
    Holding (Tends ls) (i.read set field) := by
  refine Loader.holding_of_run fun w hw => ?_
  obtain ⟨hc, hlater⟩ := Family.coherent_read hw.coherent i set field
  refine ⟨⟨?_, hc, ?_⟩, hlater.world⟩
  · rw [((Loader.kept_cache set).read i field).world w]
    exact hw.faithful
  · exact (((Loader.carried_cellsKept set).read i field).world w).held hw.cells

theorem tends_write (i : Instance) (field : String) (v : HostValue) :
    Holding (Tends ls) (i.write field v) := by
  intro w
  unfold Instance.write
  split
  · exact Act.meets_throw (.refl ls w)
  · refine Act.meets_get_bind ?_
    split
    · rename_i c _
      refine Act.meets_set fun hw => ⟨⟨hw.faithful, ?_, ?_⟩, .of_heap (Heap.fills_setCell _ _ _) rfl rfl⟩
      · exact hw.coherent.keeps_heap (Heap.fills_setCell _ _ _) rfl rfl
      · intro id e i' he hlinked hcode
        obtain ⟨hmakes, inst, hinst, hcells⟩ := hw.cells id e i' he hlinked hcode
        exact ⟨hmakes, inst, hinst, hcells.setCell c v.toValue⟩
    · exact Act.meets_throw (.refl ls w)

end World

/-! ## Values of expressions -/

/-- The interpreter with the generator that sessions have by default. -/
def Interpreter.workshop (ip : Interpreter) : Workshop := ⟨ip.engine, Template.generator {}⟩

namespace Session

open Interpreter World
open Loader (Holding)

variable {l : Loader} {ws : Workshop} {R : World → World → Prop}

/-- The relation holds from before to after the loading, reading and writing that a session does. -/
structure Serves (ws : Workshop) (l : Loader) (R : World → World → Prop) : Prop where
  refl : ∀ w, R w w
  trans : ∀ {w w' w''}, R w w' → R w' w'' → R w w''
  load : ∀ name, Holding R (l.load ws.engine.setting name)
  read : ∀ (i : Instance) field, Holding R (i.read ws.engine.setting field)
  write : ∀ (i : Instance) field v, Holding R (i.write field v)

theorem holding_loadInstance {name : String} (h : Holding R (l.load ws.engine.setting name))
    (hrefl : ∀ w, R w w) (htrans : ∀ {w w' w''}, R w w' → R w' w'' → R w w'') :
    Holding R (loadInstance ws l name) := by
  refine h.bind htrans fun id w => Act.meets_get_bind ?_
  split
  · exact Act.meets_pure (hrefl w)
  · exact Act.meets_throw (hrefl w)

theorem Serves.loadInstance (h : Serves ws l R) (name : String) :
    Holding R (loadInstance ws l name) :=
  holding_loadInstance (h.load name) h.refl h.trans

theorem Serves.injectAll (h : Serves ws l R) (prelude : Instance) (bs : Table Bound) :
    Holding R (injectAll ws prelude bs) := by
  induction bs with
  | nil => exact fun w => Act.meets_pure (h.refl w)
  | cons p bs ih => exact ((h.write _ _ _).during _).bind h.trans fun _ => ih

theorem Serves.readField (h : Serves ws l R) (s : Session) (artifact field : String) :
    Holding R (readField ws s l artifact field) := by
  have hread : Holding R (do
      let i ← Session.loadInstance ws l artifact
      i.read ws.engine.setting field) :=
    (h.loadInstance artifact).bind h.trans fun i => h.read i field
  unfold Session.readField
  split
  · exact (((h.loadInstance _).during _).bind h.trans fun i =>
      h.injectAll i s.bindings).bind h.trans fun _ => hread
  · exact hread

theorem Serves.readSymbol (h : Serves ws l R) (s : Session) (sym : Symbol) :
    Holding R (readSymbol ws s sym l) := by
  unfold Session.readSymbol
  split
  · exact fun w => Act.meets_throw (h.refl w)
  · split
    · exact fun w => Act.meets_throw (h.refl w)
    · exact (h.readField s _ _).rethrow _

theorem serves_tends (ws : Workshop) {ls : List Loader} (hl : l ∈ ls) : Serves ws l (Tends ls) where
  refl := .refl ls
  trans := .trans
  load := tends_load hl _
  read i := tends_read i _
  write := tends_write

/-! ## What a session keeps up -/

/-- The names that are bound, with their types. -/
def declared (s : Session) : List (String × String) := s.bindings.map fun (x, b) => (x, b.type)

theorem names_declared (s : Session) : s.declared.map (·.1) = s.boundNames := by
  simp [declared, boundNames, Table.names]

/-- The prelude and the definitions are those that the bindings declare. -/
structure Declares (s : Session) : Prop where
  nodup : s.boundNames.Nodup
  names : ∀ x ∈ s.boundNames, isBindName x = true
  prelude : s.prelude = Template.preludeText s.declared
  configs : ∀ x ∈ s.declared, Template.configText x ∈ s.history.predefs

/-- The name of the module that is generated. -/
abbrev preludeName : String := (Template.generator {}).preludeArtifact

/-- The module is what the checks make of the text of a prelude. -/
def IsPrelude (text : String) (c : ModuleCode) : Prop :=
  ∃ pos decls imported,
    Fragment.ofText fragmentSource text = .ok (.module ⟨pos, preludeName, decls⟩) ∧
    Program.check preludeName [⟨fragmentSource, decls⟩] imported = .ok c

/-- The session is in order in its world. -/
structure Tended (s : Session) (w : World) : Prop extends Declares s where
  sane : w.Sane [s.loader]
  code : s.bindings ≠ [] → ∃ c, s.loader.code? w preludeName = some c ∧ IsPrelude s.prelude c

variable {s s' : Session} {w w' : World} {k : BindKey} {v : HostValue}

theorem Tended.keyed (h : Tended s w) : s.loader.Keyed w :=
  h.sane.coherent.keyed _ (List.mem_singleton_self _)

theorem Tended.later (h : Tended s w) (hs : w'.Sane [s.loader]) (hk : w.Keeps [] w') :
    Tended s w' where
  toDeclares := h.toDeclares
  sane := hs
  code hb := by
    rw [Loader.code?_keeps h.keyed hk]
    exact h.code hb

theorem keeps_reads (h : Reads w w') : w.Keeps [] w' := by
  obtain ⟨_, _, _, _, rfl⟩ := h
  exact .of_heap (.refl _ _) rfl rfl

theorem Tended.reads (h : Tended s w) (hr : Reads w w') : Tended s w' :=
  h.later (h.sane.reads hr) (keeps_reads hr)

theorem Tended.extend (h : Tended s w) (mods : List ModuleCode) :
    Tended s (s.loader.extend mods w).2 :=
  h.later ((h.sane.extend (List.mem_singleton_self _) mods).subset (List.subset_cons_self _ _))
    (Family.keeps_extend h.keyed mods).1

theorem Tended.context (h : Tended s w) (context : Context) : Tended s { w with context } :=
  h.later (h.sane.of_eq h.sane.faithful context) (.of_heap (.refl _ _) rfl rfl)

/-! ## Bindings -/

theorem type_ne_empty {key : String} (h : BindKey.ofText key = .ok k) : k.type ≠ "" := by
  unfold BindKey.ofText at h
  generalize (Text.cut? "::" key).getD (key, "") = p at h
  obtain ⟨name, type⟩ := p
  simp only at h
  split at h
  · cases h
  · rw [← Except.ok.inj h]
    simp only [BindKey.type]
    split
    · exact (by decide : BindKey.defaultType ≠ "")
    · rename_i hne
      exact hne

theorem declare_ok {name type : String} {d : Declarations}
    (h : (Template.generator {}).declare name type = .ok d) (ht : type ≠ "") :
    isBindName name = true ∧
      d = ⟨Template.configText (name, type), Template.cellText (name, type)⟩ := by
  change Template.declare {} name type = .ok d at h
  unfold Template.declare at h
  split at h
  · cases h
  · split at h
    · cases h
    · rename_i hname
      refine ⟨by simpa using hname, ?_⟩
      rw [← Except.ok.inj h]
      simp only [Template.configText, Template.cellText, Template.cellName]

/-- What a binding does to the session before the prelude is loaded again. -/
theorem bindState_cases {next : Session}
    (h : bindState (Template.generator {}) s k v = .ok next) (hk : k.type ≠ "") :
    (∃ old, s.bindings.get? k.name = some old ∧ (k.annotation = none ∨ k.type = old.type) ∧
      next = { s with bindings := s.bindings.put k.name ⟨old.type, v⟩ }) ∨
    (s.bindings.get? k.name = none ∧ isBindName k.name = true ∧ next = { s with
      history := s.history.prepend (Template.configText (k.name, k.type) ::
        if s.bindings.isEmpty then [(Template.generator {}).preludeImport] else [])
      prelude := s.prelude ++ Template.cellText (k.name, k.type)
      bindings := s.bindings ++ [(k.name, ⟨k.type, v⟩)] }) := by
  unfold bindState at h
  cases hg : s.bindings.get? k.name with
  | none =>
    rw [hg] at h
    simp only [bindNew] at h
    cases hd : (Template.generator {}).declare k.name k.type with
    | error e =>
      rw [hd] at h
      cases h
    | ok d =>
      obtain ⟨hname, rfl⟩ := declare_ok hd hk
      rw [hd] at h
      refine .inr ⟨rfl, hname, ?_⟩
      rw [← Table.put_of_not_has (by simp [Table.has, hg])]
      exact (Except.ok.inj h).symm
  | some old =>
    rw [hg] at h
    simp only at h
    split at h
    · cases h
    · rename_i hann
      cases h
      refine .inl ⟨old, rfl, ?_, rfl⟩
      cases ha : k.annotation with
      | none => exact .inl rfl
      | some a =>
        refine .inr (Classical.byContradiction fun hne => hann ⟨by simp [ha], hne⟩)

theorem declared_put {t : Table Bound} {x : String} {old : Bound} (h : t.get? x = some old)
    (v : HostValue) : (t.put x ⟨old.type, v⟩).map (fun (x, b) => (x, b.type)) =
      t.map fun (x, b) => (x, b.type) := by
  induction t with
  | nil => cases h
  | cons p t ih =>
    obtain ⟨n, b⟩ := p
    unfold Table.get? at h
    split at h
    · rename_i hn
      cases h
      simp [Table.put, hn]
    · rename_i hn
      simp [Table.put, hn, ih h]

theorem declares_bindState (h : Declares s) {next : Session}
    (hb : bindState (Template.generator {}) s k v = .ok next) (hk : k.type ≠ "") :
    Declares next ∧ next.loader = s.loader ∧ next.bindings ≠ [] := by
  rcases bindState_cases hb hk with ⟨old, hold, -, rfl⟩ | ⟨hnone, hname, rfl⟩
  · have hmem : k.name ∈ s.bindings.names := Table.get?_isSome.mp (by simp [hold])
    refine ⟨⟨?_, ?_, ?_, ?_⟩, rfl, ?_⟩
    · exact Table.nodup_put h.nodup _ _
    · intro x hx
      refine h.names x ?_
      simpa [boundNames, Table.names_put, hmem] using hx
    · rw [declared, declared_put hold]
      exact h.prelude
    · rw [declared, declared_put hold]
      exact h.configs
    · intro he
      have := congrArg Table.names he
      simp [Table.names_put, hmem] at this
      rw [this] at hmem
      cases hmem
  · have hnot : k.name ∉ s.bindings.names := Table.get?_eq_none.mp hnone
    refine ⟨⟨?_, ?_, ?_, ?_⟩, rfl, by simp⟩
    · rw [boundNames, Table.names, List.map_append, List.nodup_append]
      refine ⟨h.nodup, by simp, fun x hx y hy he => hnot ?_⟩
      rw [List.map_singleton, List.mem_singleton] at hy
      obtain rfl : y = k.name := hy
      exact he ▸ hx
    · intro x hx
      simp only [boundNames, Table.names, List.map_append, List.map_singleton, List.mem_append,
        List.mem_singleton] at hx
      rcases hx with hx | rfl
      · exact h.names x hx
      · exact hname
    · simp only [declared, List.map_append, List.map_singleton]
      rw [Template.preludeText_snoc, h.prelude]
      rfl
    · intro x hx
      simp only [declared, List.map_append, List.map_singleton, List.mem_append,
        List.mem_singleton] at hx
      simp only [History.prepend, List.mem_append, List.mem_cons]
      rcases hx with hx | rfl
      · exact .inr (h.configs x hx)
      · exact .inl (.inl rfl)

/-- A value has been bound: the prelude was compiled and put into the loader again. -/
inductive Rebinds (k : BindKey) (v : HostValue) (s : Session) (w : World) : Session → World → Prop
  | mk {next : Session} {pos : Pos} {decls : List Decl} {found : List ModuleCode}
    {code : ModuleCode} {w' : World}
    (hnext : bindState (Template.generator {}) s k v = .ok next)
    (hread : Fragment.ofText fragmentSource next.prelude = .ok (.module ⟨pos, preludeName, decls⟩))
    (hr : Reads w w')
    (hc : Compiles (s.loader.code? w) preludeName [⟨fragmentSource, decls⟩] found code) :
    Rebinds k v s w
      { next with loader := (s.loader.extend (found ++ [code]) w').1, reloads := next.reloads + 1 }
      (s.loader.extend (found ++ [code]) w').2

theorem toList_preludeText_prefix (xs : List (String × String)) :
    ∃ rest, (Template.preludeText xs).toList = (Template.generator {}).prelude.toList ++ rest :=
  ⟨_, Template.toList_preludeText xs⟩

theorem meets_lock {Q : Unit → World → Prop} {E : Error → World → Prop} (hQ : Q () w)
    (hE : E .canceled w) : lock.Meets w Q E := by
  refine Act.meets_get_bind ?_
  split
  · exact Act.meets_throw hE
  · exact Act.meets_pure hQ

theorem rebinds_reload (ip : Interpreter) {next : Session} (h : Tended s w)
    (hnext : bindState (Template.generator {}) s k v = .ok next) (hk : k.type ≠ "") :
    (reload ip.workshop next).Meets w (Rebinds k v s w) (fun _ w' => Tended s w') := by
  obtain ⟨hdeclares, hloader, -⟩ := declares_bindState h.toDeclares hnext hk
  obtain ⟨w₁, hr₁, hrun⟩ := run_interpret h.sane.faithful next.prelude
  have h₁ := h.reads hr₁
  refine Act.meets_bind (Act.meets_of_run hrun ?_)
  refine Act.meets_bind (Act.meets_during ((ran_run ip next.prelude next.history next.loader
    hr₁.faithful).mono (fun r w₂ hran => ?_) fun _ _ h => h₁.reads h.2.1))
  rw [hloader] at hran
  cases hran with
  | rejected hr => exact Act.meets_throw (h₁.reads hr)
  | definitions _ _ hr _ => exact Act.meets_throw ((h₁.reads hr).extend _)
  | expression _ _ hr _ => exact Act.meets_throw ((h₁.reads hr).extend _)
  | module ht hr hc =>
    obtain ⟨rest, htext⟩ := toList_preludeText_prefix next.declared
    rw [← hdeclares.prelude] at htext
    obtain ⟨_, _, _, pos, decls, _, _, _, hm⟩ := Template.read_header htext ht
    obtain rfl := Fragment.module.inj hm
    rw [code?_reads hr₁] at hc
    exact Act.meets_pure (.mk hnext ht (hr₁.trans hr) hc)

/-- A value is bound, or the session is left in order. -/
theorem rebinds_bind (ip : Interpreter) (h : Tended s w) (key : String) (v : HostValue) :
    (bind ip.workshop s key v).Meets w
      (fun s' w' => ∃ k, BindKey.ofText key = .ok k ∧ Rebinds k v s w s' w')
      (fun _ w' => Tended s w') := by
  refine Act.meets_bind (meets_lock ?_ h)
  cases hk : BindKey.ofText key with
  | error e => exact Act.meets_throw h
  | ok k =>
    cases hnext : bindState ip.workshop.generator s k v with
    | error e =>
      simp only [hnext]
      exact Act.meets_throw h
    | ok next =>
      simp only [hnext]
      refine Act.meets_tryCatch ((rebinds_reload ip h hnext (type_ne_empty hk)).mono ?_ ?_)
      · exact fun _ _ hb => ⟨k, rfl, hb⟩
      · exact fun _ _ h' => Act.meets_throw h'

/-- The module that is compiled last is the one that is held. -/
theorem code?_extend_last {l : Loader} (hk : l.Keyed w) (found : List ModuleCode)
    (code : ModuleCode) :
    (l.extend (found ++ [code]) w).1.code? (l.extend (found ++ [code]) w).2 code.name =
      some code := by
  rw [Loader.code?_extend hk, List.reverse_append, List.reverse_singleton]
  simp [ModuleCode.among]

/-- It has a new entry, which is not linked. -/
theorem entry_extend_last {l : Loader} (hk : l.Keyed w) (found : List ModuleCode)
    (code : ModuleCode) : ∃ id,
      (l.extend (found ++ [code]) w).1.modules.get? code.name = some id ∧
        (l.extend (found ++ [code]) w).2.entries[id]? = some ⟨code, none⟩ := by
  obtain ⟨_, fresh, r, hfresh, -⟩ := Loader.renews_extend hk (found ++ [code])
  obtain ⟨id, code', hid, -, he, -⟩ := r.new code.name (hfresh code (by simp))
  have hlast := code?_extend_last hk found code
  simp only [Loader.code?, hid, he, Option.bind_some, Option.map_some, Option.some.injEq] at hlast
  exact ⟨id, hid, hlast ▸ he⟩

theorem context_extend {l : Loader} (hk : l.Keyed w) (mods : List ModuleCode) :
    (l.extend mods w).2.context = w.context := by
  obtain ⟨_, _, r, -⟩ := Loader.renews_extend hk mods
  rw [r.world]

theorem code?_extend_other {l : Loader} (hk : l.Keyed w) {mods : List ModuleCode} {n : String}
    (hn : n ∉ mods.map (·.name)) :
    (l.extend mods w).1.code? (l.extend mods w).2 n = l.code? w n := by
  rw [Loader.code?_extend hk, ModuleCode.among_eq_none.mpr, Option.none_or]
  rwa [List.map_reverse, List.mem_reverse]

theorem Tended.rebinds (h : Tended s w) (hk : k.type ≠ "") (hb : Rebinds k v s w s' w') :
    Tended s' w' := by
  obtain ⟨hnext, hread, hr, hc⟩ := hb
  rename_i next pos decls found code w₁
  obtain ⟨hd, hloader, -⟩ := declares_bindState h.toDeclares hnext hk
  have h₁ := h.reads hr
  have hsane := h₁.sane.extend (List.mem_singleton_self _) (found ++ [code])
  refine ⟨⟨hd.nodup, hd.names, hd.prelude, hd.configs⟩, hsane.subset (by simp), fun _ => ?_⟩
  have hname : code.name = preludeName := by rw [hc.code_eq]
  have hcode := code?_extend_last h₁.keyed found code
  rw [hname] at hcode
  exact ⟨code, hcode, pos, decls, _, hread, hc.check⟩

/-! ## Fragments -/

/-- The text is not a module that has the name of the prelude. -/
def Spares (text : String) : Prop :=
  ∀ m, Fragment.ofText fragmentSource text = .ok (.module m) → m.name ≠ preludeName

theorem Tended.extendLoader (h : Tended s w) {mods : List ModuleCode}
    (hm : s.bindings ≠ [] → preludeName ∉ mods.map (·.name)) :
    Tended { s with loader := (s.loader.extend mods w).1 } (s.loader.extend mods w).2 where
  nodup := h.nodup
  names := h.names
  prelude := h.prelude
  configs := h.configs
  sane := (h.sane.extend (List.mem_singleton_self _) mods).subset (by simp)
  code hb := by
    rw [code?_extend_other h.keyed (hm hb)]
    exact h.code hb

theorem Tended.prepend (h : Tended s w) (texts : List String) :
    Tended { s with history := s.history.prepend texts } w where
  nodup := h.nodup
  names := h.names
  prelude := h.prelude
  configs x hx := List.mem_append.mpr (.inr (h.configs x hx))
  sane := h.sane
  code := h.code

theorem Tended.not_found (h : Tended s w) {found : List ModuleCode}
    (hf : ModuleCode.Found (s.loader.code? w) found) (hb : s.bindings ≠ []) :
    preludeName ∉ found.map (·.name) := by
  intro hm
  obtain ⟨c, hc, hn⟩ := List.mem_map.mp hm
  obtain ⟨code, hcode, -⟩ := h.code hb
  have hnone := hf.unknown c hc
  rw [hn, hcode] at hnone
  cases hnone

theorem tended_evaluateProgram (ip : Interpreter) (h : Tended s w) {text : String}
    (hs : Spares text) :
    (evaluateProgram ip.workshop s (programOf text)).Meets w (fun r w' => Tended r.2 w')
      (fun _ w' => Tended s w') := by
  refine Act.meets_bind (meets_lock ?_ h)
  refine Act.meets_bind (Act.meets_during ((ran_run ip text s.history s.loader
    h.sane.faithful).mono (fun r w₂ hran => ?_) fun _ _ h' => h.reads h'.2.1))
  cases hran with
  | rejected hr => exact Act.meets_throw (h.reads hr)
  | definitions _ _ hr _ => exact Act.meets_pure (((h.reads hr).extend _).prepend _)
  | module ht hr hc =>
    refine Act.meets_pure ((h.reads hr).extendLoader fun hb => ?_)
    rw [List.map_append, List.mem_append, not_or]
    refine ⟨h.not_found hc.order hb, ?_⟩
    rw [List.map_singleton, List.mem_singleton, hc.code_eq]
    exact (hs _ ht).symm
  | @expression _ _ found code w₁ _ _ hr _ =>
    have h₁ := h.reads hr
    have hsane := h₁.sane.extend (List.mem_singleton_self _) (found ++ [code])
    have hkeep : ∀ {w' : World}, World.Tends
        [(s.loader.extend (found ++ [code]) w₁).1, s.loader]
        (s.loader.extend (found ++ [code]) w₁).2 w' → Tended s w' := by
      intro w' ht
      obtain ⟨hsane', hk⟩ := ht hsane
      exact h.later (hsane'.subset (by simp))
        (((keeps_reads hr).trans (Family.keeps_extend h₁.keyed _).1).trans hk)
    have hread : Holding (Tends [(s.loader.extend (found ++ [code]) w₁).1, s.loader])
        (readSymbol ip.workshop s ⟨scriptName s.history text, resultField⟩
          (s.loader.extend (found ++ [code]) w₁).1) :=
      (serves_tends _ List.mem_cons_self).readSymbol s _
    refine Act.meets_bind ((hread _).mono ?_ ?_)
    · exact fun _ _ ht => Act.meets_pure (hkeep ht)
    · exact fun _ _ ht => hkeep ht

theorem tended_evaluate (ip : Interpreter) (h : Tended s w) {text : String} (hs : Spares text) :
    (evaluate ip.workshop s text).Meets w (fun r w' => Tended r.2 w') (fun _ w' => Tended s w') := by
  obtain ⟨w₁, hr, hrun⟩ := run_interpret h.sane.faithful text
  exact Act.meets_bind (Act.meets_of_run hrun (tended_evaluateProgram ip (h.reads hr) hs))

theorem tended_compile (ip : Interpreter) (h : Tended s w) (text : String) :
    (compile ip.workshop s text).Meets w (fun _ w' => Tended s w') (fun _ w' => Tended s w') := by
  obtain ⟨w₁, hr₁, hrun⟩ := run_interpret h.sane.faithful text
  have h₁ := h.reads hr₁
  refine Act.meets_bind (Act.meets_of_run hrun (Act.meets_bind (Act.meets_during
    ((ran_run ip text s.history s.loader hr₁.faithful).mono (fun r w₂ hran => ?_) ?_))))
  · cases hran with
    | rejected hr => exact Act.meets_throw (h₁.reads hr)
    | definitions _ _ hr _ => exact Act.meets_pure ((h₁.reads hr).extend _)
    | module _ hr _ => exact Act.meets_pure ((h₁.reads hr).extend _)
    | expression _ _ hr _ => exact Act.meets_pure ((h₁.reads hr).extend _)
  · exact fun _ _ h' => h₁.reads h'.2.1

/-- An interpreter without modules and host functions. -/
def plain : Interpreter := ⟨⟨[], ".mhs", []⟩, ⟨.empty, 10⟩⟩

end Session

/-! ## Requests -/

/-- What can be asked of a session. -/
inductive Request
  | bind (key : String) (value : HostValue)
  | evaluate (text : String)
  /-- The text has been read before. -/
  | program (text : String)
  | compile (text : String)

/-- A session and the world it is in. -/
structure Moment where
  session : Session
  world : World

namespace Request

def act (ip : Interpreter) (s : Session) : Request → Act Session
  | bind key value => Session.bind ip.workshop s key value
  | evaluate text => do return (← Session.evaluate ip.workshop s text).2
  | program text => do
    return (← Session.evaluateProgram ip.workshop s (Interpreter.programOf text)).2
  | compile text => do
    let _ ← Session.compile ip.workshop s text
    return s

/-- No module with the name of the prelude is submitted. -/
def Spares : Request → Prop
  | evaluate text | program text => Session.Spares text
  | _ => True

end Request

namespace Moment

/-- A session before anything is done. The cache may hold what others have read. -/
def start (cache : Cache Parsed) : Moment := ⟨.fresh (Template.generator {}), { cache }⟩

/-- The session after a request. It stays as it was if the request fails. -/
def after (ip : Interpreter) (m : Moment) (context : Context) (r : Request) : Moment :=
  match (r.act ip m.session).run { m.world with context } with
  | (.ok s, w) => ⟨s, w⟩
  | (.error _, w) => ⟨m.session, w⟩

/-- Whether a request has success. -/
def succeeds (ip : Interpreter) (m : Moment) (context : Context) (r : Request) : Bool :=
  ((r.act ip m.session).run { m.world with context }).1.isOk

/-- Requests lead to the moment, none of which submits a module with the name of the prelude. -/
inductive Reached (ip : Interpreter) (cache : Cache Parsed) : Moment → Prop
  | start : Reached ip cache (start cache)
  | after {m : Moment} (h : Reached ip cache m) (context : Context) {r : Request}
    (hr : r.Spares) : Reached ip cache (m.after ip context r)

def Tended (m : Moment) : Prop := m.session.Tended m.world

variable {ip : Interpreter} {cache : Cache Parsed} {m : Moment}

theorem act_of_succeeds {context : Context} {r : Request} (h : m.succeeds ip context r = true) :
    (r.act ip m.session).run { m.world with context } =
      (.ok (m.after ip context r).session, (m.after ip context r).world) := by
  unfold succeeds at h
  unfold after
  generalize (r.act ip m.session).run { m.world with context } = p at h ⊢
  obtain ⟨r, w⟩ := p
  cases r with
  | ok s => rfl
  | error e => cases h

theorem rebinds_of_succeeds (h : m.Tended) {context : Context} {key : String} {v : HostValue}
    (hb : m.succeeds ip context (.bind key v) = true) : ∃ k, BindKey.ofText key = .ok k ∧
      Session.Rebinds k v m.session { m.world with context } (m.after ip context (.bind key v)).session
        (m.after ip context (.bind key v)).world := by
  have hbind := Session.rebinds_bind ip (h.context context) key v
  unfold Act.Meets at hbind
  have hrun := act_of_succeeds hb
  rw [Request.act] at hrun
  rw [hrun] at hbind
  exact hbind

theorem tended_start (hc : Interpreter.Faithful cache) : (start cache).Tended where
  nodup := List.nodup_nil
  names := nofun
  prelude := rfl
  configs := nofun
  sane := ⟨hc, Family.coherent_empty _, fun id e i he => by simp [start] at he⟩
  code h := absurd rfl h

theorem tended_act (ip : Interpreter) {s : Session} {w : World} (h : s.Tended w) {r : Request}
    (hr : r.Spares) :
    (r.act ip s).Meets w (fun s' w' => s'.Tended w') (fun _ w' => s.Tended w') := by
  cases r with
  | bind key value =>
    refine (Session.rebinds_bind ip h key value).mono ?_ fun _ _ h' => h'
    rintro s' w' ⟨k, hk, hb⟩
    exact h.rebinds (Session.type_ne_empty hk) hb
  | evaluate text => exact Act.meets_bind (Session.tended_evaluate ip h hr)
  | program text => exact Act.meets_bind (Session.tended_evaluateProgram ip h hr)
  | compile text => exact Act.meets_bind (Session.tended_compile ip h text)

theorem tended_after (h : m.Tended) (context : Context) {r : Request} (hr : r.Spares) :
    (m.after ip context r).Tended := by
  have hact := tended_act ip (h.context context) hr
  unfold Act.Meets at hact
  unfold after
  split <;> rename_i he <;> rw [he] at hact <;> exact hact

theorem Reached.tended (hc : Interpreter.Faithful cache) (h : Reached ip cache m) : m.Tended := by
  induction h with
  | start => exact tended_start hc
  | after _ context hr ih => exact tended_after ih context hr

end Moment

end LazySession
