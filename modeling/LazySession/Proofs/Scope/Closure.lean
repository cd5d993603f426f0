import LazySession.Proofs.Interpreter.Reading
import LazySession.Proofs.Scope.Replacement

/-!
# Loaders hold all that they import

However runs follow one another, every loader that they make holds the imports of its modules:
`Family.complete_work`. So linking never asks for a module that is not there, and what a run finds
or makes is imported by nothing that was there before. A run of an expression or of definitions
therefore leaves every entry as it was.
-/

namespace LazySession

namespace ModuleCode

variable {code? known : String → Option ModuleCode} {found : List ModuleCode} {c : ModuleCode}

/-- Every import of a module is there. -/
def Complete (code? : String → Option ModuleCode) : Prop :=
  ∀ k c, code? k = some c → ∀ i ∈ c.imports, ∃ d, code? i = some d

theorem Consistent.complete (h : Consistent code?) : Complete code? :=
  fun k c hc => (h.sees k c hc).imports

theorem Found.complete (h : Found known found) (hk : Complete known) :
    Complete (seen known found) := by
  intro k c hc i hi
  rcases Option.or_eq_some_iff.mp hc with hc | ⟨_, hc⟩
  · exact (h.passes c (mem_of_among hc).1).imports hi
  · obtain ⟨d, hd⟩ := hk k c hc i hi
    exact ⟨d, h.seen_of_known hd⟩

theorem Replaces.complete (h : Replaces known found c code?) (hk : Complete known) :
    Complete code? := by
  have hseen : ∀ i d, seen known found i = some d → ∃ d', code? i = some d' := by
    intro i d hd
    by_cases hi : i = c.name
    · exact ⟨c, by rw [hi, h.self]⟩
    · exact ⟨d, by rw [h.other i hi, hd]⟩
  intro k d hd i hi
  by_cases hne : k = c.name
  · rw [hne, h.self] at hd
    cases hd
    obtain ⟨e, he⟩ := h.passes.imports hi
    exact hseen i e he
  · rw [h.other k hne] at hd
    obtain ⟨e, he⟩ := h.order.complete hk k d hd i hi
    exact hseen i e he

theorem Found.consistent (h : Found known found) (hc : Consistent known)
    (hf : ∀ k c, known k = some c → Founded known k) : Consistent (seen known found) where
  acyclic := acyclic_of_founded (h.founded hf)
  sees k c hk := by
    rcases Option.or_eq_some_iff.mp hk with hk | ⟨_, hk⟩
    · exact (h.passes c (mem_of_among hk).1).seesAll
    · exact (hc.sees k c hk).mono fun i _ e he => ⟨e, h.seen_of_known he, List.Subset.refl _⟩

theorem Replaces.not_back (h : Replaces known found c code?) (hk : Complete known)
    (hnew : seen known found c.name = none) :
    ¬ Relation.TransGen (Uses code?) c.name c.name := by
  intro hcycle
  obtain ⟨m, _, d, hd, hi⟩ := Relation.TransGen.tail'_iff.mp hcycle
  have hseen : ∃ e, seen known found c.name = some e := by
    by_cases hm : m = c.name
    · rw [hm, h.self] at hd
      cases hd
      exact h.passes.imports hi
    · rw [h.other m hm] at hd
      exact h.order.complete hk m d hd _ hi
  obtain ⟨e, he⟩ := hseen
  rw [hnew] at he
  cases he

end ModuleCode

/-! ## Linking -/

namespace Loader

open ModuleCode

variable {l : Loader} {w : World} {code? : String → Option ModuleCode}

theorem linksOn_complete (set : Setting) (hc : Complete code?) (fuel : Nat) :
    ∀ visiting name, (∃ c, code? name = some c) →
      LinksOn .moduleNotLoaded l code? (link set l fuel visiting) name := by
  induction fuel with
  | zero => intro visiting name _ w _; exact Act.meets_throw rfl
  | succ fuel ih =>
    intro visiting name hname w hw
    obtain ⟨c, hname⟩ := hname
    unfold link
    refine Act.meets_get_bind ?_
    split
    · rename_i hnone
      rw [← hw] at hname
      obtain ⟨id, hid, he⟩ := Option.bind_eq_some_iff.mp hname
      obtain ⟨e, he, _⟩ := Option.map_eq_some_iff.mp he
      simp [hid, he] at hnone
    · rename_i id e hid
      obtain ⟨id', hk, hid⟩ := Option.bind_eq_some_iff.mp hid
      obtain ⟨e', he, heq⟩ := Option.map_eq_some_iff.mp hid
      obtain ⟨rfl, rfl⟩ := Prod.mk.inj heq
      have hcode : code? name = some e'.code := by rw [← hw]; simp [Loader.code?, hk, he]
      split
      · exact Act.meets_throw rfl
      · split
        · exact Act.meets_pure hw
        · have hkind : ErrorKind.moduleNotLoaded ≠ .canceled := by decide
          exact linksOn_makeInstance hkind _ _ _ (fun i hi => ih _ i (hc name _ hcode i hi)) hw

/-- Loading a module that is there never ends with one that is not. -/
def LoadsWhole (l : Loader) (w : World) : Prop :=
  ∀ set, ∀ name ∈ l.modules.names, (l.load set name).Meets w (fun _ _ => True)
    fun e _ => e.is .moduleNotLoaded = false

theorem exists_code? (hk : l.Keyed w) {name : String} (hn : name ∈ l.modules.names) :
    ∃ c, l.code? w name = some c := by
  obtain ⟨id, hid⟩ := Option.isSome_iff_exists.mp (Table.get?_isSome.mpr hn)
  obtain ⟨e, he, _⟩ := hk.get? hid
  exact ⟨e.code, by simp [code?, hid, he]⟩

theorem loadsWhole (hk : l.Keyed w) (hc : Complete (l.code? w)) : l.LoadsWhole w := by
  intro set name hn
  refine Act.meets_bind (Act.meets_inquire fun patience => ⟨?_, rfl⟩)
  have hlink := linksOn_complete (l := l) set hc (l.modules.length + 1) [] name (exists_code? hk hn)
  exact (hlink { w with context := { w.context with patience } } rfl).mono
    (fun _ _ _ => trivial) fun _ _ h => h

/-! ## Adding modules -/

theorem code?_extend_found (hk : l.Keyed w) {found : List ModuleCode}
    (hfound : Found (l.code? w) found) :
    (l.extend found w).1.code? (l.extend found w).2 = seen (l.code? w) found := by
  funext k
  rw [code?_extend hk, among_reverse hfound.nodup]
  rfl

theorem extend_new (hk : l.Keyed w) (hc : Complete (l.code? w)) {mods : List ModuleCode}
    (hnew : ∀ c ∈ mods, l.code? w c.name = none) :
    l.extend mods w = mods.foldl refresh (l, w) := by
  unfold extend
  split
  · rename_i hm
    rw [List.isEmpty_iff.mp hm]
    rfl
  · have hkeyed := (renews_refresh mods hk).keyed
    have hcode := fun k => code?_foldl_refresh mods k hk
    generalize mods.foldl refresh (l, w) = p at hkeyed hcode ⊢
    obtain ⟨l₁, w₁⟩ := p
    simp only at hkeyed hcode ⊢
    rw [show (l₁.modules.filterMap fun p => w₁.entries[p.2]?.map (·.code)) = l₁.codes w₁ from rfl]
    have hclosed : Closed (l₁.codes w₁) (mods.map (·.name)) := by
      intro c hm hn i hi hin
      have hold := (mem_codes hkeyed).mp hm
      have hnone : among mods.reverse c.name = none := by
        rw [among_eq_none, List.map_reverse, List.mem_reverse]
        exact hn
      rw [hcode, hnone, Option.none_or] at hold
      obtain ⟨d, hd⟩ := hc c.name c hold i hi
      obtain ⟨m, hm, rfl⟩ := List.mem_map.mp hin
      rw [hnew m hm] at hd
      cases hd
    rw [reach_of_closed hclosed]
    have hstale : (mods.map (·.name)).filter (!(mods.map (·.name)).contains ·) = [] := by
      rw [List.filter_eq_nil_iff]
      intro x hx
      simpa using hx
    rw [hstale]
    have hnone : (l₁.codes w₁).filter (fun c => ([] : List String).contains c.name) = [] := by
      simp
    rw [hnone]
    rfl

/-- Every entry of a complete loader is kept when modules come in under new names. -/
theorem extend_keeps (hk : l.Keyed w) (hc : Complete (l.code? w)) {mods : List ModuleCode}
    (hnew : ∀ c ∈ mods, l.code? w c.name = none) {k : String} {id : EntryId}
    (hid : l.modules.get? k = some id) :
    (l.extend mods w).1.modules.get? k = some id ∧
      (l.extend mods w).2.entries[id]? = w.entries[id]? := by
  have r := renews_refresh mods hk
  obtain ⟨e, he, _⟩ := hk.get? hid
  have hcode : l.code? w k = some e.code := by simp [code?, hid, he]
  have hfresh : k ∉ mods.map (·.name) := by
    intro hm
    obtain ⟨c, hcm, rfl⟩ := List.mem_map.mp hm
    rw [hnew c hcm] at hcode
    cases hcode
  rw [extend_new hk hc hnew]
  exact ⟨by rw [r.kept k hfresh, hid], r.old id (Array.getElem?_eq_some_iff.mp he).1⟩

end Loader

/-! ## Runs -/

namespace Interpreter

open ModuleCode

variable {w w' : World} {l l' : Loader} {locator : Locator} {kind : SourceKind}

theorem Yields.complete {r : RunResult} (h : Yields locator l w r w') (hk : l.Keyed w)
    (hc : Complete (l.code? w)) {kind : SourceKind} (hr : r = .accepted kind l') :
    Complete (l'.code? w') := by
  cases h with
  | rejected => cases hr
  | @accepted _ found c w₁ hread hn ha =>
    cases hr
    have hk₁ := hread.keyed hk
    rw [← hread.code? l] at ha hc
    cases kind with
    | definitions =>
      show Complete ((l.extend found w₁).1.code? (l.extend found w₁).2)
      rw [Loader.code?_extend_found hk₁ ha.order]
      exact ha.order.complete hc
    | module name => exact (replaces_extend hk₁ ha).complete hc
    | expression symbol => exact (replaces_extend hk₁ ha).complete hc

/-- Something else has the name of the artifact of an expression. -/
def Taken (locator : Locator) (l : Loader) (kind : SourceKind) : Prop :=
  ∃ symbol, kind = .expression symbol ∧
    (symbol.artifact ∈ l.modules.names ∨ ∃ file, locator.find symbol.artifact = .ok file)

/-- An expression or definitions that were accepted, with an artifact of a new name. -/
theorem Yields.keeps (h : Yields locator l w (.accepted kind l') w') (hk : l.Keyed w)
    (hc : Consistent (l.code? w)) (hkind : ∀ name, kind ≠ .module name)
    (hfree : ¬ Taken locator l kind) :
    Consistent (l'.code? w') ∧ ∀ k id, l.modules.get? k = some id →
      l'.modules.get? k = some id ∧ w'.entries[id]? = w.entries[id]? := by
  cases h with
  | @accepted _ found c w₁ hread hn ha =>
    have hk₁ := hread.keyed hk
    have hentries : w₁.entries = w.entries := by
      obtain ⟨_, _, _, rfl⟩ := hread
      rfl
    rw [← hread.code? l] at ha hc
    have hfounded := Loader.Consistent.founded hc
    have hkeeps : ∀ mods, (∀ d ∈ mods, l.code? w₁ d.name = none) → ∀ k id,
        l.modules.get? k = some id → (l.extend mods w₁).1.modules.get? k = some id ∧
          (l.extend mods w₁).2.entries[id]? = w.entries[id]? := by
      intro mods hnew k id hid
      rw [← hentries]
      exact Loader.extend_keeps hk₁ hc.complete hnew hid
    cases kind with
    | module name => exact absurd rfl (hkind name)
    | definitions =>
      refine ⟨?_, hkeeps found ha.order.unknown⟩
      show Consistent ((l.extend found w₁).1.code? (l.extend found w₁).2)
      rw [Loader.code?_extend_found hk₁ ha.order]
      exact ha.order.consistent hc hfounded
    | expression symbol =>
      have hname : c.name = symbol.artifact := hn
      -- an expression gets a name that neither the loader nor the locator has
      have hunknown : l.code? w₁ c.name = none := by
        rw [Option.eq_none_iff_forall_ne_some]
        intro d hd
        exact hfree ⟨symbol, rfl, .inl (hname ▸ Loader.mem_names_of_code? hd)⟩
      have hnone : seen (l.code? w₁) found c.name = none := by
        have hfound : among found c.name = none := by
          rw [among_eq_none]
          intro hm
          obtain ⟨d, hd, hdn⟩ := List.mem_map.mp hm
          obtain ⟨file, hfile⟩ := ha.located d hd
          exact hfree ⟨symbol, rfl, .inr ⟨file, by rw [← hname, ← hdn]; exact hfile⟩⟩
        rw [seen, hfound, Option.none_or, hunknown]
      have hr := replaces_extend hk₁ ha
      have hback := hr.not_back hc.complete hnone
      refine ⟨⟨acyclic_of_founded (hr.founded hfounded hback), hr.sees hc.sees hback ?_⟩, ?_⟩
      · intro old hold
        rw [hunknown] at hold
        cases hold
      · refine hkeeps (found ++ [c]) fun d hd => ?_
        rcases List.mem_append.mp hd with hd | hd
        · exact ha.order.unknown d hd
        · rw [List.mem_singleton.mp hd]
          exact hunknown

end Interpreter

namespace Family

open ModuleCode

/-- The loader that a run has made. -/
def made : Except Error RunResult → List Loader
  | .ok (.accepted _ l) => [l]
  | _ => []

/-- A program is run against a loader that is there, with any search path, or something is done that
makes no loader. -/
inductive Work : Family → Family → Prop
  | run {w : World} {ls : List Loader} (ip : Interpreter) {p : Program} (hp : IsReading p.parsed)
    (history : History) (loader : Option (Supplied Loader))
    (hl : Interpreter.suppliedLoader loader ∈ ls) :
    Work ⟨w, ls⟩ ⟨((ip.run (.ours p) history loader).run w).2,
      made ((ip.run (.ours p) history loader).run w).1 ++ ls⟩
  | aside {f g : Family} (h : Step f g) (hl : g.loaders = f.loaders)
    (hc : g.world.cache.All IsReading) : Work f g

/-- Any amount of work. -/
abbrev Works : Family → Family → Prop := Relation.ReflTransGen Work

/-- Every loader holds the imports of its modules. -/
structure Complete (f : Family) : Prop where
  coherent : f.Coherent
  cache : f.world.cache.All IsReading
  imports : ∀ l ∈ f.loaders, ModuleCode.Complete (l.code? f.world)

theorem complete_empty {w : World} (hw : w.cache.All IsReading) : Complete ⟨w, [.empty]⟩ where
  coherent := coherent_empty w
  cache := hw
  imports l hl k c hc := by
    rw [List.mem_singleton.mp hl] at hc
    cases hc

theorem Complete.later {f g : Family} (h : f.Complete) (hlater : f.Later g) {l : Loader}
    (hl : l ∈ f.loaders) : ModuleCode.Complete (l.code? g.world) := by
  have hcode : l.code? g.world = l.code? f.world :=
    funext fun k => Loader.code?_keeps (h.coherent.keyed l hl) hlater.world
  rw [hcode]
  exact h.imports l hl

theorem Complete.reads {w w' : World} {ls : List Loader} (h : Complete ⟨w, ls⟩)
    (hr : Interpreter.ReadsOn w w') : Complete ⟨w', ls⟩ := by
  obtain ⟨cache, context, hc, rfl⟩ := hr
  obtain ⟨hcoherent, hlater⟩ := coherent_step h.coherent (.other cache context)
  exact ⟨hcoherent, hc, fun l hl => h.later hlater hl⟩

theorem complete_work {f g : Family} (h : f.Complete) (hw : Work f g) : g.Complete := by
  cases hw with
  | aside hstep hl hc =>
    obtain ⟨hcoherent, hlater⟩ := coherent_step h.coherent hstep
    exact ⟨hcoherent, hc, fun l hm => h.later hlater (hl ▸ hm)⟩
  | @run w ls ip p hp history loader hl =>
    have hk := h.coherent.keyed _ hl
    have hc := h.imports _ hl
    have hyields := Interpreter.yields_run ip history loader hp h.cache
    unfold Act.Meets at hyields
    generalize (ip.run (.ours p) history loader).run w = q at hyields
    obtain ⟨r, w'⟩ := q
    cases r with
    | error e => exact h.reads hyields
    | ok r =>
      cases hyields with
      | rejected hr => exact h.reads hr
      | @accepted kind found c w₁ hr hn ha =>
        have hcomplete := (Interpreter.Yields.accepted hr hn ha).complete hk hc rfl
        have h₁ := h.reads hr
        obtain ⟨hcoherent, hlater⟩ :=
          coherent_step h₁.coherent (.extend hl (Interpreter.added kind found c))
        refine ⟨hcoherent, ?_, fun l hm => ?_⟩
        · show ((Interpreter.suppliedLoader loader).extend
            (Interpreter.added kind found c) w₁).2.cache.All IsReading
          rw [Exchange.world_extend (h₁.coherent.keyed _ hl)]
          exact h₁.cache
        · rcases List.mem_cons.mp hm with rfl | hm
          · exact hcomplete
          · exact h₁.later hlater hm

theorem complete_works {f g : Family} (h : f.Complete) (hw : Works f g) : g.Complete := by
  induction hw with
  | refl => exact h
  | tail _ hstep ih => exact complete_work ih hstep

/-- However runs follow one another, every loader holds the imports of its modules, so that loading
one of them never asks for a module that is not there. And an expression or definitions that are
accepted against a consistent loader leave a consistent loader with all its entries, unless
something else has the name of the expression's artifact. -/
theorem runs_keep_loaders {w : World} (hw : w.cache.All IsReading) {f : Family}
    (hf : Works ⟨w, [.empty]⟩ f) {l : Loader} (hl : l ∈ f.loaders) :
    (∀ name c, l.code? f.world name = some c → ∀ i ∈ c.imports, i ∈ l.modules.names) ∧
    l.LoadsWhole f.world ∧
    (Consistent (l.code? f.world) → ∀ (ip : Interpreter) (p : Program) (history : History)
      (kind : SourceKind) (l' : Loader) (w' : World), IsReading p.parsed →
      (ip.run (.ours p) history (some (.ours l))).run f.world = (.ok (.accepted kind l'), w') →
      (∀ name, kind ≠ .module name) → ¬ Interpreter.Taken ip.locator l kind →
      Consistent (l'.code? w') ∧ ∀ name id, l.modules.get? name = some id →
        l'.modules.get? name = some id ∧ w'.entries[id]? = f.world.entries[id]?) := by
  have hcomplete := complete_works (complete_empty hw) hf
  have hkeyed := hcomplete.coherent.keyed l hl
  have himports := hcomplete.imports l hl
  refine ⟨fun name c hc i hi => ?_, Loader.loadsWhole hkeyed himports, ?_⟩
  · obtain ⟨d, hd⟩ := himports name c hc i hi
    exact Loader.mem_names_of_code? hd
  · intro hc ip p history kind l' w' hp hrun hkind hfree
    have hyields := Interpreter.yields_run ip history (some (.ours l)) hp hcomplete.cache
    unfold Act.Meets at hyields
    rw [hrun] at hyields
    exact hyields.keeps hkeyed hc hkind hfree

/-- Definitions bring a module in from the search path, and an expression is run behind them. -/
theorem runs_keep_loaders_imported : ∃ (ip : Interpreter) (f : Family) (l l' : Loader) (w' : World)
    (p : Program) (history : History) (kind : SourceKind), l ∈ f.loaders ∧
    l.modules.names = ["B"] ∧ l'.modules.names.length = 2 ∧
    (ip.run (.ours p) history (some (.ours l))).run f.world = (.ok (.accepted kind l'), w') ∧
    l'.LoadsWhole w' ∧ Consistent (l'.code? w') ∧ l'.modules.get? "B" = l.modules.get? "B" := by
  let ip : Interpreter := ⟨⟨[], ".mhs", [("B", "module B where\ny = 1\n")]⟩, ⟨.empty, 10⟩⟩
  let w : World := { cache := .disabled }
  let start : Family := ⟨w, [.empty]⟩
  have hw : w.cache.All IsReading := by rintro _ ⟨⟩
  have hrun : Interpreter.AcceptedWith (fun kind l w₁ => kind = .definitions ∧
      l.modules.names = ["B"] ∧ Interpreter.AcceptedWith (fun kind l' _ =>
        kind = .expression ⟨Interpreter.scriptName ⟨["import B"]⟩ "y + B.y",
          Interpreter.resultField⟩ ∧ l'.modules.names.length = 2)
        ((ip.run (.ours (Interpreter.programOf "y + B.y")) ⟨["import B"]⟩ (some (.ours l))).run w₁))
      ((ip.run (.ours (Interpreter.programOf "import B")) {} none).run w) := by
    decide +kernel
  have hfresh : Interpreter.scriptName ⟨["import B"]⟩ "y + B.y" ∉ ["B"] ∧
      (ip.locator.find (Interpreter.scriptName ⟨["import B"]⟩ "y + B.y")).isOk = false := by
    decide +kernel
  obtain ⟨_, l, w₁, h₁, rfl, hnames, hsecond⟩ := hrun.outcome
  obtain ⟨_, l', w₂, h₂, rfl, hlength⟩ := hsecond.outcome
  have hreading : ∀ text, IsReading (Interpreter.programOf text).parsed :=
    fun text => ⟨_, text, .inl rfl⟩
  have hempty : Consistent (Loader.empty.code? w) := by
    refine ⟨fun k hk => ?_, by rintro _ _ ⟨⟩⟩
    obtain ⟨_, ⟨c, hc, _⟩, _⟩ := Relation.TransGen.head'_iff.mp hk
    cases hc
  -- the first run makes `l`, the second one `l'`
  have hwork : Works start ⟨w₁, [l, .empty]⟩ := by
    have h : Work start _ := .run ip (hreading "import B") {} none List.mem_cons_self
    rw [h₁] at h
    exact .single h
  have hwork' : Works start ⟨w₂, [l', l, .empty]⟩ := by
    have h : Work ⟨w₁, [l, .empty]⟩ _ :=
      .run ip (hreading "y + B.y") ⟨["import B"]⟩ (some (.ours l)) List.mem_cons_self
    rw [h₂] at h
    exact hwork.tail h
  have hfree : ¬ Interpreter.Taken ip.locator .empty .definitions := by
    rintro ⟨_, ⟨⟩, _⟩
  have hfree' : ¬ Interpreter.Taken ip.locator l (.expression
      ⟨Interpreter.scriptName ⟨["import B"]⟩ "y + B.y", Interpreter.resultField⟩) := by
    rintro ⟨_, ⟨⟩, h | ⟨file, h⟩⟩
    · exact hfresh.1 (hnames ▸ h)
    · rw [h] at hfresh
      cases hfresh.2
  obtain ⟨hl, -⟩ := (runs_keep_loaders hw (f := start) .refl List.mem_cons_self).2.2 hempty ip
    _ {} _ l w₁ (hreading "import B") h₁ (by rintro _ ⟨⟩) hfree
  obtain ⟨hl', hkept⟩ := (runs_keep_loaders hw hwork List.mem_cons_self).2.2 hl ip _ _ _ l' w₂
    (hreading "y + B.y") h₂ (by rintro _ ⟨⟩) hfree'
  have hloads := (runs_keep_loaders hw hwork' List.mem_cons_self).2.1
  refine ⟨ip, ⟨w₁, [l, .empty]⟩, l, l', w₂, _, _, _, List.mem_cons_self, hnames, hlength, h₂,
    hloads, hl', ?_⟩
  have hB : (l.modules.get? "B").isSome := by
    rw [Table.get?_isSome, hnames]
    exact List.mem_cons_self
  obtain ⟨id, hid⟩ := Option.isSome_iff_exists.mp hB
  rw [hid, (hkept "B" id hid).1]

end Family

end LazySession
