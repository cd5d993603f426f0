import LazySession.Proofs.Act
import LazySession.Proofs.Loader.Sharing
import LazySession.Proofs.Scope.Search

/-!
# The loader of an expression that was accepted

`Interpreter.accepts_run`: an expression that is run without any modules loaded and accepted leaves
a loader in which every module has passed the checks, unless its imports lead back to it. They can
do so only if a source has the name of the expression's artifact.
-/

namespace LazySession

namespace Loader

open ModuleCode

variable {l : Loader} {w : World}

theorem code?_refresh (hk : l.Keyed w) (c : ModuleCode) (k : String) :
    (refresh (l, w) c).1.code? (refresh (l, w) c).2 k =
      if c.name = k then some c else l.code? w k := by
  simp only [refresh, code?, Table.get?_put]
  split
  · simp
  · cases hg : l.modules.get? k with
    | none => rfl
    | some id =>
      obtain ⟨e, he, _⟩ := hk.get? hg
      have hlt := (Array.getElem?_eq_some_iff.mp he).1
      simp [Array.getElem?_push, Nat.ne_of_lt hlt]

/-- Of several modules of one name, the last one counts. -/
theorem code?_foldl_refresh (mods : List ModuleCode) (k : String) :
    ∀ {l : Loader} {w : World}, l.Keyed w →
      (mods.foldl refresh (l, w)).1.code? (mods.foldl refresh (l, w)).2 k =
        (among mods.reverse k).or (l.code? w k) := by
  induction mods with
  | nil => exact fun _ => rfl
  | cons c mods ih =>
    intro l w hk
    rw [List.foldl_cons, ih (renews_refresh_one hk c).keyed, code?_refresh hk, among, among,
      List.reverse_cons, List.find?_append, Option.or_assoc]
    congr 1
    by_cases hc : c.name = k <;> simp [hc]

theorem code?_extend (hk : l.Keyed w) (mods : List ModuleCode) (k : String) :
    (l.extend mods w).1.code? (l.extend mods w).2 k = (among mods.reverse k).or (l.code? w k) := by
  unfold extend
  split
  · rename_i hm
    obtain rfl := List.isEmpty_iff.mp hm
    rfl
  · rw [← code?_foldl_refresh mods k hk]
    have hkeyed := (renews_refresh mods hk).keyed
    generalize mods.foldl refresh (l, w) = p at hkeyed ⊢
    obtain ⟨l₁, w₁⟩ := p
    simp only at hkeyed ⊢
    rw [code?_foldl_refresh _ k hkeyed]
    -- a module that gets a fresh entry keeps its code
    generalize hs : List.filter _ _ = stale
    cases hc : among stale.reverse k with
    | none => rfl
    | some c =>
      obtain ⟨hm, rfl⟩ := mem_of_among hc
      rw [List.mem_reverse, ← hs, List.mem_filter] at hm
      rw [Option.some_or]
      exact ((mem_codes hkeyed).mp hm.1).symm

end Loader

namespace ModuleCode

variable {cs : List ModuleCode} {c : ModuleCode} {k : String}

theorem among_reverse (hn : (cs.map (·.name)).Nodup) (k : String) :
    among cs.reverse k = among cs k := by
  cases h : among cs.reverse k with
  | none =>
    rw [among_eq_none, List.map_reverse, List.mem_reverse] at h
    exact (among_eq_none.mpr h).symm
  | some c =>
    obtain ⟨hm, rfl⟩ := mem_of_among h
    exact (among_of_mem hn (List.mem_reverse.mp hm)).symm

theorem Founded.acyclic {code? : String → Option ModuleCode} (h : Founded code? k) :
    ¬ Relation.TransGen (Uses code?) k k := by
  induction h with
  | @intro k c hc _ ih =>
    intro hcycle
    obtain ⟨m, ⟨c', hc', hm⟩, hback⟩ := Relation.TransGen.head'_iff.mp hcycle
    obtain rfl := Option.some.inj (hc.symm.trans hc')
    exact ih m hm (Relation.TransGen.tail' hback ⟨c, hc, hm⟩)

/-- Modules that have passed, and one more of any name. Every module has passed from which no
imports lead back. -/
theorem checked_snoc (hn : (cs.map (·.name)).Nodup) (hp : ∀ d ∈ cs, d.Passes (among cs))
    (hc : c.Passes (among cs))
    (hled : ∀ d ∈ cs, ∃ r ∈ c.imports, Leads (among cs) r d.name) :
    Checked (among (cs ++ [c]).reverse) := by
  have hcode : ∀ k, among (cs ++ [c]).reverse k = if c.name = k then some c else among cs k := by
    intro k
    rw [List.reverse_append, ← among_reverse hn]
    by_cases hk : c.name = k <;> simp [among, hk]
  generalize among (cs ++ [c]).reverse = code? at hcode
  have hother : ∀ k, k ≠ c.name → code? k = among cs k := fun k hk => by
    rw [hcode, if_neg (Ne.symm hk)]
  have hself : code? c.name = some c := by rw [hcode, if_pos rfl]
  -- a path that leads to `c.name` does so as well with `c` in its place
  have hpath : ∀ m, Leads (among cs) m c.name → Leads code? m c.name := by
    intro m h
    induction h using Relation.ReflTransGen.head_induction_on with
    | refl => exact .refl
    | @head m n step _ ih =>
      by_cases hm : m = c.name
      · rw [hm]
      · obtain ⟨d, hd, hi⟩ := step
        exact .head ⟨d, by rw [hother m hm, hd], hi⟩ ih
  -- so `c` is founded only if no other module has its name
  have hfresh : Founded code? c.name → c.name ∉ cs.map (·.name) := by
    intro hf hm
    obtain ⟨d, hd, hdn⟩ := List.mem_map.mp hm
    obtain ⟨r, hr, hl⟩ := hled d hd
    exact hf.acyclic (Relation.TransGen.head' ⟨c, hself, hr⟩ (hpath r (hdn ▸ hl)))
  have himport : ∀ d : ModuleCode, d.Passes (among cs) → ∀ i ∈ d.imports, i ∈ cs.map (·.name) := by
    intro d hd i hi
    obtain ⟨e, he⟩ := hd.imports hi
    obtain ⟨hm, rfl⟩ := mem_of_among he
    exact List.mem_map_of_mem hm
  intro k d hf hd
  by_cases hk : k = c.name
  · subst hk
    obtain rfl : c = d := Option.some.inj (hself.symm.trans hd)
    refine hc.congr fun i hi => hother i fun he => ?_
    exact hfresh hf (he ▸ himport c hc i hi)
  · rw [hother k hk] at hd
    obtain ⟨hm, rfl⟩ := mem_of_among hd
    refine (hp d hm).congr fun i hi => hother i fun he => ?_
    obtain ⟨hd', hfi⟩ := hf
    obtain rfl := Option.some.inj (hd.symm.trans ((hother _ hk).symm.trans hd'))
    subst he
    exact hfresh (hfi _ hi) (himport d (hp d hm) _ hi)

end ModuleCode

namespace Interpreter

open ModuleCode

theorem tidy_readDefinitions (texts : List String) :
    ∀ (c : Cache Parsed) (n : Nat), c.All IsReading →
      (∀ p ∈ (readDefinitions c n texts).1.1, p.Tidy) ∧ (readDefinitions c n texts).2.All IsReading := by
  induction texts with
  | nil => exact fun c n hc => ⟨nofun, hc⟩
  | cons text texts ih =>
    intro c n hc
    obtain ⟨hread, hc₁⟩ := isReading_readFragment hc (definitionSource n) text
    unfold readDefinitions
    simp only
    generalize readFragment (definitionSource n) text c = q at hread hc₁ ⊢
    obtain ⟨parsed, c₁⟩ := q
    have hrest := ih c₁ (n + 1) hc₁
    simp only at hread ⊢
    generalize readDefinitions c₁ (n + 1) texts = q at hrest ⊢
    obtain ⟨⟨ps, ds⟩, c₂⟩ := q
    simp only at hrest ⊢
    split
    · exact hrest
    · refine ⟨fun p hp => ?_, hrest.2⟩
      rcases List.mem_cons.mp hp with rfl | hp
      · exact hread.tidy
      · exact hrest.1 p hp
    · exact hrest

/-- From `w` to `w'`, texts have been read and it may have been asked whether to stop. -/
def ReadsOn (w w' : World) : Prop :=
  ∃ cache context, cache.All IsReading ∧ w' = { w with cache, context }

/-- Modules were located that pass one after the other, and then `c` passes. Imports of `c` lead to
all of them. -/
structure Adds (locator : Locator) (known : String → Option ModuleCode) (found : List ModuleCode)
    (c : ModuleCode) : Prop where
  order : Found known found
  located : ∀ d ∈ found, ∃ file, locator.find d.name = .ok file
  passes : c.Passes (seen known found)
  led : ∀ d ∈ found, ∃ r ∈ c.imports, Leads (seen known found) r d.name

/-- What compiling against a loader comes to: the code of the pieces, if they pass. -/
def CompilesTo (locator : Locator) (known : String → Option ModuleCode) (name : String) (w : World)
    (r : Except (List Diagnostic) (List ModuleCode × ModuleCode)) (w' : World) : Prop :=
  ReadsOn w w' ∧ ∀ found c, r = .ok (found, c) → c.name = name ∧ Adds locator known found c

variable {w w' w'' : World}

theorem ReadsOn.trans (h : ReadsOn w w') (h' : ReadsOn w' w'') : ReadsOn w w'' := by
  obtain ⟨_, _, _, rfl⟩ := h
  obtain ⟨cache, context, hc, rfl⟩ := h'
  exact ⟨cache, context, hc, rfl⟩

theorem ReadsOn.cache (h : ReadsOn w w') : w'.cache.All IsReading := by
  obtain ⟨_, _, hc, rfl⟩ := h
  exact hc

theorem ReadsOn.code? (h : ReadsOn w w') (l : Loader) : l.code? w' = l.code? w := by
  obtain ⟨_, _, _, rfl⟩ := h
  rfl

theorem ReadsOn.keyed (h : ReadsOn w w') {l : Loader} (hk : l.Keyed w) : l.Keyed w' := by
  obtain ⟨_, _, _, rfl⟩ := h
  exact ⟨hk.nodup, hk.entry⟩

theorem stable_located (locator : Locator) :
    Search.Stable locator fun s => ∀ d ∈ s.found, ∃ file, locator.find d.name = .ok file where
  read _ _ _ h := h
  found _ s c file _ hfile _ _ _ h := by
    intro d hd
    rcases List.mem_append.mp hd with hd | hd
    · exact h d hd
    · rw [List.mem_singleton.mp hd]
      exact ⟨file, hfile⟩

theorem meets_compileAgainst (ip : Interpreter) (l : Loader) (name : String) {ps : List Piece}
    (ht : ∀ p ∈ ps, p.Tidy) (hw : w.cache.All IsReading) :
    (ip.compileAgainst l name ps).Meets w (CompilesTo ip.locator (l.code? w) name w)
      (fun _ _ => False) := by
  have hgood : Search.Good (l.code? w) { cache := w.cache, found := [] } := ⟨hw, .nil⟩
  have hc := compiled_compile (resolves_resolve ip.locator (l.code? w) (ip.locator.size + 2) []) name
    ps hgood
  have hlocated := (kept_resolve (stable_located ip.locator) (l.code? w) (ip.locator.size + 2)
    []).compile name ps (s := { cache := w.cache, found := [] }) nofun
  refine Act.meets_get_bind ?_
  simp only [StateT.run] at hc hlocated
  generalize compile (Interpreter.resolve ip.locator (l.code? w) (ip.locator.size + 2) []) name
    ps { cache := w.cache, found := [] } = q at hc hlocated ⊢
  obtain ⟨r, s⟩ := q
  refine Act.meets_set_bind (Act.meets_pure
    ⟨⟨_, w.context, hc.finds.good.cache, rfl⟩, fun found c he => ?_⟩)
  cases r with
  | error ds => cases he
  | ok c' =>
    cases he
    obtain ⟨hname, hcheck, hled⟩ := hc.ok c rfl
    exact ⟨hname, hc.finds.good.found, hlocated, ⟨ps, ht, hname ▸ hcheck⟩,
      fun d hd => (hled d hd).resolve_left (by simp)⟩

theorem meets_compileBehind (ip : Interpreter) (history : History) (l : Loader) (name : String)
    {decls : List Decl} (ht : ∀ d ∈ decls, d.Tidy) (hw : w.cache.All IsReading) :
    (ip.compileBehind history l name decls).Meets w (CompilesTo ip.locator (l.code? w) name w)
      (fun _ _ => False) := by
  obtain ⟨hps, hc⟩ := tidy_readDefinitions history.program w.cache 0 hw
  refine Act.meets_bind (Act.meets_get_bind ?_)
  generalize readDefinitions w.cache 0 history.program = q at hps hc ⊢
  obtain ⟨⟨ps, ds⟩, cache⟩ := q
  have hread : ReadsOn w { w with cache } := ⟨cache, w.context, hc, rfl⟩
  refine Act.meets_set_bind (Act.meets_pure ?_)
  simp only
  split
  · have ht' : ∀ p ∈ ps ++ [⟨fragmentSource, decls⟩], p.Tidy := by
      intro p hp
      rcases List.mem_append.mp hp with hp | hp
      · exact hps p hp
      · rw [List.mem_singleton.mp hp]
        exact ht
    refine (meets_compileAgainst ip l name ht' hread.cache).mono ?_ fun _ _ h => h
    intro r w' h
    exact ⟨hread.trans h.1, h.2⟩
  · exact Act.meets_pure ⟨hread, nofun⟩

theorem meets_extendLoader (l : Loader) (mods : List ModuleCode) {Q : Loader → World → Prop}
    {E : Error → World → Prop} (h : Q (l.extend mods w).1 (l.extend mods w).2) :
    (extendLoader l mods).Meets w Q E :=
  h

/-- What a fragment adds to the loader: what was found for it and, unless it is definitions, its own
code. -/
def added (kind : SourceKind) (found : List ModuleCode) (c : ModuleCode) : List ModuleCode :=
  match kind with
  | .definitions => found
  | _ => found ++ [c]

/-- The name under which a fragment is compiled. -/
def compiledAs : SourceKind → String
  | .module name => name
  | .definitions => definitionsModule
  | .expression symbol => symbol.artifact

/-- A run has read texts. If it has accepted the fragment, it has added modules to the loader. -/
inductive Yields (locator : Locator) (l : Loader) (w : World) : RunResult → World → Prop
  | rejected {ds : List Diagnostic} {w' : World} (hr : ReadsOn w w') :
    Yields locator l w (.rejected ds) w'
  | accepted {kind : SourceKind} {found : List ModuleCode} {c : ModuleCode} {w' : World}
    (hr : ReadsOn w w') (hn : c.name = compiledAs kind) (ha : Adds locator (l.code? w) found c) :
    Yields locator l w (.accepted kind (l.extend (added kind found c) w').1)
      (l.extend (added kind found c) w').2

theorem Yields.of_reads {locator : Locator} {l : Loader} {r : RunResult} (hr : ReadsOn w w')
    (h : Yields locator l w' r w'') : Yields locator l w r w'' := by
  cases h with
  | rejected hr' => exact .rejected (hr.trans hr')
  | accepted hr' hn ha => exact .accepted (hr.trans hr') hn (hr.code? l ▸ ha)

theorem yields_runFragment (ip : Interpreter) (text : String) {f : Fragment} (hf : f.Tidy)
    (history : History) (l : Loader) (hw : w.cache.All IsReading) :
    (ip.runFragment text f history l).Meets w (Yields ip.locator l w) (fun _ _ => False) := by
  unfold runFragment
  split
  · rename_i m
    refine Act.meets_bind ((meets_compileAgainst ip l m.name (fun p hp => ?_) hw).mono ?_
      fun _ _ h => h)
    · rw [List.mem_singleton.mp hp]
      exact hf
    · intro r w₁ h
      split
      · exact Act.meets_pure (.rejected h.1)
      · obtain ⟨hname, ha⟩ := h.2 _ _ rfl
        exact Act.meets_bind (meets_extendLoader _ _ (Act.meets_pure (.accepted h.1 rfl ha)))
  · refine Act.meets_bind ((meets_compileBehind ip history l _ hf hw).mono ?_ fun _ _ h => h)
    intro r w₁ h
    split
    · exact Act.meets_pure (.rejected h.1)
    · obtain ⟨hname, ha⟩ := h.2 _ _ rfl
      exact Act.meets_bind (meets_extendLoader _ _ (Act.meets_pure (.accepted h.1 hname ha)))
  · rename_i e
    have ht : ∀ d ∈ [Decl.binding (resultBinding e)], d.Tidy := by
      intro d hd
      rw [List.mem_singleton.mp hd]
      exact hf
    refine Act.meets_bind ((meets_compileBehind ip history l _ ht hw).mono ?_ fun _ _ h => h)
    intro r w₁ h
    split
    · exact Act.meets_pure (.rejected h.1)
    · obtain ⟨hname, ha⟩ := h.2 _ _ rfl
      exact Act.meets_bind (meets_extendLoader _ _ (Act.meets_pure (.accepted h.1 hname ha)))

/-- Without a loader, a program is run against no modules. -/
def suppliedLoader : Option (Supplied Loader) → Loader
  | some (.ours l) => l
  | _ => .empty

/-- The fragment was accepted, with `P`. -/
def AcceptedWith (P : SourceKind → Loader → World → Prop) : Except Error RunResult × World → Prop
  | (.ok (.accepted kind l), w) => P kind l w
  | _ => False

instance {P : SourceKind → Loader → World → Prop} [∀ kind l w, Decidable (P kind l w)] :
    (o : Except Error RunResult × World) → Decidable (AcceptedWith P o)
  | (.ok (.accepted kind l), w) => inferInstanceAs (Decidable (P kind l w))
  | (.ok (.rejected _), _) | (.error _, _) => inferInstanceAs (Decidable False)

theorem AcceptedWith.outcome {P : SourceKind → Loader → World → Prop}
    {o : Except Error RunResult × World} (h : AcceptedWith P o) :
    ∃ kind l w, o = (.ok (.accepted kind l), w) ∧ P kind l w := by
  obtain ⟨r, w⟩ := o
  rcases r with _ | ⟨kind, l⟩ | _
  · cases h
  · exact ⟨kind, l, w, rfl, h⟩
  · cases h

/-- Runs what was read, or tells what is wrong with it. -/
def runParsed (ip : Interpreter) (p : Program) (history : History) (l : Loader) : Act RunResult :=
  match p.parsed with
  | .error es => return .rejected (es.map .ofSyntaxError)
  | .ok f => ip.runFragment p.text f history l

theorem yields_run (ip : Interpreter) {p : Program} (history : History)
    (loader : Option (Supplied Loader)) (hp : IsReading p.parsed) (hw : w.cache.All IsReading) :
    (ip.run (.ours p) history loader).Meets w (Yields ip.locator (suppliedLoader loader) w)
      fun _ w' => ReadsOn w w' := by
  refine Act.meets_bind (Act.meets_inquire fun patience => ?_)
  have hread : ReadsOn w { w with context := { w.context with patience } } :=
    ⟨w.cache, { w.context with patience }, hw, rfl⟩
  refine ⟨?_, hread⟩
  have hrun : ∀ l, (ip.runParsed p history l).Meets
      { w with context := { w.context with patience } } (Yields ip.locator l w)
      fun _ w' => ReadsOn w w' := by
    intro l
    unfold runParsed
    cases hf : p.parsed with
    | error es => exact Act.meets_pure (.rejected hread)
    | ok f =>
      rw [hf] at hp
      exact (yields_runFragment ip p.text hp.tidy history l hread.cache).mono
        (fun _ _ h => h.of_reads hread) fun _ _ h => h.elim
  rcases loader with _ | l | type
  · exact hrun .empty
  · exact hrun l
  · exact Act.meets_throw hread

/-- The loader has the modules that were found and the artifact, and they have passed. -/
structure Accepts (w : World) (l : Loader) (w' : World) : Prop where
  checked : Checked (l.code? w')
  made : ∃ cache context mods, cache.All IsReading ∧
    (l, w') = Loader.empty.extend mods { w with cache, context }

theorem accepts_run (ip : Interpreter) {p : Program} (history : History)
    {loader : Option (Supplied Loader)} (hloader : loader = none ∨ loader = some (.ours .empty))
    (hp : IsReading p.parsed) (hw : w.cache.All IsReading) :
    (ip.run (.ours p) history loader).Meets w
      (fun r w' => ∀ symbol l, r = .accepted (.expression symbol) l → Accepts w l w')
      (fun _ _ => True) := by
  have hempty : suppliedLoader loader = .empty := by
    rcases hloader with rfl | rfl <;> rfl
  refine (yields_run ip history loader hp hw).mono ?_ fun _ _ _ => trivial
  rw [hempty]
  rintro r w' h symbol l rfl
  cases h with
  | @accepted _ found c w₁ hr hn ha =>
    obtain ⟨cache, context, hc, rfl⟩ := hr
    refine ⟨?_, cache, context, found ++ [c], hc, rfl⟩
    have hknown : Loader.empty.code? w = fun _ => none := rfl
    obtain ⟨hfound, -, hpass, hled⟩ := ha
    rw [hknown] at hfound hpass hled
    rw [seen_none] at hpass hled
    have hchecked := checked_snoc hfound.nodup (seen_none found ▸ hfound.passes) hpass hled
    have hcode := funext fun k =>
      (Loader.code?_extend (Loader.keyed_empty { w with cache, context }) (found ++ [c]) k).trans
        Option.or_none
    exact hcode ▸ hchecked

end Interpreter

end LazySession
