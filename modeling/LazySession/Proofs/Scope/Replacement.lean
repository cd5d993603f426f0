import LazySession.Proofs.Scope.Soundness
import Mathlib.Order.WellFoundedSet

/-!
# Replacing a module

A module fragment is checked against what it imports. The modules that import it are linked again
and not checked again, so they may come upon a name that the new version does not export, and the
new version may import what leads back to it. `Exchange.replacement_keeps`: these are the only ways
in which a loader that is consistent can become inconsistent.
-/

namespace LazySession

namespace ModuleCode

variable {code? code?' known : String → Option ModuleCode} {k : String} {c : ModuleCode}

/-! ## Consistent modules -/

/-- No imports lead from a module back to it. -/
def Acyclic (code? : String → Option ModuleCode) : Prop :=
  ∀ k, ¬ Relation.TransGen (Uses code?) k k

/-- No imports lead back, and every module has only names that it defines, that its imports export
or that every module starts with. -/
structure Consistent (code? : String → Option ModuleCode) : Prop where
  acyclic : Acyclic code?
  sees : ∀ k c, code? k = some c → c.SeesAll code?

theorem Founded.mono (hcode : ∀ k c, code? k = some c → code?' k = some c) (h : Founded code? k) :
    Founded code?' k := by
  induction h with
  | intro hc _ ih => exact .intro (hcode _ _ hc) ih

theorem acyclic_of_founded (h : ∀ k c, code? k = some c → Founded code? k) : Acyclic code? := by
  intro k hcycle
  obtain ⟨m, ⟨c, hc, _⟩, _⟩ := Relation.TransGen.head'_iff.mp hcycle
  exact (h k c hc).acyclic hcycle

/-- Of finitely many modules, with all that they import, some import nothing that has not been
looked at. -/
theorem founded_of_acyclic (ha : Acyclic code?) (names : List String)
    (hn : ∀ k c, code? k = some c → k ∈ names)
    (hi : ∀ k c, code? k = some c → ∀ i ∈ c.imports, ∃ d, code? i = some d) :
    ∀ k c, code? k = some c → Founded code? k := by
  have horder : IsStrictOrder String fun a b => Relation.TransGen (Uses code?) b a :=
    { irrefl := ha, trans := fun _ _ _ h h' => h'.trans h }
  have hwf := (List.finite_toSet names).wellFoundedOn (r := fun a b =>
    Relation.TransGen (Uses code?) b a)
  have hall : ∀ k ∈ names, ∀ c, code? k = some c → Founded code? k := by
    intro k hk
    refine hwf.induction (P := fun k => ∀ c, code? k = some c → Founded code? k) hk ?_
    intro k _ ih c hc
    refine .intro hc fun i him => ?_
    obtain ⟨d, hd⟩ := hi k c hc i him
    exact ih i (hn i d hd) (.single ⟨c, hc, him⟩) d hd
  exact fun k c hc => hall k (hn k c hc) c hc

theorem Consistent.sealed (h : Consistent code?) : Sealed code? := by
  intro k hk
  induction hk with
  | intro hc _ ih => exact .intro hc (h.sees _ _ hc) ih

/-! ## A new version -/

theorem Found.founded {cs : List ModuleCode} (h : Found known cs)
    (hk : ∀ k c, known k = some c → Founded known k) :
    ∀ k c, seen known cs k = some c → Founded (seen known cs) k := by
  induction h with
  | nil => exact hk
  | @snoc cs c hcs hp hn hknown ih =>
    have hlast : ∀ d ∈ [c], known d.name = none := by simpa using hknown
    have hmore : ∀ k d, seen known cs k = some d → seen known (cs ++ [c]) k = some d :=
      fun _ _ hd => seen_append hlast hd
    intro k d hd
    by_cases hck : c.name = k
    · have hself : seen known (cs ++ [c]) k = some c := by
        rw [seen, among_snoc (hck ▸ hn) hck, Option.some_or]
      refine .intro hself fun i hi => ?_
      obtain ⟨e, he⟩ := hp.imports hi
      exact (ih i e he).mono hmore
    · have hold : seen known (cs ++ [c]) k = seen known cs k := by
        simp [seen, among, hck]
      exact (ih k d (hold ▸ hd)).mono hmore

theorem Found.seen_of_known {cs : List ModuleCode} (h : Found known cs) (hk : known k = some c) :
    seen known cs k = some c := by
  have hnil : seen known [] k = some c := hk
  exact seen_append h.unknown hnil

section
variable {found : List ModuleCode}

/-- A module in the place of the one of its name, with those that were found for it. -/
structure Replaces (known : String → Option ModuleCode) (found : List ModuleCode) (c : ModuleCode)
    (code? : String → Option ModuleCode) : Prop where
  order : Found known found
  passes : c.Passes (seen known found)
  led : ∀ d ∈ found, ∃ r ∈ c.imports, Leads (seen known found) r d.name
  self : code? c.name = some c
  other : ∀ k, k ≠ c.name → code? k = seen known found k

theorem Replaces.leads (h : Replaces known found c code?) {m : String}
    (hl : Leads (seen known found) m c.name) : Leads code? m c.name := by
  induction hl using Relation.ReflTransGen.head_induction_on with
  | refl => exact .refl
  | @head m n step _ ih =>
    by_cases hm : m = c.name
    · rw [hm]
    · obtain ⟨d, hd, hi⟩ := step
      exact .head ⟨d, by rw [h.other m hm, hd], hi⟩ ih

theorem Replaces.not_found (h : Replaces known found c code?)
    (hback : ¬ Relation.TransGen (Uses code?) c.name c.name) : c.name ∉ found.map (·.name) := by
  intro hm
  obtain ⟨d, hd, hdn⟩ := List.mem_map.mp hm
  obtain ⟨r, hr, hl⟩ := h.led d hd
  exact hback (.head' ⟨c, h.self, hr⟩ (h.leads (hdn ▸ hl)))

theorem Replaces.founded (h : Replaces known found c code?)
    (hk : ∀ k d, known k = some d → Founded known k)
    (hback : ¬ Relation.TransGen (Uses code?) c.name c.name) :
    ∀ k d, code? k = some d → Founded code? k := by
  have hbase := h.order.founded hk
  -- what does not lead to the module is as it was
  have hbeside : ∀ {k}, Founded (seen known found) k → ¬ Leads code? k c.name →
      Founded code? k := by
    intro k hf
    induction hf with
    | @intro k d hd _ ih =>
      intro hnot
      have hne : k ≠ c.name := fun he => hnot (he ▸ .refl)
      have hd' : code? k = some d := by rw [h.other k hne, hd]
      exact .intro hd' fun i hi => ih i hi fun hl => hnot (.head ⟨d, hd', hi⟩ hl)
  have hself : Founded code? c.name := by
    refine .intro h.self fun i hi => ?_
    obtain ⟨d, hd⟩ := h.passes.imports hi
    exact hbeside (hbase i d hd) fun hl => hback (.head' ⟨c, h.self, hi⟩ hl)
  have hall : ∀ {k}, Founded (seen known found) k → Founded code? k := by
    intro k hf
    induction hf with
    | @intro k d hd _ ih =>
      by_cases hne : k = c.name
      · exact hne ▸ hself
      · exact .intro (by rw [h.other k hne, hd]) ih
  intro k d hd
  by_cases hne : k = c.name
  · exact hne ▸ hself
  · exact hall (hbase k d (by rw [← h.other k hne, hd]))

theorem Replaces.sees (h : Replaces known found c code?)
    (hk : ∀ k d, known k = some d → d.SeesAll known)
    (hback : ¬ Relation.TransGen (Uses code?) c.name c.name)
    (hexports : ∀ old, known c.name = some old → old.exports ⊆ c.exports) :
    ∀ k d, code? k = some d → d.SeesAll code? := by
  -- an import of the module that was known is replaced by one that exports more
  have hmore : ∀ i d, seen known found i = some d → ∃ d', code? i = some d' ∧
      d.exports ⊆ d'.exports := by
    intro i d hd
    by_cases hi : i = c.name
    · subst hi
      rw [seen, among_eq_none.mpr (h.not_found hback), Option.none_or] at hd
      exact ⟨c, h.self, hexports d hd⟩
    · exact ⟨d, by rw [h.other i hi, hd], List.Subset.refl _⟩
  intro k d hd
  by_cases hne : k = c.name
  · obtain rfl : c = d := by
      rw [hne, h.self] at hd
      exact Option.some.inj hd
    refine h.passes.seesAll.congr fun i hi => h.other i ?_
    exact fun he => hback (.single ⟨c, h.self, he ▸ hi⟩)
  · rw [h.other k hne] at hd
    have hsees : d.SeesAll (seen known found) := by
      rcases Option.or_eq_some_iff.mp hd with hd | ⟨_, hd⟩
      · exact (h.order.passes d (mem_of_among hd).1).seesAll
      · exact (hk k d hd).mono fun i _ e he =>
          ⟨e, h.order.seen_of_known he, List.Subset.refl _⟩
    exact hsees.mono fun i _ => hmore i

end

end ModuleCode

/-! ## Linking without cycles -/

namespace Loader

open ModuleCode

variable {l : Loader} {w : World} {set : Setting} {code? : String → Option ModuleCode}

/-- Linking by `linkOne` does not fail with the kind of error, and no module gets other code. -/
def LinksOn (kind : ErrorKind) (l : Loader) (code? : String → Option ModuleCode)
    (linkOne : String → Act InstanceId) (name : String) : Prop :=
  ∀ w, l.code? w = code? → (linkOne name).Meets w (fun _ w' => l.code? w' = code?)
    (fun e _ => e.is kind = false)

theorem linksOn_imports {kind : ErrorKind} {linkOne : String → Act InstanceId} (mod : String)
    (scope : ScopeId) (own : List String) (is : List String)
    (hone : ∀ i ∈ is, LinksOn kind l code? linkOne i) :
    ∀ w, l.code? w = code? → (linkImports linkOne mod scope own is).Meets w
      (fun _ w' => l.code? w' = code?) (fun e _ => e.is kind = false) := by
  induction is with
  | nil => exact fun _ hw => Act.meets_pure hw
  | cons i is ih =>
    intro w hw
    refine Act.meets_bind (Act.meets_during ((hone i List.mem_cons_self w hw).mono ?_ ?_))
    · intro inst w' hw'
      refine Act.meets_get_bind (Act.meets_set_bind (ih (fun j hj => ?_) _ hw'))
      exact hone j (List.mem_cons_of_mem _ hj)
    · exact fun e _ he => he

theorem linksOn_evalStrict {kind : ErrorKind} (hkind : kind ≠ .canceled) (mod : String)
    (fields : Table Value) (ds : List Definition) :
    ∀ (steps : Nat) (w : World), l.code? w = code? →
      (evalStrict set mod fields steps ds).Meets w (fun _ w' => l.code? w' = code?)
        (fun e _ => e.is kind = false) := by
  induction ds with
  | nil => exact fun _ _ hw => Act.meets_pure hw
  | cons d ds ih =>
    intro steps w hw
    unfold evalStrict
    split
    · refine Act.meets_bind (Act.meets_during (Act.meets_evaluate ?_))
      split
      · exact ih _ _ hw
      · simp [Error.is, hkind]
    · exact ih _ _ hw

theorem code?_setInstance (l : Loader) (w : World) (id : EntryId) (inst : Instance) :
    l.code? (setInstance w id inst) = l.code? w := by
  funext k
  unfold code? setInstance
  cases l.modules.get? k with
  | none => rfl
  | some i =>
    simp only [Option.bind_some, Array.getElem?_modify]
    split
    · cases w.entries[i]? <;> rfl
    · rfl

theorem linksOn_makeInstance {kind : ErrorKind} (hkind : kind ≠ .canceled)
    {linkOne : String → Act InstanceId} (id : EntryId) (name : String) (c : ModuleCode)
    (hone : ∀ i ∈ c.imports, LinksOn kind l code? linkOne i) (hw : l.code? w = code?) :
    (makeInstance set linkOne id name c).Meets w (fun _ w' => l.code? w' = code?)
      (fun e _ => e.is kind = false) := by
  rw [makeInstance_eq]
  refine Act.meets_get_bind (Act.meets_set_bind (Act.meets_bind ?_))
  have hw' : l.code? { w with heap := (newModuleScope w.heap).2 } = code? := hw
  refine (linksOn_imports name _ _ _ hone _ hw').mono (fun _ w₁ h₁ => ?_) fun _ _ h => h
  refine Act.meets_get_bind (Act.meets_set_bind (Act.meets_bind ?_))
  have h₁' : l.code? { w₁ with heap :=
      (defineAll (newModuleScope w.heap).1 c.defs w₁.heap).2 } = code? := h₁
  refine (linksOn_evalStrict hkind name _ _ _ _ h₁').mono (fun _ w₂ h₂ => ?_) fun _ _ h => h
  refine Act.meets_get_bind (Act.meets_set_bind (Act.meets_pure ?_))
  rw [code?_setInstance]
  exact h₂

/-- The modules in `visiting` lead to the one that is linked, so they are all different, and their
number stays below the fuel. -/
theorem linksOn_link (set : Setting) (hf : ∀ k c, code? k = some c → Founded code? k)
    (hn : ∀ k c, code? k = some c → k ∈ l.modules.names) (fuel : Nat) :
    ∀ visiting name, visiting.Nodup → (∀ v ∈ visiting, ∃ c, code? v = some c) →
      (∀ v ∈ visiting, Relation.TransGen (ModuleCode.Uses code?) v name) →
      l.modules.length < visiting.length + fuel →
      LinksOn .importCycle l code? (link set l fuel visiting) name := by
  induction fuel with
  | zero =>
    intro visiting name hnodup hcode _ hlt
    -- there are no more modules than the loader has
    have hsub : visiting ⊆ l.modules.names := fun v hv => by
      obtain ⟨c, hc⟩ := hcode v hv
      exact hn v c hc
    have hle := (hnodup.subperm hsub).length_le
    rw [Table.names, List.length_map] at hle
    omega
  | succ fuel ih =>
    intro visiting name hnodup hcode hleads hlt w hw
    unfold link
    refine Act.meets_get_bind ?_
    split
    · exact Act.meets_throw rfl
    · rename_i id e hid
      obtain ⟨id', hk, hid⟩ := Option.bind_eq_some_iff.mp hid
      obtain ⟨e', he, heq⟩ := Option.map_eq_some_iff.mp hid
      obtain ⟨rfl, rfl⟩ := Prod.mk.inj heq
      have hc : code? name = some e'.code := by rw [← hw]; simp [Loader.code?, hk, he]
      have hnew : name ∉ visiting := fun hm => (hf name _ hc).acyclic (hleads name hm)
      rw [if_neg (by simpa using hnew)]
      split
      · exact Act.meets_pure hw
      · have hvisit : ∀ i ∈ e'.code.imports,
            LinksOn .importCycle l code? (link set l fuel (visiting ++ [name])) i := by
          intro i hi
          refine ih _ i ?_ ?_ ?_ ?_
          · rw [List.nodup_append]
            refine ⟨hnodup, by simp, fun a ha b hb hab => hnew ?_⟩
            rw [← List.mem_singleton.mp hb, ← hab]
            exact ha
          · intro v hv
            rcases List.mem_append.mp hv with hv | hv
            · exact hcode v hv
            · exact ⟨_, List.mem_singleton.mp hv ▸ hc⟩
          · intro v hv
            rcases List.mem_append.mp hv with hv | hv
            · exact (hleads v hv).tail ⟨_, hc, hi⟩
            · exact .single ⟨_, List.mem_singleton.mp hv ▸ hc, hi⟩
          · rw [List.length_append, List.length_singleton]
            omega
        have hkind : ErrorKind.importCycle ≠ .canceled := by decide
        exact linksOn_makeInstance hkind _ _ _ hvisit hw

/-- Loading never ends with a cycle of imports. -/
def LinksAll (l : Loader) (w : World) : Prop :=
  ∀ set name, (l.load set name).Meets w (fun _ _ => True) fun e _ => e.is .importCycle = false

theorem mem_names_of_code? {k : String} {c : ModuleCode} (h : l.code? w k = some c) :
    k ∈ l.modules.names := by
  obtain ⟨id, hid, _⟩ := Option.bind_eq_some_iff.mp h
  exact Table.get?_isSome.mp (by rw [hid]; rfl)

theorem linksAll (hf : ∀ k c, l.code? w k = some c → Founded (l.code? w) k) : l.LinksAll w := by
  intro set name
  refine Act.meets_bind (Act.meets_inquire fun patience => ⟨?_, rfl⟩)
  have hlink := linksOn_link set hf (fun k c => mem_names_of_code?) (l.modules.length + 1)
    [] name List.nodup_nil nofun nofun (by simp)
  exact (hlink { w with context := { w.context with patience } } rfl).mono
    (fun _ _ _ => trivial) fun _ _ h => h

theorem Consistent.founded (h : ModuleCode.Consistent (l.code? w)) :
    ∀ k c, l.code? w k = some c → Founded (l.code? w) k :=
  founded_of_acyclic h.acyclic l.modules.names (fun _ _ => mem_names_of_code?)
    fun k c hc => (h.sees k c hc).imports

end Loader

/-! ## Module fragments -/

namespace Interpreter

open ModuleCode

variable {w : World}

/-- What a module fragment that is accepted leaves behind. -/
structure Submits (l : Loader) (w : World) (name : String) (l' : Loader) (w' : World) : Prop where
  made : ∃ cache context mods, cache.All IsReading ∧
    (l', w') = l.extend mods { w with cache, context }
  replaces : ∃ found c, c.name = name ∧ Replaces (l.code? w) found c (l'.code? w')

theorem replaces_extend {locator : Locator} {l : Loader} (hk : l.Keyed w)
    {found : List ModuleCode} {c : ModuleCode} (ha : Adds locator (l.code? w) found c) :
    Replaces (l.code? w) found c ((l.extend (found ++ [c]) w).1.code?
      (l.extend (found ++ [c]) w).2) where
  order := ha.order
  passes := ha.passes
  led := ha.led
  self := by simp [Loader.code?_extend hk, among]
  other k hne := by
    have hlast : ¬ c.name = k := fun h => hne h.symm
    rw [Loader.code?_extend hk, List.reverse_append, seen, ← among_reverse ha.order.nodup]
    simp [among, hlast]

theorem submits_run (ip : Interpreter) {p : Program} (history : History) {l : Loader}
    (hp : IsReading p.parsed) (hw : w.cache.All IsReading) (hk : l.Keyed w) :
    (ip.run (.ours p) history (some (.ours l))).Meets w
      (fun r w' => ∀ name l', r = .accepted (.module name) l' → Submits l w name l' w')
      (fun _ _ => True) := by
  refine (yields_run ip history (some (.ours l)) hp hw).mono ?_ fun _ _ _ => trivial
  rintro r w' h name l' rfl
  cases h with
  | @accepted _ found c w₁ hr hn ha =>
    have hreplaces := replaces_extend (hr.keyed hk) (hr.code? l ▸ ha)
    rw [hr.code? l] at hreplaces
    obtain ⟨cache, context, hc, rfl⟩ := hr
    exact ⟨⟨cache, context, found ++ [c], hc, rfl⟩, found, c, hn, hreplaces⟩

end Interpreter

namespace Exchange

/-- A module fragment is accepted against a consistent loader. The new loader is free of cycles
unless the imports of the new version lead back to it. If that is so and the new version exports all
that the old one did, every module still has only names that it sees. -/
theorem replacement_keeps {w : World} (hw : w.cache.All IsReading) {x : Exchange}
    (hx : Steps ⟨⟨w, [.empty]⟩, []⟩ x) {l : Loader} (hl : l ∈ x.family.loaders)
    (hc : ModuleCode.Consistent (l.code? x.world)) (ip : Interpreter) {p : Program}
    (hp : IsReading p.parsed) (history : History) {name : String} {l' : Loader} {w' : World}
    (hrun : (ip.run (.ours p) history (some (.ours l))).run x.world =
      (.ok (.accepted (.module name) l'), w'))
    (hback : ¬ Relation.TransGen (ModuleCode.Uses (l'.code? w')) name name) :
    ModuleCode.Acyclic (l'.code? w') ∧ l'.LinksAll w' ∧
    ((∀ old new, l.code? x.world name = some old → l'.code? w' name = some new →
        old.exports ⊆ new.exports) →
      ModuleCode.Consistent (l'.code? w') ∧ l'.NamesDefined w') := by
  have hsound := sound_steps (sound_start hw) hx
  have hsubmits := Interpreter.submits_run ip history hp hsound.cache (hsound.coherent.keyed l hl)
  unfold Act.Meets at hsubmits
  rw [hrun] at hsubmits
  obtain ⟨⟨cache, context, mods, hcache, hmade⟩, found, c, rfl, hr⟩ := hsubmits name l' rfl
  have hfounded := hr.founded (Loader.Consistent.founded hc) hback
  have hacyclic := ModuleCode.acyclic_of_founded hfounded
  refine ⟨hacyclic, Loader.linksAll hfounded, fun hexports => ?_⟩
  have hconsistent : ModuleCode.Consistent (l'.code? w') :=
    ⟨hacyclic, hr.sees hc.sees hback fun old hold => hexports old c hold hr.self⟩
  refine ⟨hconsistent, ?_⟩
  obtain ⟨⟨w₁, ls⟩, vs⟩ := x
  -- reading texts and making the loader are steps
  have hnext : Sound ⟨⟨w', l' :: ls⟩, vs⟩ := by
    have h₁ := sound_step hsound (.other hcache context)
    have h₂ := sound_step h₁ (.extend hl mods)
    obtain ⟨rfl, rfl⟩ := Prod.mk.inj hmade
    exact h₂
  exact hnext.defines List.mem_cons_self hconsistent.sealed

/-! ### A module and one that imports it -/

def pair : List ModuleCode :=
  [⟨"A", [], [⟨⟨⟨2, 1⟩, "x", [], false, .int ⟨2, 5⟩ 1⟩, "A", none⟩]⟩,
   ⟨"B", ["A"], [⟨⟨⟨3, 1⟩, "y", [], false, .var ⟨3, 5⟩ "x"⟩, "B", none⟩]⟩]

def pairLoader : Loader × World := Loader.empty.extend pair { cache := .disabled }

theorem steps_pair : Steps ⟨⟨{ cache := .disabled }, [.empty]⟩, []⟩
    ⟨⟨pairLoader.2, [pairLoader.1, .empty]⟩, []⟩ :=
  .single (.extend List.mem_cons_self pair)

theorem consistent_pair : ModuleCode.Consistent (pairLoader.1.code? pairLoader.2) := by
  have hcode : pairLoader.1.code? pairLoader.2 = ModuleCode.among pair.reverse := funext fun k =>
    (Loader.code?_extend (Loader.keyed_empty _) pair k).trans Option.or_none
  rw [hcode]
  have hA : ModuleCode.among pair.reverse "A" = some (pair.get ⟨0, by decide⟩) := rfl
  have hsees : ∀ k c, ModuleCode.among pair.reverse k = some c →
      c.SeesAll (ModuleCode.among pair.reverse) := by
    intro k c hc
    obtain ⟨hm, _⟩ := ModuleCode.mem_of_among hc
    simp only [pair, List.reverse_cons, List.reverse_nil, List.nil_append, List.cons_append,
      List.mem_cons, List.not_mem_nil, or_false] at hm
    rcases hm with rfl | rfl
    · refine ⟨fun i hi => ?_, fun d hd => ?_⟩
      · rw [List.mem_singleton.mp hi]
        exact ⟨_, hA⟩
      · rw [List.mem_singleton.mp hd]
        exact .var (.inr (.inr (.inl ⟨"A", List.mem_singleton_self _, _, hA, "x", by decide,
          .inr rfl⟩)))
    · refine ⟨nofun, fun d hd => ?_⟩
      rw [List.mem_singleton.mp hd]
      exact .int
  refine ⟨ModuleCode.acyclic_of_founded fun k c hc => ?_, hsees⟩
  have hfounded : ModuleCode.Founded (ModuleCode.among pair.reverse) "A" := .intro hA nofun
  obtain ⟨hm, rfl⟩ := ModuleCode.mem_of_among hc
  simp only [pair, List.reverse_cons, List.reverse_nil, List.nil_append, List.cons_append,
    List.mem_cons, List.not_mem_nil, or_false] at hm
  rcases hm with rfl | rfl
  · refine .intro hc fun i hi => ?_
    rw [List.mem_singleton.mp hi]
    exact hfounded
  · exact hfounded

/-- A module fragment run against the pair. -/
def submit (text : String) : Except Error RunResult × World :=
  ((⟨⟨[], ".mhs", []⟩, ⟨.empty, 10⟩⟩ : Interpreter).run
    (.ours ⟨text, Fragment.ofText Interpreter.fragmentSource text⟩) {}
    (some (.ours pairLoader.1))).run pairLoader.2

/-- A new version with another value and one more name. -/
theorem replacement_keeps_more : ∃ l' w',
    submit "module A where\nx = 2\nz = x\n" = (.ok (.accepted (.module "A") l'), w') ∧
      (l'.code? w' "A").map (·.exports) = some ["x", "z"] ∧
      ModuleCode.Consistent (l'.code? w') ∧ l'.LinksAll w' ∧ l'.NamesDefined w' := by
  have hrun : Interpreter.AcceptedWith (fun kind l' w' => kind = .module "A" ∧
      (l'.code? w' "A").map (·.exports) = some ["x", "z"] ∧
      (l'.code? w' "A").map (·.imports) = some []) (submit "module A where\nx = 2\nz = x\n") := by
    decide +kernel
  obtain ⟨_, l', w', hr, rfl, hexports, himports⟩ := hrun.outcome
  have hback : ¬ Relation.TransGen (ModuleCode.Uses (l'.code? w')) "A" "A" := by
    intro hcycle
    obtain ⟨m, ⟨c, hc, hm⟩, _⟩ := Relation.TransGen.head'_iff.mp hcycle
    rw [hc] at himports
    have hnone : c.imports = [] := Option.some.inj himports
    rw [hnone] at hm
    cases hm
  obtain ⟨_, hlinks, hkeeps⟩ := replacement_keeps (w := { cache := .disabled })
    (by rintro _ ⟨⟩) steps_pair List.mem_cons_self consistent_pair _ ⟨_, _, .inl rfl⟩ _ hr hback
  obtain ⟨hconsistent, hnames⟩ := hkeeps fun old new hold hnew => by
    have hx : (pairLoader.1.code? pairLoader.2 "A").map (·.exports) = some ["x"] := by
      decide +kernel
    change pairLoader.1.code? pairLoader.2 "A" = some old at hold
    rw [hold] at hx
    rw [hnew] at hexports
    have hold' : old.exports = ["x"] := Option.some.inj hx
    have hnew' : new.exports = ["x", "z"] := Option.some.inj hexports
    rw [hold', hnew']
    simp
  exact ⟨l', w', hr, hexports, hconsistent, hlinks, hnames⟩

/-- A new version that drops a name leaves the module that imports it without the name. A new
version that imports what imports it cannot be loaded. -/
theorem replacement_breaks : ModuleCode.Consistent (pairLoader.1.code? pairLoader.2) ∧
    (∃ l' w', submit "module A where\nz = 2\n" = (.ok (.accepted (.module "A") l'), w') ∧
      ¬ l'.NamesDefined w') ∧
    ∃ l' w', submit "module A where\nimport B\nx = 1\n" =
        (.ok (.accepted (.module "A") l'), w') ∧
      ¬ ModuleCode.Acyclic (l'.code? w') ∧ ¬ l'.LinksAll w' := by
  refine ⟨consistent_pair, ?_, ?_⟩
  · have hrun : Interpreter.AcceptedWith (fun kind l' w' => kind = .module "A" ∧
        (l'.load ⟨.empty, 10⟩ "B").Meets w'
          (fun id w₁ => ∃ i ∈ w₁.instances[id]?, (i.read ⟨.empty, 10⟩ "y").Meets w₁
            (fun _ _ => False) fun e _ => e.isUndefined = true) fun _ _ => False)
        (submit "module A where\nz = 2\n") := by
      decide +kernel
    obtain ⟨_, l', w', hr, rfl, hbroken⟩ := hrun.outcome
    refine ⟨l', w', hr, fun hnames => ?_⟩
    have hlib : HostLibrary.empty.Relays := fun _ _ _ vs hv v hm => by
      cases hv
      cases hm
    refine ((hbroken.and (hnames ⟨.empty, 10⟩ hlib "B")).mono ?_ fun _ _ h => h.1).world
      (P := fun _ => False)
    rintro id w₁ ⟨⟨i, hi, hread⟩, j, hj, hdefined⟩
    obtain rfl : i = j := Option.some.inj (hi.symm.trans hj)
    refine ((hread.and (hdefined "y")).mono (fun _ _ h => h.1) ?_).world (P := fun _ => False)
    rintro e _ ⟨hyes, hno⟩
    rw [hno] at hyes
    cases hyes
  · have hrun : Interpreter.AcceptedWith (fun kind l' w' => kind = .module "A" ∧
        (l'.code? w' "A").map (·.imports) = some ["B"] ∧
        (l'.code? w' "B").map (·.imports) = some ["A"] ∧
        (l'.load ⟨.empty, 10⟩ "A").Meets w' (fun _ _ => False) fun e _ => e.is .importCycle = true)
        (submit "module A where\nimport B\nx = 1\n") := by
      decide +kernel
    obtain ⟨_, l', w', hr, rfl, hA, hB, hcycle⟩ := hrun.outcome
    refine ⟨l', w', hr, fun hacyclic => ?_, fun hlinks => ?_⟩
    · obtain ⟨a, ha, hai⟩ := Option.map_eq_some_iff.mp hA
      obtain ⟨b, hb, hbi⟩ := Option.map_eq_some_iff.mp hB
      refine hacyclic "A" (.tail (.single ⟨a, ha, ?_⟩) ⟨b, hb, ?_⟩)
      · rw [hai]
        exact List.mem_singleton_self _
      · rw [hbi]
        exact List.mem_singleton_self _
    · refine ((hcycle.and (hlinks ⟨.empty, 10⟩ "A")).mono (fun _ _ h => h.1) ?_).world
        (P := fun _ => False)
      rintro e _ ⟨hyes, hno⟩
      rw [hno] at hyes
      cases hyes

end Exchange

end LazySession
