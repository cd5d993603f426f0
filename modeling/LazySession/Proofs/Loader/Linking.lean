import LazySession.Proofs.Act
import LazySession.Proofs.Loader.Names
import LazySession.Proofs.Loader.Sharing

/-!
# Linking

`Loader.Linked` says what a linked module looks like: its definitions, made in a scope that has the
fields of the instances its loader holds for the imports. `Loader.meets_link`: whatever linking
comes to, every linked module of every loader looks like this afterwards, and none that was linked
before has changed.
-/

namespace LazySession

/-! ## What stays -/

/-- From `w` to `w'`, instances stay, entries keep their code and stay linked, and of the heap only
the scopes in `opened` change. -/
structure World.Keeps (opened : List ScopeId) (w w' : World) : Prop where
  heap : w.heap.Fills opened w'.heap
  instances : ∀ (i : InstanceId) (inst : Instance), w.instances[i]? = some inst →
    w'.instances[i]? = some inst
  entries : ∀ (id : EntryId) (e : Entry), w.entries[id]? = some e →
    ∃ linked, w'.entries[id]? = some { e with linked } ∧ ∀ i, e.linked = some i → linked = some i

namespace World

variable {opened : List ScopeId} {w w' w'' : World}

theorem Keeps.refl (opened : List ScopeId) (w : World) : Keeps opened w w where
  heap := .refl _ _
  instances _ _ h := h
  entries _ e h := ⟨e.linked, h, fun _ hi => hi⟩

theorem Keeps.trans (k : Keeps opened w w') (k' : Keeps opened w' w'') : Keeps opened w w'' where
  heap := k.heap.trans k'.heap
  instances i inst h := k'.instances i inst (k.instances i inst h)
  entries id e h := by
    obtain ⟨linked, h', hl⟩ := k.entries id e h
    obtain ⟨linked', h'', hl'⟩ := k'.entries id _ h'
    exact ⟨linked', h'', fun i hi => hl' i (hl i hi)⟩

theorem Keeps.of_heap (f : w.heap.Fills opened w'.heap) (hi : w'.instances = w.instances)
    (he : w'.entries = w.entries) : Keeps opened w w' where
  heap := f
  instances i inst h := by rw [hi, h]
  entries id e h := ⟨e.linked, by rw [he, h], fun _ hi => hi⟩

theorem Keeps.widen (k : Keeps [] w w') (opened : List ScopeId) : Keeps opened w w' where
  heap := k.heap.mono nofun
  instances := k.instances
  entries := k.entries

theorem Keeps.narrow (k : Keeps opened w w') (hnew : ∀ id ∈ opened, w.heap.scopes.size ≤ id) :
    Keeps [] w w' where
  heap := k.heap.narrow hnew
  instances := k.instances
  entries := k.entries

end World

namespace Loader

/-- The instance that the entry of a module holds. -/
def instance? (l : Loader) (w : World) (name : String) : Option Instance := do
  let id ← l.modules.get? name
  let e ← w.entries[id]?
  let i ← e.linked
  w.instances[i]?

theorem instance?_eq_some {l : Loader} {w : World} {name : String} {inst : Instance} :
    l.instance? w name = some inst ↔ ∃ id e i, l.modules.get? name = some id ∧
      w.entries[id]? = some e ∧ e.linked = some i ∧ w.instances[i]? = some inst := by
  simp only [instance?, Option.bind_eq_bind, Option.bind_eq_some_iff]
  grind

theorem instance?_keeps {opened : List ScopeId} {l : Loader} {w w' : World} {name : String}
    {inst : Instance} (h : l.instance? w name = some inst) (k : w.Keeps opened w') :
    l.instance? w' name = some inst := by
  rw [instance?_eq_some] at h ⊢
  obtain ⟨id, e, i, hl, he, hi, hinst⟩ := h
  obtain ⟨linked, he', hlinked⟩ := k.entries id e he
  exact ⟨id, _, i, hl, he', hlinked i hi, k.instances i inst hinst⟩

/-- The fields of the instance of a module; none if it is not linked. -/
def fields (l : Loader) (w : World) (name : String) : Table Value :=
  ((l.instance? w name).map (·.fields)).getD []

/-- The names that the imports of a module put into its scope, one import after the other. -/
def importedNames (l : Loader) (w : World) (own imports : List String) : Table Value :=
  imports.foldl (fun names i => importNames own i (l.fields w i) names) []

theorem importedNames_congr {l l' : Loader} {w w' : World} (own : List String)
    {imports : List String} (h : ∀ i ∈ imports, l.instance? w i = l'.instance? w' i) :
    l.importedNames w own imports = l'.importedNames w' own imports := by
  unfold importedNames
  generalize ([] : Table Value) = names
  induction imports generalizing names with
  | nil => rfl
  | cons i is ih =>
    have hf : l.fields w i = l'.fields w' i := by
      unfold fields
      rw [h i List.mem_cons_self]
    rw [List.foldl_cons, List.foldl_cons, hf]
    exact ih (fun j hj => h j (List.mem_cons_of_mem _ hj)) _

/-- Every imported name is a field of the instance that the loader holds for an import. -/
theorem mem_importedNames {l : Loader} {w : World} {own imports : List String} {x : String}
    {v : Value} (h : (l.importedNames w own imports).get? x = some v) :
    ∃ i ∈ imports, ∃ inst, l.instance? w i = some inst ∧ ∃ f, (f, v) ∈ inst.fields ∧
      (x = i ++ "." ++ f ∨ x = f ∧ f ∉ own) := by
  have step : ∀ (is : List String) (names : Table Value),
      (is.foldl (fun names i => importNames own i (l.fields w i) names) names).get? x =
        some v → names.get? x = some v ∨ ∃ i ∈ is, ∃ inst, l.instance? w i = some inst ∧
          ∃ f, (f, v) ∈ inst.fields ∧ (x = i ++ "." ++ f ∨ x = f ∧ f ∉ own) := by
    intro is
    induction is with
    | nil => exact fun names h => .inl h
    | cons i is ih =>
      intro names h
      rcases ih _ h with h | ⟨j, hj, hinst⟩
      · rcases mem_importNames h with h | ⟨f, hf, hx⟩
        · exact .inl h
        · cases hi : l.instance? w i with
          | none => simp [fields, hi] at hf
          | some inst =>
            rw [fields, hi] at hf
            exact .inr ⟨i, List.mem_cons_self, inst, hi, f, hf, hx⟩
      · exact .inr ⟨j, List.mem_cons_of_mem _ hj, hinst⟩
  rcases step imports [] h with h | h
  · cases h
  · exact h

/-- The fields of all imports are there. -/
theorem isSome_importedNames {l : Loader} {w : World} {own imports : List String} {i x f : String}
    {inst : Instance} (hi : i ∈ imports) (hinst : l.instance? w i = some inst)
    (hf : f ∈ inst.fields.names) (hx : x = i ++ "." ++ f ∨ x = f ∧ f ∉ own) :
    ((l.importedNames w own imports).get? x).isSome := by
  have keep : ∀ (is : List String) (names : Table Value), (names.get? x).isSome →
      ((is.foldl (fun names i => importNames own i (l.fields w i) names) names).get? x).isSome := by
    intro is
    induction is with
    | nil => exact fun names h => h
    | cons j is ih => exact fun names h => ih _ (isSome_importNames (.inl h))
  unfold importedNames
  generalize ([] : Table Value) = names
  induction imports generalizing names with
  | nil => cases hi
  | cons j is ih =>
    rcases List.mem_cons.mp hi with rfl | hi
    · refine keep is _ (isSome_importNames (.inr ⟨f, ?_, hx⟩))
      rw [fields, hinst]
      exact hf
    · exact ih hi _

/-! ## Linked modules -/

/-- The module with the given code has been linked: `inst` has its definitions, made in `scope`.
There, its own fields are on top of those of the instances that the loader now holds for the
imports. -/
structure Linked (l : Loader) (w : World) (code : ModuleCode) (inst : Instance)
    (root scope : ScopeId) : Prop where
  name : inst.name = code.name
  nodup : inst.fields.names.Nodup
  names : ∀ x, x ∈ inst.fields.names ↔ x ∈ code.exports
  made : ∀ p ∈ inst.fields, ∃ d ∈ code.defs, d.binding.name = p.1 ∧ d.Made scope w.heap p.2
  imports : ∀ i ∈ code.imports, (l.instance? w i).isSome
  outer : root < scope
  builtins : w.heap.scopes[root]? = some ⟨Builtin.all.map fun b => (b.name, .builtin b), none⟩
  scope : ∃ vars, w.heap.scopes[scope]? = some ⟨vars, some root⟩ ∧
    ∀ x, vars.get? x =
      (inst.fields.get? x).or ((l.importedNames w code.exports code.imports).get? x)

section
variable {l l' : Loader} {w w' : World} {code : ModuleCode} {inst : Instance}
variable {root scope : ScopeId} {opened : List ScopeId}

theorem Linked.keeps (h : l.Linked w code inst root scope) (k : w.Keeps opened w')
    (hr : root ∉ opened) (hs : scope ∉ opened) : l.Linked w' code inst root scope where
  name := h.name
  nodup := h.nodup
  names := h.names
  made p hp := by
    obtain ⟨d, hd, hn, hm⟩ := h.made p hp
    exact ⟨d, hd, hn, hm.mono k.heap⟩
  imports i hi := by
    obtain ⟨j, hj⟩ := Option.isSome_iff_exists.mp (h.imports i hi)
    rw [instance?_keeps hj k]
    rfl
  outer := h.outer
  builtins := k.heap.scopes _ _ hr h.builtins
  scope := by
    obtain ⟨vars, hv, hx⟩ := h.scope
    have hi : ∀ i ∈ code.imports, l.instance? w i = l.instance? w' i := by
      intro i hi
      obtain ⟨j, hj⟩ := Option.isSome_iff_exists.mp (h.imports i hi)
      rw [hj, instance?_keeps hj k]
    refine ⟨vars, k.heap.scopes _ _ hs hv, fun x => ?_⟩
    rw [hx, importedNames_congr _ hi]

theorem Linked.congr (h : l.Linked w code inst root scope)
    (hl : ∀ i ∈ code.imports, l.modules.get? i = l'.modules.get? i) :
    l'.Linked w code inst root scope := by
  have hi : ∀ i ∈ code.imports, l.instance? w i = l'.instance? w i := by
    intro i hi
    unfold instance?
    rw [hl i hi]
  exact {
    name := h.name
    nodup := h.nodup
    names := h.names
    made := h.made
    imports := fun i hm => by rw [← hi i hm]; exact h.imports i hm
    outer := h.outer
    builtins := h.builtins
    scope := by
      rw [← importedNames_congr _ hi]
      exact h.scope }

end

/-- All loaders of a family see linked modules that fit together. The scopes in `opened` belong to
modules that are being linked. -/
structure Coherent (ls : List Loader) (opened : List ScopeId) (w : World) : Prop where
  keyed : ∀ l ∈ ls, l.Keyed w
  shares : ∀ l ∈ ls, ∀ l' ∈ ls, ∀ k id c, l.modules.get? k = some id →
    l'.modules.get? k = some id → l.code? w k = some c →
    ∀ i ∈ c.imports, l.modules.get? i = l'.modules.get? i
  linked : ∀ l ∈ ls, ∀ (k : String) (id : EntryId) (e : Entry) (i : InstanceId),
    l.modules.get? k = some id → w.entries[id]? = some e → e.linked = some i →
    ∃ inst root scope, w.instances[i]? = some inst ∧ root ∉ opened ∧ scope ∉ opened ∧
      l.Linked w e.code inst root scope

section
variable {ls : List Loader} {opened : List ScopeId} {w w' : World} {l : Loader}

theorem code?_keeps {k : String} (hk : l.Keyed w) (hw : w.Keeps opened w') :
    l.code? w' k = l.code? w k := by
  unfold code?
  cases hg : l.modules.get? k with
  | none => rfl
  | some id =>
    obtain ⟨e, he, _⟩ := hk.get? hg
    obtain ⟨linked, he', _⟩ := hw.entries id e he
    simp [he, he']

/-- It is enough to look at the modules that have been linked in between. -/
theorem Coherent.keeps (h : Coherent ls opened w) (hw : w.Keeps opened w')
    (hnew : ∀ l ∈ ls, ∀ (k : String) (id : EntryId) (e : Entry) (i : InstanceId),
      l.modules.get? k = some id → w.entries[id]? = some e → e.linked = none →
      w'.entries[id]? = some { e with linked := some i } →
      ∃ inst root scope, w'.instances[i]? = some inst ∧ root ∉ opened ∧ scope ∉ opened ∧
        l.Linked w' e.code inst root scope) : Coherent ls opened w' where
  keyed l hl := by
    refine ⟨(h.keyed l hl).nodup, fun p hp => ?_⟩
    obtain ⟨e, he, hn⟩ := (h.keyed l hl).entry p hp
    obtain ⟨linked, he', _⟩ := hw.entries _ e he
    exact ⟨_, he', hn⟩
  shares l hl l' hl' k id c hk hk' hc := by
    rw [code?_keeps (h.keyed l hl) hw] at hc
    exact h.shares l hl l' hl' k id c hk hk' hc
  linked l hl k id e' i hk he' hi := by
    obtain ⟨e, he, _⟩ := (h.keyed l hl).get? hk
    obtain ⟨linked, he₁, hlinked⟩ := hw.entries id e he
    obtain rfl : { e with linked } = e' := by simpa [he'] using he₁.symm
    simp only at hi
    subst hi
    cases hold : e.linked with
    | none => exact hnew l hl k id e i hk he hold he'
    | some j =>
      obtain rfl : i = j := by simpa using hlinked j hold
      obtain ⟨inst, root, scope, hinst, hr, hs, hlk⟩ := h.linked l hl k id e i hk he hold
      exact ⟨inst, root, scope, hw.instances i inst hinst, hr, hs, hlk.keeps hw hr hs⟩

theorem Coherent.keeps_heap (h : Coherent ls opened w) (f : w.heap.Fills opened w'.heap)
    (hi : w'.instances = w.instances) (he : w'.entries = w.entries) : Coherent ls opened w' := by
  refine h.keeps (.of_heap f hi he) ?_
  intro l _ k id e i _ he₁ hn he₂
  rw [he, he₁] at he₂
  have := congrArg Entry.linked (Option.some.inj he₂)
  rw [hn] at this
  cases this

theorem Coherent.mono {opened' : List ScopeId} (h : Coherent ls opened w)
    (hs : ∀ s ∈ opened', s ∈ opened) : Coherent ls opened' w where
  keyed := h.keyed
  shares := h.shares
  linked l hl k id e i hk he hi := by
    obtain ⟨inst, root, scope, hinst, hr, hs', hlk⟩ := h.linked l hl k id e i hk he hi
    exact ⟨inst, root, scope, hinst, fun hm => hr (hs _ hm), fun hm => hs' (hs _ hm), hlk⟩

theorem Coherent.open_new (h : Coherent ls opened w) {scope : ScopeId}
    (hs : w.heap.scopes.size ≤ scope) : Coherent ls (scope :: opened) w where
  keyed := h.keyed
  shares := h.shares
  linked l hl k id e i hk he hi := by
    obtain ⟨inst, root, s, hinst, hr, hs', hlk⟩ := h.linked l hl k id e i hk he hi
    have hroot := (Array.getElem?_eq_some_iff.mp hlk.builtins).1
    obtain ⟨vars, hv, _⟩ := hlk.scope
    have hscope := (Array.getElem?_eq_some_iff.mp hv).1
    refine ⟨inst, root, s, hinst, ?_, ?_, hlk⟩
    · rw [List.mem_cons, not_or]
      exact ⟨Nat.ne_of_lt (Nat.lt_of_lt_of_le hroot hs), hr⟩
    · rw [List.mem_cons, not_or]
      exact ⟨Nat.ne_of_lt (Nat.lt_of_lt_of_le hscope hs), hs'⟩

end

/-! ## One module -/

/-- What linking leaves behind, also if it fails: the modules in `visiting` have not been linked in
between. -/
structure Advances (ls : List Loader) (opened : List ScopeId) (l : Loader) (visiting : List String)
    (w w' : World) : Prop where
  coherent : Coherent ls opened w'
  keeps : w.Keeps [] w'
  visited : ∀ k ∈ visiting, ∀ id, l.modules.get? k = some id → w'.entries[id]? = w.entries[id]?

/-- The module is linked, and this is its instance. -/
def Holds (l : Loader) (w : World) (name : String) (i : InstanceId) : Prop :=
  ∃ id e, l.modules.get? name = some id ∧ w.entries[id]? = some e ∧ e.linked = some i

section
variable {ls : List Loader} {opened : List ScopeId} {l : Loader} {visiting : List String}
variable {w w' w'' : World} {set : Setting}

theorem Advances.refl (h : Coherent ls opened w) : Advances ls opened l visiting w w where
  coherent := h
  keeps := .refl _ _
  visited _ _ _ _ := rfl

theorem Holds.instance? (h : Coherent ls opened w) (hl : l ∈ ls) {name : String} {i : InstanceId}
    (hh : l.Holds w name i) : ∃ inst, w.instances[i]? = some inst ∧
      l.instance? w name = some inst := by
  obtain ⟨id, e, hk, he, hi⟩ := hh
  obtain ⟨inst, _, _, hinst, _⟩ := h.linked l hl name id e i hk he hi
  exact ⟨inst, hinst, instance?_eq_some.mpr ⟨id, e, i, hk, he, hi, hinst⟩⟩

/-- Linking by `linkOne` while the modules in `visiting` are being linked. -/
def Links (ls : List Loader) (l : Loader) (visiting : List String)
    (linkOne : String → Act InstanceId) : Prop :=
  ∀ name opened w, Coherent ls opened w → (∀ s ∈ opened, s < w.heap.scopes.size) →
    (linkOne name).Meets w
      (fun i w' => Advances ls opened l visiting w w' ∧ l.Holds w' name i)
      (fun _ w' => Advances ls opened l visiting w w')

/-- The imports in `done` have been linked since the world `w`, and their fields are in `scope`. -/
structure Imports (ls : List Loader) (opened : List ScopeId) (l : Loader) (visiting : List String)
    (own : List String) (root scope : ScopeId) (w : World) (done : List String) (w' : World) :
    Prop where
  coherent : Coherent ls (scope :: opened) w'
  keeps : w.Keeps [scope] w'
  visited : ∀ k ∈ visiting, ∀ id, l.modules.get? k = some id → w'.entries[id]? = w.entries[id]?
  scope : w'.heap.scopes[scope]? = some ⟨l.importedNames w' own done, some root⟩
  imports : ∀ i ∈ done, (l.instance? w' i).isSome

variable {own done : List String} {root scope : ScopeId} {linkOne : String → Act InstanceId}

/-- A further import, linked on the way from `w'` to `w''`. -/
theorem Imports.snoc (hI : Imports ls opened l visiting own root scope w done w')
    (ha : Advances ls (scope :: opened) l visiting w' w'') {i : String} {inst : Instance}
    (hi : l.instance? w'' i = some inst) :
    Imports ls opened l visiting own root scope w (done ++ [i])
      { w'' with heap := importFields scope own i inst.fields w''.heap } := by
  have hf := fills_importFields scope own i inst.fields w''.heap
  have hk : World.Keeps [scope] w''
      { w'' with heap := importFields scope own i inst.fields w''.heap } :=
    .of_heap hf rfl rfl
  have hsame : ∀ j ∈ done ++ [i], l.instance? w'' j =
      l.instance? { w'' with heap := importFields scope own i inst.fields w''.heap } j :=
    fun _ _ => rfl
  have hdone : ∀ j ∈ done, l.instance? w' j = l.instance? w'' j := by
    intro j hj
    obtain ⟨k, hk⟩ := Option.isSome_iff_exists.mp (hI.imports j hj)
    rw [hk, instance?_keeps hk ha.keeps]
  refine ⟨?_, (hI.keeps.trans (ha.keeps.widen _)).trans hk, ?_, ?_, ?_⟩
  · refine ha.coherent.keeps_heap (hf.mono ?_) rfl rfl
    exact fun s hs => List.mem_cons.mpr (.inl (List.mem_singleton.mp hs))
  · intro k hk id hid
    rw [← hI.visited k hk id hid]
    exact ha.visited k hk id hid
  · have hs := ha.keeps.heap.scopes _ _ (by simp) hI.scope
    rw [scope_importFields own i inst.fields hs, ← importedNames_congr own hsame,
      importedNames_congr own hdone]
    simp [importedNames, fields, hi]
  · intro j hj
    rw [← hsame j hj]
    rcases List.mem_append.mp hj with hj | hj
    · rw [← hdone j hj]
      exact hI.imports j hj
    · rw [List.mem_singleton.mp hj, hi]
      rfl

theorem Imports.opened_lt (hI : Imports ls opened l visiting own root scope w done w')
    (ho : ∀ s ∈ opened, s < w.heap.scopes.size) : ∀ s ∈ scope :: opened, s < w'.heap.scopes.size := by
  intro s hs
  by_cases he : s = scope
  · rw [he]
    exact (Array.getElem?_eq_some_iff.mp hI.scope).1
  · have hs' := ho s ((List.mem_cons.mp hs).resolve_left he)
    have := hI.keeps.heap.scopes s _ (by simpa using he) (Array.getElem?_eq_getElem hs')
    exact (Array.getElem?_eq_some_iff.mp this).1

theorem meets_linkImports (hone : Links ls l visiting linkOne) (hl : l ∈ ls) (name : String)
    (ho : ∀ s ∈ opened, s < w.heap.scopes.size) (is : List String) :
    ∀ (done : List String) (w' : World),
      Imports ls opened l visiting own root scope w done w' →
      (linkImports linkOne name scope own is).Meets w'
        (fun _ w'' => Imports ls opened l visiting own root scope w (done ++ is) w'')
        (fun _ w'' => Coherent ls (scope :: opened) w'' ∧ w.Keeps [scope] w'' ∧
          ∀ k ∈ visiting, ∀ id, l.modules.get? k = some id →
            w''.entries[id]? = w.entries[id]?) := by
  induction is with
  | nil =>
    intro done w' hI
    rw [List.append_nil]
    exact Act.meets_pure hI
  | cons i is ih =>
    intro done w' hI
    refine Act.meets_bind (Act.meets_during ((hone i _ w' hI.coherent (hI.opened_lt ho)).mono ?_ ?_))
    · rintro inst w'' ⟨ha, hh⟩
      obtain ⟨j, hj, hi⟩ := hh.instance? ha.coherent hl
      refine Act.meets_get_bind (Act.meets_set_bind ?_)
      rw [hj, List.append_cons]
      exact ih _ _ (hI.snoc ha hi)
    · intro e w'' ha
      refine ⟨ha.coherent, hI.keeps.trans (ha.keeps.widen _), fun k hk id hid => ?_⟩
      rw [← hI.visited k hk id hid]
      exact ha.visited k hk id hid

theorem meets_evalStrict (set : Setting) (mod : String) (fields : Table Value)
    (ds : List Definition) : ∀ (steps : Nat) (w' : World), w.heap.Grows Heap.anyThunk w'.heap →
      w'.instances = w.instances → w'.entries = w.entries →
      (evalStrict set mod fields steps ds).Meets w'
        (fun _ w'' => w.heap.Grows Heap.anyThunk w''.heap ∧ w''.instances = w.instances ∧
          w''.entries = w.entries)
        (fun _ w'' => w.heap.Grows Heap.anyThunk w''.heap ∧ w''.instances = w.instances ∧
          w''.entries = w.entries) := by
  induction ds with
  | nil => exact fun _ w' g hi he => Act.meets_pure ⟨g, hi, he⟩
  | cons d ds ih =>
    intro steps w' g hi he
    unfold evalStrict
    split
    · refine Act.meets_bind (Act.meets_during (Act.meets_evaluate ?_))
      have g' := EvalState.grows_force set (Act.start steps w')
        ((fields.get? d.binding.name).getD .unit)
      split <;> rename_i hr <;> rw [hr] at g'
      · exact ih _ _ (g.trans g') hi he
      · exact ⟨g.trans g', hi, he⟩
    · exact ih _ _ g hi he

/-- The world with an instance for an entry. -/
def setInstance (w : World) (id : EntryId) (inst : Instance) : World :=
  { w with
    instances := w.instances.push inst
    entries := w.entries.modify id fun e => { e with linked := some w.instances.size } }

theorem keeps_setInstance {id : EntryId} {e : Entry} (he : w.entries[id]? = some e)
    (hn : e.linked = none) (inst : Instance) : w.Keeps [] (setInstance w id inst) where
  heap := .refl _ _
  instances i inst' hi := by
    have := (Array.getElem?_eq_some_iff.mp hi).1
    simp only [setInstance, Array.getElem?_push]
    rw [if_neg (by omega), hi]
  entries id' e' he' := by
    simp only [setInstance, Array.getElem?_modify]
    by_cases h : id = id'
    · subst h
      obtain rfl : e = e' := by simpa [he] using he'
      exact ⟨some w.instances.size, by simp [he], by simp [hn]⟩
    · exact ⟨e'.linked, by simp [h, he'], fun _ hi => hi⟩

/-- The module of an entry has been linked. -/
theorem Coherent.setInstance (h : Coherent ls opened w) (hl : l ∈ ls) {name : String}
    {id : EntryId} {e : Entry} {inst : Instance} (hk : l.modules.get? name = some id)
    (he : w.entries[id]? = some e) (hn : e.linked = none) (hr : root ∉ opened)
    (hs : scope ∉ opened) (hlk : l.Linked w e.code inst root scope) :
    Coherent ls opened (setInstance w id inst) := by
  have hkeeps := keeps_setInstance he hn inst
  refine h.keeps (hkeeps.widen _) ?_
  intro l' hl' k id' e' i hk' he' hn' hi
  by_cases hid : id = id'
  · -- every loader with the entry has it for the same name, and the same imports
    subst hid
    obtain rfl : e = e' := by simpa [he] using he'
    obtain rfl : name = k := by
      obtain ⟨e₁, he₁, hn₁⟩ := (h.keyed l hl).get? hk
      obtain ⟨e₂, he₂, hn₂⟩ := (h.keyed l' hl').get? hk'
      rw [← hn₁, ← hn₂, Option.some.inj (he₁.symm.trans he₂)]
    obtain rfl : w.instances.size = i := by
      simpa [Loader.setInstance, Array.getElem?_modify, he] using hi
    have hc : l.code? w name = some e.code := by simp [code?, hk, he]
    refine ⟨inst, root, scope, by simp [Loader.setInstance], hr, hs, ?_⟩
    exact (hlk.keeps hkeeps (by simp) (by simp)).congr
      (h.shares l hl l' hl' name id e.code hk hk' hc)
  · simp only [Loader.setInstance, Array.getElem?_modify, if_neg hid, he'] at hi
    have := congrArg Entry.linked (Option.some.inj hi)
    rw [hn'] at this
    cases this

/-- The definitions of a module whose imports have been linked, made and evaluated. -/
theorem Imports.linked {code : ModuleCode} {fields : Table Value} {h' : Heap}
    (hI : Imports ls opened l visiting code.exports root scope w code.imports w')
    (hd : Defined scope code.defs fields w'.heap h') (g : h'.Grows Heap.anyThunk w''.heap)
    (hi : w''.instances = w'.instances) (he : w''.entries = w'.entries) (hlt : root < scope)
    (hr : w.heap.scopes[root]? = some ⟨Builtin.all.map fun b => (b.name, .builtin b), none⟩) :
    l.Linked w'' code ⟨code.name, fields⟩ root scope := by
  have hsame : ∀ j ∈ code.imports, l.instance? w' j = l.instance? w'' j := by
    intro j _
    unfold instance?
    rw [hi, he]
  have hne : root ∉ [scope] := by simpa using Nat.ne_of_lt hlt
  obtain ⟨vars, hvars, hx⟩ := hd.scope _ _ hI.scope
  refine ⟨rfl, hd.nodup, hd.names, ?_, ?_, hlt, ?_, vars, g.scopes _ _ hvars, ?_⟩
  · intro p hp
    obtain ⟨d, hdm, hn, hm⟩ := hd.made p hp
    exact ⟨d, hdm, hn, hm.mono (g.fills [])⟩
  · intro j hj
    rw [← hsame j hj]
    exact hI.imports j hj
  · exact g.scopes _ _ (hd.fills.scopes _ _ hne (hI.keeps.heap.scopes _ _ hne hr))
  · intro x
    rw [hx, importedNames_congr _ hsame]

/-- The scope that a new module gets, behind that of the builtin functions. -/
def newModuleScope (h : Heap) : ScopeId × Heap :=
  h.newRoot.2.newScope [] (some h.newRoot.1)

theorem newModuleScope_fst (h : Heap) : (newModuleScope h).1 = h.scopes.size + 1 := by
  simp [newModuleScope, Heap.newRoot, Heap.newScope]

theorem grows_newModuleScope (h : Heap) : h.Grows Heap.anyThunk (newModuleScope h).2 :=
  ((Heap.Grows.refl _ h).newScope _ _).newScope _ _

theorem root_newModuleScope (h : Heap) : (newModuleScope h).2.scopes[h.scopes.size]? =
    some ⟨Builtin.all.map fun b => (b.name, .builtin b), none⟩ := by
  simp only [newModuleScope, Heap.newRoot, Heap.newScope]
  rw [Array.getElem?_push_lt (by simp), Array.getElem_push_eq]

theorem scope_newModuleScope (h : Heap) :
    (newModuleScope h).2.scopes[(newModuleScope h).1]? = some ⟨[], some h.scopes.size⟩ :=
  Array.getElem?_push_size

theorem makeInstance_eq (set : Setting) (linkOne : String → Act InstanceId) (id : EntryId)
    (name : String) (code : ModuleCode) :
    makeInstance set linkOne id name code = (do
      let w ← get
      MonadStateOf.set { w with heap := (newModuleScope w.heap).2 }
      linkImports linkOne name (newModuleScope w.heap).1 code.exports code.imports
      let w₂ ← get
      MonadStateOf.set
        { w₂ with heap := (defineAll (newModuleScope w.heap).1 code.defs w₂.heap).2 }
      evalStrict set name (defineAll (newModuleScope w.heap).1 code.defs w₂.heap).1 0 code.defs
      let w₄ ← get
      MonadStateOf.set (setInstance w₄ id
        ⟨name, (defineAll (newModuleScope w.heap).1 code.defs w₂.heap).1⟩)
      return w₄.instances.size) := rfl

theorem meets_makeInstance {name : String} (hone : Links ls l (visiting ++ [name]) linkOne)
    (hl : l ∈ ls) {id : EntryId} {e : Entry} (hc : Coherent ls opened w)
    (ho : ∀ s ∈ opened, s < w.heap.scopes.size) (hk : l.modules.get? name = some id)
    (he : w.entries[id]? = some e) (hn : e.linked = none) (hv : name ∉ visiting) :
    (makeInstance set linkOne id name e.code).Meets w
      (fun i w' => Advances ls opened l visiting w w' ∧ l.Holds w' name i)
      (fun _ w' => Advances ls opened l visiting w w') := by
  obtain rfl : e.code.name = name := by
    obtain ⟨e', he', hn'⟩ := (hc.keyed l hl).get? hk
    rw [← hn', Option.some.inj (he.symm.trans he')]
  rw [makeInstance_eq]
  refine Act.meets_get_bind (Act.meets_set_bind (Act.meets_bind ?_))
  have hsize := newModuleScope_fst w.heap
  have hempty := scope_newModuleScope w.heap
  have hroot := root_newModuleScope w.heap
  have g₁ := grows_newModuleScope w.heap
  generalize newModuleScope w.heap = p at *
  obtain ⟨scope, h₁⟩ := p
  simp only at hsize hempty hroot g₁ ⊢
  have hnew : ∀ s ∈ [scope], w.heap.scopes.size ≤ s := by simp [hsize]
  have hw : w.Keeps [scope] { w with heap := h₁ } := .of_heap (g₁.fills _) rfl rfl
  -- what holds on every way out
  have hout : ∀ w', Coherent ls (scope :: opened) w' → World.Keeps [scope] { w with heap := h₁ } w' →
      (∀ k ∈ visiting ++ [e.code.name], ∀ id, l.modules.get? k = some id →
        w'.entries[id]? = w.entries[id]?) → Advances ls opened l visiting w w' := by
    intro w' hc' hk' hv'
    exact {
      coherent := hc'.mono fun s hs => List.mem_cons_of_mem _ hs
      keeps := (hw.trans hk').narrow hnew
      visited := fun k hm id hid => hv' k (List.mem_append_left _ hm) id hid }
  have hI : Imports ls opened l (visiting ++ [e.code.name]) e.code.exports w.heap.scopes.size scope
      { w with heap := h₁ } [] { w with heap := h₁ } :=
    { coherent := (hc.open_new (hsize ▸ Nat.le_succ _)).keeps_heap (g₁.fills _) rfl rfl
      keeps := .refl _ _
      visited := fun _ _ _ _ => rfl
      scope := hempty
      imports := nofun }
  have ho₁ : ∀ s ∈ opened, s < h₁.scopes.size :=
    fun s hs => Nat.lt_of_lt_of_le (ho s hs) g₁.scopes_size
  refine (meets_linkImports hone hl e.code.name ho₁ e.code.imports [] _ hI).mono ?_ ?_
  · intro _ w₂ hI₂
    rw [List.nil_append] at hI₂
    refine Act.meets_get_bind (Act.meets_set_bind (Act.meets_bind ?_))
    have hd := defined_defineAll scope e.code.defs w₂.heap
    generalize defineAll scope e.code.defs w₂.heap = p at hd
    obtain ⟨fields, h₃⟩ := p
    simp only at hd ⊢
    have hcoh : ∀ w₄ : World, h₃.Grows Heap.anyThunk w₄.heap → w₄.instances = w₂.instances →
        w₄.entries = w₂.entries →
        Coherent ls (scope :: opened) w₄ ∧ World.Keeps [scope] { w with heap := h₁ } w₄ := by
      intro w₄ g hi₄ he₄
      have hf : w₂.heap.Fills [scope] w₄.heap := hd.fills.trans (g.fills _)
      refine ⟨hI₂.coherent.keeps_heap (hf.mono (by simp)) hi₄ he₄, ?_⟩
      exact hI₂.keeps.trans (.of_heap hf hi₄ he₄)
    refine (meets_evalStrict set _ _ _ _ { w₂ with heap := h₃ } (.refl _ _) rfl rfl).mono ?_ ?_
    · rintro _ w₄ ⟨g, hi₄, he₄⟩
      obtain ⟨hc₄, hk₄⟩ := hcoh w₄ g hi₄ he₄
      have hlk := hI₂.linked hd g hi₄ he₄ (hsize ▸ Nat.lt_succ_self _) hroot
      have hent : w₄.entries[id]? = some e := by
        rw [he₄, hI₂.visited _ (by simp) id hk]
        exact he
      have hr : w.heap.scopes.size ∉ opened := fun hm => Nat.lt_irrefl _ (ho _ hm)
      have hs : scope ∉ opened := fun hm => Nat.not_succ_lt_self (hsize ▸ ho _ hm)
      have ha := hout w₄ hc₄ hk₄ (by rw [he₄]; exact hI₂.visited)
      refine Act.meets_get_bind (Act.meets_set_bind (Act.meets_pure ⟨?_, ?_⟩))
      · refine ⟨ha.coherent.setInstance hl hk hent hn hr hs hlk,
          ha.keeps.trans (keeps_setInstance hent hn _), ?_⟩
        intro k hm id' hid'
        have hne : ¬ id = id' := by
          rintro rfl
          obtain ⟨e', he', hn'⟩ := (hc.keyed l hl).get? hid'
          rw [Option.some.inj (he.symm.trans he'), hn'] at hv
          exact hv hm
        rw [← ha.visited k hm id' hid']
        simp [setInstance, Array.getElem?_modify, hne]
      · exact ⟨id, { e with linked := some w₄.instances.size }, hk,
          by simp [setInstance, Array.getElem?_modify, hent], rfl⟩
    · rintro _ w₄ ⟨g, hi₄, he₄⟩
      obtain ⟨hc₄, hk₄⟩ := hcoh w₄ g hi₄ he₄
      exact hout w₄ hc₄ hk₄ (by rw [he₄]; exact hI₂.visited)
  · rintro _ w₂ ⟨hc₂, hk₂, hv₂⟩
    exact hout w₂ hc₂ hk₂ hv₂

/-- Whatever it comes to, the loaders see linked modules that fit together; a module is
linked only once. -/
theorem meets_link (set : Setting) (hl : l ∈ ls) (fuel : Nat) :
    ∀ visiting, Links ls l visiting (link set l fuel visiting) := by
  induction fuel with
  | zero => exact fun _ _ _ _ hc _ => Act.meets_throw (.refl hc)
  | succ fuel ih =>
    intro visiting name opened w hc ho
    unfold link
    refine Act.meets_get_bind ?_
    split
    · exact Act.meets_throw (.refl hc)
    · rename_i id e hid
      obtain ⟨id', hk, hid⟩ := Option.bind_eq_some_iff.mp hid
      obtain ⟨e', he, heq⟩ := Option.map_eq_some_iff.mp hid
      obtain ⟨rfl, rfl⟩ := Prod.mk.inj heq
      split
      · exact Act.meets_throw (.refl hc)
      · rename_i hv
        have hv' : name ∉ visiting := by simpa using hv
        split
        · rename_i i hi
          exact Act.meets_pure ⟨.refl hc, id', e', hk, he, hi⟩
        · rename_i hn
          exact meets_makeInstance (ih _) hl hc ho hk he hn hv'

end

end Loader

end LazySession
