import LazySession.Proofs.Loader.Linking
import LazySession.Proofs.Scope.Checked
import LazySession.Proofs.Scope.Evaluation

/-!
# Linking on sound ground

`Loader.Secure`: the fields of all linked modules that have passed the checks, with all that they
import, lead only to sound ground. `Loader.sound_link`: linking keeps this, through whatever loader,
and linking through a loader whose modules have only names that they see never fails for a name.
-/

namespace LazySession

/-- Evaluation met a name that is not defined. -/
def Error.isUndefined (e : Error) : Bool := e.runtime?.any (·.fault.isUndefined)

namespace Loader

/-! ## Sound fields -/

/-- There is sound ground for the fields of all modules that are linked and have passed the checks.
The scopes in `opened` belong to modules that are being linked, and are not part of it yet. -/
structure Secure (ls : List Loader) (opened : List ScopeId) (G : Ground) (w : World) : Prop where
  heap : w.heap.Sound G
  outside : ∀ s ∈ opened, ¬ G.scopes s
  fields : ∀ l ∈ ls, ∀ k inst, ModuleCode.Vouched (l.code? w) k → l.instance? w k = some inst →
    ∀ p ∈ inst.fields, p.2.Sound G w.heap
  founded : ∀ l ∈ ls, ∀ k, (l.instance? w k).isSome → ModuleCode.Founded (l.code? w) k

section
variable {ls : List Loader} {opened : List ScopeId} {G G' : Ground} {w w' : World} {l : Loader}

/-- Nothing has been linked in between. -/
theorem Secure.setHeap {opened' : List ScopeId} (h : Secure ls opened G w)
    (hh : w'.heap.Sound G') (hG : G.Within G') (hw : w.heap.Wider w'.heap)
    (ho : ∀ s ∈ opened', ¬ G'.scopes s) (hi : w'.instances = w.instances)
    (he : w'.entries = w.entries) : Secure ls opened' G' w' := by
  have hcode : ∀ l : Loader, l.code? w' = l.code? w := fun l => by unfold code?; rw [he]
  have hinst : ∀ l : Loader, l.instance? w' = l.instance? w := fun l => by
    unfold instance?
    rw [he, hi]
  refine ⟨hh, ho, fun l hl k inst hv hk p hp => ?_, fun l hl k hk => ?_⟩
  · rw [hcode] at hv
    rw [hinst] at hk
    exact (h.fields l hl k inst hv hk p hp).mono hG hw
  · rw [hcode]
    rw [hinst] at hk
    exact h.founded l hl k hk

theorem outside_extends {opened : List ScopeId} {h : Heap} (hG : G.Extends h G')
    (ho : ∀ s ∈ opened, ¬ G.scopes s) (hlt : ∀ s ∈ opened, s < h.scopes.size) :
    ∀ s ∈ opened, ¬ G'.scopes s :=
  fun s hs hG' => (hG.scopes s hG').elim (ho s hs) fun hle => Nat.not_le_of_lt (hlt s hs) hle

/-- Loaders that share the entry of a module agree on whether it has passed. -/
theorem Coherent.vouched (hc : Coherent ls opened w) {l' : Loader} (hl : l ∈ ls) (hl' : l' ∈ ls)
    {k : String} {id : EntryId} (hk : l.modules.get? k = some id)
    (hk' : l'.modules.get? k = some id) (hv : ModuleCode.Vouched (l.code? w) k) :
    ModuleCode.Vouched (l'.code? w) k := by
  refine hv.congr (fun k => l'.modules.get? k = l.modules.get? k) ?_ ?_ (hk'.trans hk.symm)
  · intro k hk
    unfold code?
    rw [hk]
  · intro k c hk hcode i hi
    obtain ⟨id, hid, _⟩ := Option.bind_eq_some_iff.mp hcode
    exact (hc.shares l hl l' hl' k id c hid (hk.trans hid) hcode i hi).symm

/-! ## One module -/

/-- The names that a module sees are those in its scope, if all that it imports is linked. -/
theorem sees_cases (hc : Coherent ls opened w) (hl : l ∈ ls) {c : ModuleCode} {root : ScopeId}
    (hi : ∀ i ∈ c.imports, (l.instance? w i).isSome)
    (hr : w.heap.scopes[root]? = some ⟨Builtin.all.map fun b => (b.name, .builtin b), none⟩)
    {x : String} (hx : c.Sees (l.code? w) x) :
    x ∈ c.exports ∨ ((l.importedNames w c.exports c.imports).get? x).isSome ∨
      w.heap.Knows root x := by
  rcases hx with hx | ⟨i, him, d, hd, y, hy, hx⟩ | hx
  · exact .inl hx
  · obtain ⟨inst, hinst⟩ := Option.isSome_iff_exists.mp (hi i him)
    obtain ⟨id, e, j, hk, he, hj, hinst'⟩ := instance?_eq_some.mp hinst
    obtain ⟨inst', _, _, hj', _, _, hlk⟩ := hc.linked l hl i id e j hk he hj
    obtain rfl : inst' = inst := Option.some.inj (hj'.symm.trans hinst')
    obtain rfl : e.code = d := by simpa [code?, hk, he] using hd
    have hf := (hlk.names y).mpr hy
    rcases hx with rfl | rfl
    · exact .inr (.inl (isSome_importedNames him hinst hf (.inl rfl)))
    · by_cases hown : x ∈ c.exports
      · exact .inl hown
      · exact .inr (.inl (isSome_importedNames him hinst hf (.inr ⟨rfl, hown⟩)))
  · refine .inr (.inr ?_)
    rw [Heap.Knows, Heap.lookup_eq hr, Option.isSome_or, Table.get?_isSome.mpr, Bool.true_or]
    simpa [Table.names] using hx

/-- The definitions of a module that has passed, with all that it imports, come into the ground. -/
theorem Secure.define (hs : Secure ls opened G w) (hc : Coherent ls opened w) (hl : l ∈ ls)
    {k : String} {c : ModuleCode} (hk : l.code? w k = some c)
    (hv : ModuleCode.Vouched (l.code? w) k) (hi : ∀ i ∈ c.imports, (l.instance? w i).isSome)
    {root scope : ScopeId} {fields : Table Value} {h' : Heap}
    (hr : w.heap.scopes[root]? = some ⟨Builtin.all.map fun b => (b.name, .builtin b), none⟩)
    (hroot : G.scopes root) (hlt : root < scope)
    (hscope : w.heap.scopes[scope]? = some ⟨l.importedNames w c.exports c.imports, some root⟩)
    (hn : ¬ G.scopes scope) (hd : Defined scope c.defs fields w.heap h') :
    h'.Sound ((G.addScope scope).addThunks fields) ∧
      ∀ p ∈ fields, p.2.Sound ((G.addScope scope).addThunks fields) h' := by
  obtain ⟨hk', hsees, hvi⟩ := hv
  obtain rfl := Option.some.inj (hk.symm.trans hk')
  refine hs.heap.define hd hscope hn ⟨hroot, hlt⟩ (fun x v hx => ?_) fun d hdm => ?_
  · obtain ⟨i, him, inst, hinst, y, hy, _⟩ := mem_importedNames hx
    exact hs.fields l hl i inst (hvi i him) hinst _ hy
  · exact (hsees.defs d hdm).mono fun x => Or.imp_right (sees_cases hc hl hi hr)

/-- Strict definitions are evaluated; if the fields are sound, this does not fail for a name. -/
theorem sound_evalStrict {set : Setting} (hlib : set.host.Relays) (mod : String)
    (fields : Table Value) (good : Prop) (ds : List Definition) :
    ∀ (steps : Nat) (w : World) (G : Ground), w.heap.Sound G →
      (good → ∀ p ∈ fields, p.2.Sound G w.heap) →
      (evalStrict set mod fields steps ds).Meets w
        (fun _ w' => ∃ G', G.Extends w.heap G' ∧ w'.heap.Sound G')
        (fun e w' => (∃ G', G.Extends w.heap G' ∧ w'.heap.Sound G') ∧
          (good → e.isUndefined = false)) := by
  induction ds with
  | nil => exact fun _ w G hh _ => Act.meets_pure ⟨G, .refl _ _, hh⟩
  | cons d ds ih =>
    intro steps w G hh hf
    unfold evalStrict
    split
    · refine Act.meets_bind (Act.meets_during (Act.meets_evaluate ?_))
      have g := EvalState.grows_force set (Act.start steps w)
        ((fields.get? d.binding.name).getD .unit)
      -- a sound field is forced on sound ground, any other one beside it
      obtain ⟨G', hG, hh', hr⟩ : ∃ G', G.Extends w.heap G' ∧
          ((Act.start steps w).force set ((fields.get? d.binding.name).getD .unit)).2.heap.Sound
            G' ∧ (good → (Control.give ((Act.start steps w).force set
              ((fields.get? d.binding.name).getD .unit)).1).Sound G'
            ((Act.start steps w).force set ((fields.get? d.binding.name).getD .unit)).2.heap) := by
        by_cases hgood : good
        · have hv : ((fields.get? d.binding.name).getD .unit).Sound G w.heap := by
            cases hx : fields.get? d.binding.name with
            | none => exact .alone rfl
            | some v => exact hf hgood _ (Table.mem_of_get? hx)
          obtain ⟨G', hG, hh', hr⟩ := EvalState.sound_force (s := Act.start steps w) hlib hh hv
          exact ⟨G', hG, hh', fun _ => hr⟩
        · obtain ⟨G', hG, hh'⟩ := EvalState.sound_force_any (s := Act.start steps w) hlib hh _
          exact ⟨G', hG, hh', fun h => absurd h hgood⟩
      generalize EvalState.force set _ _ = p at g hh' hr ⊢
      obtain ⟨r, s⟩ := p
      cases r with
      | ok v =>
        refine (ih s.steps (Act.finish w s) G' hh' fun h p hp => ?_).mono ?_ ?_
        · exact (hf h p hp).mono hG.within g.wider
        · rintro _ w' ⟨G'', hG', hh''⟩
          exact ⟨G'', hG.trans hG' g.smaller, hh''⟩
        · rintro e w' ⟨⟨G'', hG', hh''⟩, he⟩
          exact ⟨⟨G'', hG.trans hG' g.smaller, hh''⟩, he⟩
      | error e => exact ⟨⟨G', hG, hh'⟩, hr⟩
    · exact ih _ _ _ hh hf

/-- An instance is one that was there, or the new one. -/
theorem instance?_setInstance (hc : Coherent ls opened w) (hl : l ∈ ls) {k : String} {id : EntryId}
    {e : Entry} (he : w.entries[id]? = some e) {inst inst' : Instance}
    (h : l.instance? (setInstance w id inst) k = some inst') :
    l.modules.get? k = some id ∧ inst' = inst ∨ l.instance? w k = some inst' := by
  obtain ⟨id', e', i, hk, he', hi, hinst⟩ := instance?_eq_some.mp h
  simp only [setInstance, Array.getElem?_modify] at he' hinst
  by_cases hid : id = id'
  · subst hid
    simp only [if_pos, he, Option.map_some, Option.some.injEq] at he'
    subst he'
    cases hi
    rw [Array.getElem?_push_size] at hinst
    exact .inl ⟨hk, (Option.some.inj hinst).symm⟩
  · rw [if_neg hid] at he'
    obtain ⟨inst₀, _, _, hi₀, _⟩ := hc.linked l hl k id' e' i hk he' hi
    have hlt := (Array.getElem?_eq_some_iff.mp hi₀).1
    rw [Array.getElem?_push_lt hlt, ← Array.getElem?_eq_getElem hlt] at hinst
    exact .inr (instance?_eq_some.mpr ⟨id', e', i, hk, he', hi, hinst⟩)

/-- A module has been linked. -/
theorem Secure.setInstance (h : Secure ls opened G w) (hc : Coherent ls opened w) (hl : l ∈ ls)
    {name : String} {id : EntryId} {e : Entry} {inst : Instance}
    (hk : l.modules.get? name = some id) (he : w.entries[id]? = some e) (hn : e.linked = none)
    (hi : ∀ i ∈ e.code.imports, (l.instance? w i).isSome)
    (hf : ModuleCode.Vouched (l.code? w) name → ∀ p ∈ inst.fields, p.2.Sound G w.heap) :
    Secure ls opened G (setInstance w id inst) := by
  have hkeeps := keeps_setInstance he hn inst
  have hcode : ∀ l' ∈ ls, l'.code? (Loader.setInstance w id inst) = l'.code? w :=
    fun l' hl' => funext fun k => code?_keeps (hc.keyed l' hl') hkeeps
  -- every loader has the entry for the same name
  have hname : ∀ l' ∈ ls, ∀ k, l'.modules.get? k = some id → k = name := by
    intro l' hl' k hk'
    obtain ⟨e₁, he₁, hn₁⟩ := (hc.keyed l hl).get? hk
    obtain ⟨e₂, he₂, hn₂⟩ := (hc.keyed l' hl').get? hk'
    rw [← hn₁, ← hn₂, Option.some.inj (he₁.symm.trans he₂)]
  refine ⟨h.heap, h.outside, fun l' hl' k inst' hv hinst => ?_, fun l' hl' k hinst => ?_⟩
  · rw [hcode l' hl'] at hv
    rcases instance?_setInstance hc hl' he hinst with ⟨hk', rfl⟩ | hold
    · obtain rfl := hname l' hl' k hk'
      exact hf (hc.vouched hl' hl hk' hk hv)
    · exact h.fields l' hl' k inst' hv hold
  · rw [hcode l' hl']
    obtain ⟨inst', hinst⟩ := Option.isSome_iff_exists.mp hinst
    rcases instance?_setInstance hc hl' he hinst with ⟨hk', rfl⟩ | hold
    · obtain rfl := hname l' hl' k hk'
      have hcode' : l.code? w k = some e.code := by simp [code?, hk, he]
      refine .intro (c := e.code) (by simp [code?, hk', he]) fun i him => h.founded l' hl' i ?_
      have hsame := hc.shares l hl l' hl' k id e.code hk hk' hcode' i him
      have := hi i him
      unfold instance? at this ⊢
      rw [← hsame]
      exact this
    · exact h.founded l' hl' k (Option.isSome_iff_exists.mpr ⟨inst', hold⟩)

/-! ## Linking -/

/-- The ground has grown since `w`, and is still enough. -/
def Safe (ls : List Loader) (opened : List ScopeId) (G : Ground) (w w' : World) : Prop :=
  ∃ G', G.Extends w.heap G' ∧ Secure ls opened G' w'

theorem Safe.trans {w₁ w₂ : World} {G₁ : Ground} (hG : G.Extends w.heap G₁)
    (hs : w.heap.Smaller w₁.heap) (h : Safe ls opened G₁ w₁ w₂) : Safe ls opened G w w₂ := by
  obtain ⟨G₂, hG₂, h₂⟩ := h
  exact ⟨G₂, hG.trans hG₂ hs, h₂⟩

theorem smaller_of_keeps (k : w.Keeps [] w') : w.heap.Smaller w'.heap :=
  ⟨k.heap.scopes_size, k.heap.thunks_size⟩

/-- Linking by `linkOne` keeps the ground. If the modules of the loader are vouched for,
it does not fail for a name. -/
def SoundLinks (ls : List Loader) (l : Loader) (linkOne : String → Act InstanceId) : Prop :=
  ∀ name opened w G, Coherent ls opened w → (∀ s ∈ opened, s < w.heap.scopes.size) →
    Secure ls opened G w →
    (linkOne name).Meets w (fun _ w' => Safe ls opened G w w')
      (fun e w' => Safe ls opened G w w' ∧
        (ModuleCode.Sealed (l.code? w) → e.isUndefined = false))

variable {visiting own : List String} {root scope : ScopeId} {linkOne : String → Act InstanceId}

theorem smaller_importFields (scope : ScopeId) (own : List String) (i : String)
    (fields : Table Value) : ∀ h : Heap, h.Smaller (importFields scope own i fields h) := by
  induction fields with
  | nil => exact fun h => ⟨Nat.le_refl _, Nat.le_refl _⟩
  | cons p fields ih =>
    intro h
    refine ⟨Nat.le_trans ?_ (ih _).1, Nat.le_trans ?_ (ih _).2⟩
    all_goals
      simp only
      split <;> simp [Heap.setVar]

theorem sound_linkImports (hone : Links ls l visiting linkOne) (hsound : SoundLinks ls l linkOne)
    (hl : l ∈ ls) (hk : l.Keyed w) (name : String) (ho : ∀ s ∈ opened, s < w.heap.scopes.size)
    (is : List String) : ∀ (done : List String) (w' : World) (G' : Ground),
      Imports ls opened l visiting own root scope w done w' → w.heap.Smaller w'.heap →
      G.Extends w.heap G' → Secure ls (scope :: opened) G' w' →
      (linkImports linkOne name scope own is).Meets w'
        (fun _ w'' => Safe ls (scope :: opened) G w w'')
        (fun e w'' => Safe ls (scope :: opened) G w w'' ∧
          (ModuleCode.Sealed (l.code? w) → e.isUndefined = false)) := by
  induction is with
  | nil => exact fun done w' G' _ _ hG hs => Act.meets_pure ⟨G', hG, hs⟩
  | cons i is ih =>
    intro done w' G' hI hsize hG hs
    have hcode : l.code? w' = l.code? w := funext fun k => code?_keeps hk hI.keeps
    have hopen := hI.opened_lt ho
    have hboth := (hone i _ w' hI.coherent hopen).and (hsound i _ w' G' hI.coherent hopen hs)
    refine Act.meets_bind (Act.meets_during (hboth.mono ?_ ?_))
    · rintro inst w'' ⟨⟨ha, hh⟩, G'', hG', hs''⟩
      obtain ⟨j, hj, hi⟩ := hh.instance? ha.coherent hl
      have hsize' := smaller_of_keeps ha.keeps
      have hsize'' := smaller_importFields scope own i j.fields w''.heap
      refine Act.meets_get_bind (Act.meets_set_bind ?_)
      rw [hj]
      refine ih _ _ G'' (hI.snoc ha hi) ⟨?_, ?_⟩ (hG.trans hG' hsize) ?_
      · exact Nat.le_trans hsize.1 (Nat.le_trans hsize'.1 hsize''.1)
      · exact Nat.le_trans hsize.2 (Nat.le_trans hsize'.2 hsize''.2)
      · have hn : ¬ G''.scopes scope := hs''.outside scope List.mem_cons_self
        exact hs''.setHeap (hs''.heap.importFields hn own i j.fields) (.refl _)
          (Heap.wider_importFields _ _ _ _ _) hs''.outside rfl rfl
    · rintro e w'' ⟨ha, hs'', he⟩
      exact ⟨hs''.trans hG hsize, fun hch => he (hcode ▸ hch)⟩

/-- The scope of the builtin functions comes into the ground. -/
theorem Secure.openModule (hs : Secure ls opened G w)
    (ho : ∀ s ∈ opened, s < w.heap.scopes.size) :
    Secure ls ((newModuleScope w.heap).1 :: opened) (G.addScope w.heap.scopes.size)
      { w with heap := (newModuleScope w.heap).2 } := by
  have hG := Ground.extends_addScope w.heap G
  have g := grows_newModuleScope w.heap
  have hroot : w.heap.newRoot.2.Sound (G.addScope w.heap.scopes.size) := by
    refine hs.heap.newScope (fun x v hx => ?_) nofun
    obtain ⟨b, _, he⟩ := List.mem_map.mp (Table.mem_of_get? hx)
    cases he
    exact .alone rfl
  have gs : w.heap.newRoot.2.Grows (fun _ => False) (newModuleScope w.heap).2 :=
    (Heap.Grows.refl _ _).newScope _ _
  refine hs.setHeap (hroot.grows gs nofun) hG.within g.wider (fun s hm => ?_) rfl rfl
  rcases List.mem_cons.mp hm with rfl | hm
  · -- the scope of the module itself is not in the ground
    rw [newModuleScope_fst]
    rintro (he | hmem)
    · exact Nat.succ_ne_self _ he
    · obtain ⟨_, hi, _⟩ := hs.heap.scopes _ hmem
      exact Nat.not_succ_le_self _ (Nat.le_of_lt (Array.getElem?_eq_some_iff.mp hi).1)
  · exact outside_extends hG hs.outside ho s hm

/-- The definitions of a module are made. If it has passed, they come into the ground. -/
theorem sound_defineAll {w₂ : World} {e : Entry} {id : EntryId} {fields : Table Value} {h₃ : Heap}
    {G₂ : Ground} (hl : l ∈ ls) (hk : l.modules.get? e.code.name = some id)
    (he : w₂.entries[id]? = some e) (ho : ∀ s ∈ opened, s < w.heap.scopes.size)
    (hout : ∀ s ∈ opened, ¬ G.scopes s) (hscope : scope = w.heap.scopes.size + 1)
    (hI : Imports ls opened l visiting e.code.exports w.heap.scopes.size scope w' e.code.imports w₂)
    (hr : w₂.heap.scopes[w.heap.scopes.size]? =
      some ⟨Builtin.all.map fun b => (b.name, .builtin b), none⟩)
    (hroot : G₂.scopes w.heap.scopes.size) (hG : G.Extends w.heap G₂)
    (hs : Secure ls (scope :: opened) G₂ w₂) (hd : Defined scope e.code.defs fields w₂.heap h₃)
    (hsize : w.heap.Smaller w₂.heap) :
    ∃ G₃, G.Extends w.heap G₃ ∧ Secure ls opened G₃ { w₂ with heap := h₃ } ∧
      (ModuleCode.Vouched (l.code? w₂) e.code.name → ∀ p ∈ fields, p.2.Sound G₃ h₃) := by
  have hn : ¬ G₂.scopes scope := hs.outside scope List.mem_cons_self
  have hw := Heap.wider_of_defined hd
  by_cases hv : ModuleCode.Vouched (l.code? w₂) e.code.name
  · have hcode : l.code? w₂ e.code.name = some e.code := by simp [code?, hk, he]
    obtain ⟨hh, hf⟩ := hs.define hI.coherent hl hcode hv hI.imports hr hroot
      (hscope ▸ Nat.lt_succ_self _) hI.scope hn hd
    have hG' : G₂.Extends w.heap ((G₂.addScope scope).addThunks fields) := by
      refine ⟨(G₂.within_addScope _).trans (Ground.within_addThunks _ _), fun i hi => ?_, ?_⟩
      · refine hi.elim (fun he => .inr ?_) .inl
        rw [he, hscope]
        exact Nat.le_succ _
      · rintro i (⟨x, hx⟩ | hi)
        · exact .inr (Nat.le_trans hsize.2 (hd.fresh _ hx i rfl))
        · exact .inl hi
    have hG₃ := hG.trans hG' ⟨Nat.le_refl _, Nat.le_refl _⟩
    exact ⟨_, hG₃, hs.setHeap hh hG'.within hw (outside_extends hG₃ hout ho) rfl rfl, fun _ => hf⟩
  · refine ⟨G₂, hG, ?_, fun h => absurd h hv⟩
    exact hs.setHeap (hs.heap.defined hd hn) (.refl _) hw (outside_extends hG hout ho) rfl rfl

theorem sound_makeInstance {set : Setting} (hlib : set.host.Relays) {name : String}
    (hone : Links ls l (visiting ++ [name]) linkOne) (hsound : SoundLinks ls l linkOne) (hl : l ∈ ls)
    {id : EntryId} {e : Entry} (hc : Coherent ls opened w)
    (ho : ∀ s ∈ opened, s < w.heap.scopes.size) (hs : Secure ls opened G w)
    (hk : l.modules.get? name = some id) (he : w.entries[id]? = some e) (hn : e.linked = none) :
    (makeInstance set linkOne id name e.code).Meets w (fun _ w' => Safe ls opened G w w')
      (fun err w' => Safe ls opened G w w' ∧
        (ModuleCode.Sealed (l.code? w) → err.isUndefined = false)) := by
  obtain rfl : e.code.name = name := by
    obtain ⟨e', he', hn'⟩ := (hc.keyed l hl).get? hk
    rw [← hn', Option.some.inj (he.symm.trans he')]
  rw [makeInstance_eq]
  refine Act.meets_get_bind (Act.meets_set_bind (Act.meets_bind ?_))
  have hs₁ := hs.openModule ho
  have hsize := newModuleScope_fst w.heap
  have hempty := scope_newModuleScope w.heap
  have hroot := root_newModuleScope w.heap
  have g₁ := grows_newModuleScope w.heap
  generalize newModuleScope w.heap = p at *
  obtain ⟨scope, h₁⟩ := p
  simp only at hsize hempty hroot g₁ hs₁ ⊢
  have hI : Imports ls opened l (visiting ++ [e.code.name]) e.code.exports w.heap.scopes.size scope
      { w with heap := h₁ } [] { w with heap := h₁ } :=
    { coherent := (hc.open_new (hsize ▸ Nat.le_succ _)).keeps_heap (g₁.fills _) rfl rfl
      keeps := .refl _ _
      visited := fun _ _ _ _ => rfl
      scope := hempty
      imports := nofun }
  have ho₁ : ∀ s ∈ opened, s < h₁.scopes.size :=
    fun s hs => Nat.lt_of_lt_of_le (ho s hs) g₁.scopes_size
  have hG₁ := Ground.extends_addScope w.heap G
  have himports := meets_linkImports hone hl e.code.name ho₁ e.code.imports [] _ hI
  have hsafe := sound_linkImports hone hsound hl (hI.coherent.keyed l hl) e.code.name ho₁
    e.code.imports [] _ _ hI ⟨Nat.le_refl _, Nat.le_refl _⟩ (.refl _ _) hs₁
  refine (himports.and hsafe).mono ?_ ?_
  · rintro _ w₂ ⟨hI₂, G₂, hG₂, hs₂⟩
    rw [List.nil_append] at hI₂
    refine Act.meets_get_bind (Act.meets_set_bind (Act.meets_bind ?_))
    have hd := defined_defineAll scope e.code.defs w₂.heap
    generalize defineAll scope e.code.defs w₂.heap = p at hd
    obtain ⟨fields, h₃⟩ := p
    simp only at hd ⊢
    have hent : w₂.entries[id]? = some e := by
      rw [hI₂.visited _ (by simp) id hk]
      exact he
    have hroot₂ := hI₂.keeps.heap.scopes _ _ (by simp [hsize]) hroot
    have hthunks := Nat.le_trans g₁.thunks_size hI₂.keeps.heap.thunks_size
    -- the scope of the module is there, and it came in after those of `w`
    have hscopes : ∀ {h : Heap} {s : Scope}, h.scopes[scope]? = some s →
        w.heap.scopes.size ≤ h.scopes.size := by
      intro h s hi
      have hlt := (Array.getElem?_eq_some_iff.mp hi).1
      rw [hsize] at hlt
      exact Nat.le_of_succ_le (Nat.le_of_lt hlt)
    have hsm : w.heap.Smaller w₂.heap := ⟨hscopes hI₂.scope, hthunks⟩
    have hsm₃ : w.heap.Smaller h₃ := by
      obtain ⟨_, hs', _⟩ := hd.scope _ _ hI₂.scope
      exact ⟨hscopes hs', Nat.le_trans hthunks hd.fills.thunks_size⟩
    obtain ⟨G₃, hG₃, hs₃, hf⟩ := sound_defineAll hl hk hent ho hs.outside hsize hI₂ hroot₂
      (hG₂.within.scopes _ (.inl rfl)) (hG₁.trans hG₂ g₁.smaller) hs₂ hd hsm
    have hstrict := meets_evalStrict (w := { w₂ with heap := h₃ }) set e.code.name fields e.code.defs
      0 _ (.refl _ _) rfl rfl
    have heval := sound_evalStrict hlib e.code.name fields
      (ModuleCode.Vouched (l.code? w₂) e.code.name) e.code.defs 0 { w₂ with heap := h₃ } G₃ hs₃.heap hf
    -- what holds on both ways out
    have hend : ∀ w₄ : World, h₃.Grows Heap.anyThunk w₄.heap → w₄.instances = w₂.instances →
        w₄.entries = w₂.entries → ∀ G₄, G₃.Extends h₃ G₄ → w₄.heap.Sound G₄ →
        G.Extends w.heap G₄ ∧ Secure ls opened G₄ w₄ := by
      intro w₄ g hi₄ he₄ G₄ hG₄ hh₄
      have hG := hG₃.trans hG₄ hsm₃
      exact ⟨hG, hs₃.setHeap hh₄ hG₄.within g.wider (outside_extends hG hs.outside ho) hi₄ he₄⟩
    refine (hstrict.and heval).mono ?_ ?_
    · rintro _ w₄ ⟨⟨g, hi₄, he₄⟩, G₄, hG₄, hh₄⟩
      obtain ⟨hG, hs₄⟩ := hend w₄ g hi₄ he₄ G₄ hG₄ hh₄
      have hc₄ : Coherent ls opened w₄ := by
        have hfills : w₂.heap.Fills [scope] w₄.heap := hd.fills.trans (g.fills _)
        exact (hI₂.coherent.keeps_heap (hfills.mono (by simp)) hi₄ he₄).mono
          fun s hm => List.mem_cons_of_mem _ hm
      have hinst : ∀ i, l.instance? w₄ i = l.instance? w₂ i := by
        intro i
        unfold instance?
        rw [hi₄, he₄]
      have hcode : l.code? w₄ = l.code? w₂ := by
        unfold code?
        rw [he₄]
      refine Act.meets_get_bind (Act.meets_set_bind (Act.meets_pure ⟨G₄, hG, ?_⟩))
      refine hs₄.setInstance hc₄ hl hk (by rw [he₄, hent]) hn ?_ ?_
      · exact fun i hi => by rw [hinst]; exact hI₂.imports i hi
      · rw [hcode]
        exact fun hv p hp => (hf hv p hp).mono hG₄.within g.wider
    · rintro err w₄ ⟨⟨g, hi₄, he₄⟩, ⟨G₄, hG₄, hh₄⟩, herr⟩
      obtain ⟨hG, hs₄⟩ := hend w₄ g hi₄ he₄ G₄ hG₄ hh₄
      refine ⟨⟨G₄, hG, hs₄⟩, fun hch => herr ?_⟩
      -- the imports are linked, so they do not lead back
      have hcode : l.code? w₂ = l.code? w := by
        funext k
        exact code?_keeps (w := { w with heap := h₁ }) (hI.coherent.keyed l hl) hI₂.keeps
      rw [hcode]
      refine hch _ (.intro (c := e.code) (by simp [code?, hk, he]) fun i hi => ?_)
      rw [← hcode]
      exact hs₂.founded l hl i (hI₂.imports i hi)
  · rintro err w₂ ⟨_, ⟨G₂, hG₂, hs₂⟩, herr⟩
    refine ⟨⟨G₂, hG₁.trans hG₂ g₁.smaller, ?_⟩, herr⟩
    exact ⟨hs₂.heap, fun s hm => hs₂.outside s (List.mem_cons_of_mem _ hm), hs₂.fields, hs₂.founded⟩

theorem sound_link {set : Setting} (hlib : set.host.Relays) (hl : l ∈ ls) (fuel : Nat) :
    ∀ visiting, SoundLinks ls l (link set l fuel visiting) := by
  induction fuel with
  | zero => exact fun _ _ _ _ G _ _ hs => Act.meets_throw ⟨⟨G, .refl _ _, hs⟩, fun _ => rfl⟩
  | succ fuel ih =>
    intro visiting name opened w G hc ho hs
    have hsame : Safe ls opened G w w := ⟨G, .refl _ _, hs⟩
    unfold link
    refine Act.meets_get_bind ?_
    split
    · exact Act.meets_throw ⟨hsame, fun _ => rfl⟩
    · rename_i id e hid
      obtain ⟨id', hk, hid⟩ := Option.bind_eq_some_iff.mp hid
      obtain ⟨e', he, heq⟩ := Option.map_eq_some_iff.mp hid
      obtain ⟨rfl, rfl⟩ := Prod.mk.inj heq
      split
      · exact Act.meets_throw ⟨hsame, fun _ => rfl⟩
      · split
        · exact Act.meets_pure hsame
        · rename_i hn
          exact sound_makeInstance hlib (meets_link set hl fuel _) (ih _) hl hc ho hs hk he hn

end

end Loader

end LazySession
