import LazySession.Proofs.Interpreter.Transparent
import LazySession.Proofs.Loader.Linking
import LazySession.Proofs.Twin.Machine

/-!
# Worlds in step

`World.Twin o p w w'`: what is paired in two worlds is the same but for paired addresses, and what
`o` keeps apart in the second one is as it was. The caches may hold different texts, as long as each
holds what reading them gives. `Act.Together`: an act comes to the same in both, and
they are twins afterwards. `Loader.together_load`, `Instance.together_read`,
`Instance.together_write`: linking, reading and writing do, and `Loader.together_extend`: so does
adding modules.
-/

namespace LazySession

/-! ## Pairings -/

/-- The addresses of one world that stand for addresses of another. -/
structure WorldPairing where
  heap : Pairing
  entries : EntryId → EntryId → Prop
  instances : InstanceId → InstanceId → Prop

namespace WorldPairing

structure Within (p q : WorldPairing) : Prop where
  heap : p.heap.Within q.heap
  entries : ∀ {a b}, p.entries a b → q.entries a b
  instances : ∀ {a b}, p.instances a b → q.instances a b

variable {p q r : WorldPairing}

theorem Within.refl (p : WorldPairing) : p.Within p := ⟨.refl _, id, id⟩

theorem Within.trans (h : p.Within q) (h' : q.Within r) : p.Within r :=
  ⟨h.heap.trans h'.heap, fun hp => h'.entries (h.entries hp), fun hp => h'.instances (h.instances hp)⟩

theorem within_heap {a : Pairing} (h : p.heap.Within a) : p.Within { p with heap := a } :=
  ⟨h, id, id⟩

end WorldPairing

/-! ## Worlds -/

/-- A world and what is kept apart of it. -/
structure Apart where
  world : World
  thunks : ThunkId → Prop
  cells : CellId → Prop
  scopes : ScopeId → Prop
  entries : EntryId → Prop
  instances : InstanceId → Prop

def Apart.outside (o : Apart) : Outside := ⟨o.world.heap, o.thunks, o.cells, o.scopes⟩

structure Entry.Twin (p : WorldPairing) (e e' : Entry) : Prop where
  code : e'.code = e.code
  linked : Option.Rel p.instances e.linked e'.linked

structure Instance.Twin (p : WorldPairing) (i i' : Instance) : Prop where
  name : i'.name = i.name
  fields : i.fields.Twin (Value.Held p.heap) i'.fields

structure World.Twin (o : Apart) (p : WorldPairing) (w w' : World) : Prop where
  heap : w.heap.Twin o.outside p.heap w'.heap
  entries : Mirrors p.entries (Entry.Twin p) o.entries o.world.entries w.entries w'.entries
  instances : Mirrors p.instances (Instance.Twin p) o.instances o.world.instances
    w.instances w'.instances
  context : w'.context = w.context
  truthful : Interpreter.Truthful w.cache ∧ Interpreter.Truthful w'.cache

section
variable {o : Apart} {p q : WorldPairing}

theorem Entry.Twin.mono {e e' : Entry} (h : e.Twin p e') (hw : p.Within q) : e.Twin q e' :=
  ⟨h.code, rel_imp h.linked fun _ _ hi => hw.instances hi⟩

theorem Instance.Twin.mono {i i' : Instance} (h : i.Twin p i') (hw : p.Within q) : i.Twin q i' :=
  ⟨h.name, h.fields.imp fun _ _ hv => hv.mono hw.heap⟩

namespace World

variable {w w' : World}

theorem Twin.withHeap (h : w.Twin o p w') {a : Pairing} (ha : p.heap.Within a) {g g' : Heap}
    (hg : g.Twin o.outside a g') :
    Twin o { p with heap := a } { w with heap := g } { w' with heap := g' } where
  heap := hg
  entries := h.entries.imp fun _ _ he => he.mono (WorldPairing.within_heap ha)
  instances := h.instances.imp fun _ _ hi => hi.mono (WorldPairing.within_heap ha)
  context := h.context
  truthful := h.truthful

theorem Twin.withContext (h : w.Twin o p w') (context : Context) :
    Twin o p { w with context } { w' with context } :=
  ⟨h.heap, h.entries, h.instances, rfl, h.truthful⟩

theorem Twin.withCache (h : w.Twin o p w') {cache cache' : Cache Parsed}
    (hc : Interpreter.Truthful cache) (hc' : Interpreter.Truthful cache') :
    Twin o p { w with cache } { w' with cache := cache' } :=
  ⟨h.heap, h.entries, h.instances, h.context, hc, hc'⟩

theorem Twin.finish (h : w.Twin o p w') {a : Pairing} (ha : p.heap.Within a) {s s' : EvalState}
    (hs : s.Twin o.outside a s') :
    Twin o { p with heap := a } (Act.finish w s) (Act.finish w' s') := by
  have hpatience : s'.patience = s.patience := by rw [hs.same]
  have hw := (h.withHeap ha hs.heap).withContext { w.context with patience := s.patience }
  unfold Act.finish
  rw [hpatience, h.context]
  exact hw

end World

end

/-! ## Acts -/

namespace Act

variable {α β γ δ : Type} {o : Apart} {p : WorldPairing} {w w' : World}
variable {R : WorldPairing → α → β → Prop} {S : WorldPairing → γ → δ → Prop}

/-- Both acts come to the same, in worlds that are twins again. -/
def Together (o : Apart) (p : WorldPairing) (R : WorldPairing → α → β → Prop) (x : Act α) (w : World)
    (x' : Act β) (w' : World) : Prop :=
  ∃ q, p.Within q ∧ Agrees (R q) (x.run w).1 (x'.run w').1 ∧ (x.run w).2.Twin o q (x'.run w').2

theorem together_pure (hw : w.Twin o p w') {a : α} {b : β} (h : R p a b) :
    Together o p R (pure a) w (pure b) w' :=
  ⟨p, .refl p, .ok h, hw⟩

theorem together_throw (hw : w.Twin o p w') (e : Error) :
    Together o p R (throw e : Act α) w (throw e : Act β) w' :=
  ⟨p, .refl p, .error e, hw⟩

theorem together_bind {x : Act α} {x' : Act β} {f : α → Act γ} {f' : β → Act δ}
    (h : Together o p R x w x' w')
    (hf : ∀ {q a b w₁ w₁'}, p.Within q → R q a b → w₁.Twin o q w₁' →
      Together o q S (f a) w₁ (f' b) w₁') :
    Together o p S (x >>= f) w (x' >>= f') w' := by
  obtain ⟨q, hq, hr, hw⟩ := h
  unfold Together
  rw [run_bind, run_bind]
  generalize x.run w = y at hr hw ⊢
  generalize x'.run w' = y' at hr hw ⊢
  obtain ⟨r, w₁⟩ := y
  obtain ⟨r', w₁'⟩ := y'
  cases hr with
  | error e => exact ⟨q, hq, .error e, hw⟩
  | ok hab =>
    obtain ⟨q', hq', hr', hw'⟩ := hf hq hab hw
    exact ⟨q', hq.trans hq', hr', hw'⟩

theorem together_get_bind {f f' : World → Act γ} {S : WorldPairing → γ → γ → Prop}
    (h : Together o p S (f w) w (f' w') w') :
    Together o p S ((get : Act World) >>= f) w ((get : Act World) >>= f') w' := h

theorem together_set_bind {f : PUnit → Act γ} {f' : PUnit → Act δ} {v v' : World}
    (h : Together o p S (f ⟨⟩) v (f' ⟨⟩) v') :
    Together o p S ((set v : Act PUnit) >>= f) w ((set v' : Act PUnit) >>= f') w' := h

theorem Together.within {q : WorldPairing} {x : Act α} {x' : Act β} (hq : p.Within q)
    (h : Together o q R x w x' w') : Together o p R x w x' w' := by
  obtain ⟨q', hq', hrest⟩ := h
  exact ⟨q', hq.trans hq', hrest⟩

theorem together_rethrow {x : Act α} {x' : Act β} (f : Error → Error)
    (h : Together o p R x w x' w') :
    Together o p R (tryCatch x fun e => throw (f e)) w (tryCatch x' fun e => throw (f e)) w' := by
  obtain ⟨q, hq, hr, hw⟩ := h
  unfold Together
  rw [run_tryCatch, run_tryCatch]
  generalize x.run w = y at hr hw ⊢
  generalize x'.run w' = y' at hr hw ⊢
  obtain ⟨r, w₁⟩ := y
  obtain ⟨r', w₁'⟩ := y'
  cases hr with
  | error e => exact ⟨q, hq, .error (f e), hw⟩
  | ok hab => exact ⟨q, hq, .ok hab, hw⟩

theorem together_during {x : Act α} {x' : Act β} (activity : Activity)
    (h : Together o p R x w x' w') :
    Together o p R (x.during activity) w (x'.during activity) w' :=
  together_rethrow (.during activity) h

theorem together_inquire (hw : w.Twin o p w') :
    Together o p (fun _ _ _ => True) inquire w inquire w' := by
  unfold Together
  rw [run_inquire, run_inquire, hw.context]
  refine ⟨p, .refl p, ?_, hw.withContext _⟩
  split
  · exact .error _
  · exact .ok trivial

/-- Evaluating a value comes to the same. -/
theorem together_force {set : Setting} (hlib : set.host.Natural) (hw : w.Twin o p w') (steps : Nat)
    {v v' : Value} (hv : v.Held p.heap v') :
    Together o p (fun q x y => x.1.Twin q.heap y.1 ∧ y.2 = x.2)
      (evaluate steps (EvalState.force set · v)) w (evaluate steps (EvalState.force set · v')) w' := by
  have hstart : (start steps w).Twin o.outside p.heap (start steps w') :=
    ⟨hw.heap, by simp only [start, hw.context]⟩
  obtain ⟨a, ha, hr, hs⟩ := EvalState.twin_force hlib hstart hv
  unfold Together
  rw [run_evaluate, run_evaluate]
  refine ⟨_, WorldPairing.within_heap ha, ?_, hw.finish ha hs⟩
  have hsteps : ((start steps w').force set v').2.steps = ((start steps w).force set v).2.steps := by
    rw [hs.same]
  rcases hr.cases with ⟨e, he, he'⟩ | ⟨u, u', he, he', hu⟩
  · rw [he, he']
    exact .error _
  · rw [he, he', hsteps]
    exact .ok ⟨hu, rfl⟩

end Act

/-! ## Linking -/

/-- Loaders with the same names and paired entries. -/
def Loader.Twin (p : WorldPairing) (l l' : Loader) : Prop := l.modules.Twin p.entries l'.modules

namespace Loader

open Act

variable {o : Apart} {p q : WorldPairing} {w w' : World} {l l' : Loader} {set : Setting}

theorem Twin.mono (h : l.Twin p l') (hw : p.Within q) : l.Twin q l' :=
  Table.Twin.imp h fun _ _ he => hw.entries he

theorem twin_importFields {o : Outside} {p : Pairing} {a b : ScopeId} (hab : p.scopes a b)
    (own : List String) (imported : String) {fields fields' : Table Value}
    (hf : fields.Twin (Value.Held p) fields') : ∀ {h h' : Heap}, h.Twin o p h' →
      (importFields a own imported fields h).Twin o p (importFields b own imported fields' h') := by
  induction hf with
  | nil => exact fun ht => ht
  | @cons x x' _ _ hx _ ih =>
    intro h h' ht
    obtain ⟨n, v⟩ := x
    obtain ⟨n', v'⟩ := x'
    obtain ⟨rfl, hv⟩ := hx
    refine ih ?_
    have hset := ht.setVar hab (imported ++ "." ++ n) hv
    simp only
    split
    · exact hset
    · exact hset.setVar hab n hv

theorem twin_defineAll {o : Outside} {a b : ScopeId} (defs : List Definition) :
    ∀ {p : Pairing} {h h' : Heap}, p.scopes a b → h.Twin o p h' →
      ∃ q, p.Extends q h h' ∧ (defineAll a defs h).1.Twin (Value.Held q) (defineAll b defs h').1 ∧
        (defineAll a defs h).2.Twin o q (defineAll b defs h').2 := by
  unfold defineAll
  suffices hfold : ∀ (defs : List Definition) {p : Pairing} {h h' : Heap} {fields fields' : Table Value},
      p.scopes a b → fields.Twin (Value.Held p) fields' → h.Twin o p h' →
      let step := fun (scope : ScopeId) (x : Table Value × Heap) (d : Definition) =>
        (x.1.put d.binding.name (x.2.newBinding d.binding scope d.source d.want).1,
          (x.2.newBinding d.binding scope d.source d.want).2.setVar scope d.binding.name
            (x.2.newBinding d.binding scope d.source d.want).1)
      ∃ q, p.Extends q h h' ∧ (defs.foldl (step a) (fields, h)).1.Twin (Value.Held q)
          (defs.foldl (step b) (fields', h')).1 ∧
        (defs.foldl (step a) (fields, h)).2.Twin o q (defs.foldl (step b) (fields', h')).2 by
    intro p h h' hab ht
    exact hfold defs hab .nil ht
  intro defs
  induction defs with
  | nil => exact fun _ hf ht => ⟨_, .refl _ _ _, hf, ht⟩
  | cons d defs ih =>
    intro p h h' fields fields' hab hf ht
    obtain ⟨q, hq, hv, ht'⟩ := ht.newBinding d.binding hab d.source d.want
    have hfields := (hf.imp fun _ _ hv => hv.mono hq.within).put d.binding.name hv
    have hab' := hq.within.scopes hab
    obtain ⟨r, hr, hrest⟩ := ih hab' hfields (ht'.setVar hab' d.binding.name hv)
    exact ⟨r, hq.trans hr (h.smallerThan_newBinding d.binding a d.source d.want d.binding.name)
      (h'.smallerThan_newBinding d.binding b d.source d.want d.binding.name), hrest⟩

theorem together_evalStrict (hlib : set.host.Natural) (mod : String) (ds : List Definition) :
    ∀ {p : WorldPairing} {w w' : World} {fields fields' : Table Value} (steps : Nat),
      w.Twin o p w' → fields.Twin (Value.Held p.heap) fields' →
      Together o p (fun _ _ _ => True) (evalStrict set mod fields steps ds) w
        (evalStrict set mod fields' steps ds) w' := by
  induction ds with
  | nil => exact fun _ hw _ => together_pure hw trivial
  | cons d ds ih =>
    intro p w w' fields fields' steps hw hf
    unfold evalStrict
    split
    · have hv : ((fields.get? d.binding.name).getD .unit).Held p.heap
          ((fields'.get? d.binding.name).getD .unit) := by
        rcases rel_cases (hf.get? d.binding.name) with ⟨hx, hx'⟩ | ⟨v, v', hx, hx', hv⟩
        · rw [hx, hx']
          exact .value .unit
        · rw [hx, hx']
          exact hv
      refine together_bind (together_during _ (together_force hlib hw steps hv)) ?_
      rintro q ⟨_, n⟩ ⟨_, n'⟩ w₁ w₁' hq ⟨-, rfl⟩ hw₁
      exact ih _ hw₁ (hf.imp fun _ _ hv => hv.mono hq.heap)
    · exact ih steps hw hf

section
variable {linkOne linkOne' : String → Act InstanceId}

theorem together_linkImports (mod : String) (own is : List String) :
    ∀ {p : WorldPairing} {w w' : World} {a b : ScopeId},
      (∀ i {q : WorldPairing} {v v' : World}, p.Within q → v.Twin o q v' →
        Together o q (fun r => r.instances) (linkOne i) v (linkOne' i) v') →
      w.Twin o p w' → p.heap.scopes a b →
      Together o p (fun _ _ _ => True) (linkImports linkOne mod a own is) w
        (linkImports linkOne' mod b own is) w' := by
  induction is with
  | nil => exact fun _ hw _ => together_pure hw trivial
  | cons i is ih =>
    intro p w w' a b hone hw hab
    unfold linkImports
    refine together_bind (together_during _ (hone i (.refl p) hw)) ?_
    intro q inst inst' w₁ w₁' hq hinst hw₁
    refine together_get_bind (together_set_bind ?_)
    obtain ⟨x, y, hx, hy, hxy⟩ := hw₁.instances.related hinst
    rw [hx, hy]
    have hheap := twin_importFields (hq.heap.scopes hab) own i hxy.fields hw₁.heap
    have hw₂ := hw₁.withHeap (.refl _) hheap
    exact ih (fun j {_ _ _} hr hv => hone j (hq.trans hr) hv) hw₂ (hq.heap.scopes hab)

theorem twin_builtins (p : Pairing) : Table.Twin (Value.Held p)
    (Builtin.all.map fun b => (b.name, .builtin b)) (Builtin.all.map fun b => (b.name, .builtin b)) :=
  List.forall₂_same.mpr fun x hx => by
    obtain ⟨b, -, rfl⟩ := List.mem_map.mp hx
    exact ⟨rfl, .value (.builtin b)⟩

theorem twin_newModuleScope {o : Outside} {p : Pairing} {h h' : Heap} (ht : h.Twin o p h') :
    ∃ q, p.Extends q h h' ∧ q.scopes (newModuleScope h).1 (newModuleScope h').1 ∧
      (newModuleScope h).2.Twin o q (newModuleScope h').2 := by
  have hroot := ht.newScope (twin_builtins p) .none
  have hsize (h : Heap) : h.SmallerThan h.newRoot.2 := ⟨le_rfl, le_rfl, by simp [Heap.newRoot, Heap.newScope]⟩
  exact ⟨_, (p.extends_addScope h h').trans (Pairing.extends_addScope _ _ _) (hsize h) (hsize h'),
    .inr ⟨rfl, rfl⟩, hroot.newScope .nil (.some (.inr ⟨rfl, rfl⟩))⟩

theorem twin_setInstance (hw : w.Twin o p w') {a b : EntryId} (hab : p.entries a b)
    {i i' : Instance} (hi : i.Twin p i') : ∃ q, p.Within q ∧
      q.instances w.instances.size w'.instances.size ∧
      (setInstance w a i).Twin o q (setInstance w' b i') := by
  have hq : p.Within { p with instances := pairUp p.instances w.instances.size w'.instances.size } :=
    ⟨.refl _, id, .inl⟩
  refine ⟨_, hq, .inr ⟨rfl, rfl⟩, hw.heap, ?_, ?_, hw.context, hw.truthful⟩
  · simp only [setInstance]
    refine (hw.entries.imp fun _ _ he => he.mono hq).modify hab ?_
    exact fun _ _ _ _ he => ⟨he.code, .some (.inr ⟨rfl, rfl⟩)⟩
  · exact hw.instances.push (fun _ _ hi => hi.mono hq) (hi.mono hq)

theorem together_makeInstance (hlib : set.host.Natural)
    (hone : ∀ i {q : WorldPairing} {v v' : World}, p.Within q → v.Twin o q v' →
      Together o q (fun r => r.instances) (linkOne i) v (linkOne' i) v')
    (hw : w.Twin o p w') {a b : EntryId} (hab : p.entries a b) (name : String) (code : ModuleCode) :
    Together o p (fun r => r.instances) (makeInstance set linkOne a name code) w
      (makeInstance set linkOne' b name code) w' := by
  rw [makeInstance_eq, makeInstance_eq]
  refine together_get_bind (together_set_bind ?_)
  obtain ⟨r, hextends, hscope, hheap⟩ := twin_newModuleScope hw.heap
  have hr := hextends.within
  have hr' := WorldPairing.within_heap hr
  refine (together_bind (together_linkImports name code.exports code.imports
    (fun i {_ _ _} hq hv => hone i (hr'.trans hq) hv) (hw.withHeap hr hheap) hscope) ?_).within hr'
  intro q _ _ w₁ w₁' hq _ hw₁
  refine together_get_bind (together_set_bind ?_)
  obtain ⟨q', hq', hfields, hheap'⟩ := twin_defineAll code.defs (hq.heap.scopes hscope) hw₁.heap
  refine (together_bind (together_evalStrict hlib name code.defs 0 (hw₁.withHeap hq'.within hheap')
    hfields) ?_).within (WorldPairing.within_heap hq'.within)
  intro q₂ _ _ w₂ w₂' hq₂ _ hw₂
  refine together_get_bind (together_set_bind ?_)
  have hentry := hq₂.entries (hq.entries hab)
  have hinst : Instance.Twin q₂
      ⟨name, (defineAll (newModuleScope w.heap).1 code.defs w₁.heap).1⟩
      ⟨name, (defineAll (newModuleScope w'.heap).1 code.defs w₁'.heap).1⟩ :=
    ⟨rfl, hfields.imp fun _ _ hv => hv.mono hq₂.heap⟩
  obtain ⟨q₃, hq₃, hnew, hw₃⟩ := twin_setInstance hw₂ hentry hinst
  exact (together_pure hw₃ hnew).within hq₃

end

/-- The entries that two loaders have for a name. -/
theorem Twin.entry (hl : l.Twin p l') (hw : w.Twin o p w') (name : String) :
    Option.Rel (fun x y => p.entries x.1 y.1 ∧ x.2.Twin p y.2)
      ((l.modules.get? name).bind fun id => (w.entries[id]?).map (id, ·))
      ((l'.modules.get? name).bind fun id => (w'.entries[id]?).map (id, ·)) := by
  rcases rel_cases (Table.Twin.get? hl name) with ⟨hn, hn'⟩ | ⟨a, b, hn, hn', hab⟩
  · rw [hn, hn']
    exact .none
  · obtain ⟨e, e', he, he', hee⟩ := hw.entries.related hab
    simp only [hn, hn', Option.bind_some, he, he', Option.map_some]
    exact .some ⟨hab, hee⟩

theorem Twin.code? (hl : l.Twin p l') (hw : w.Twin o p w') : l'.code? w' = l.code? w := by
  funext name
  unfold Loader.code?
  rcases rel_cases (Table.Twin.get? hl name) with ⟨hn, hn'⟩ | ⟨a, b, hn, hn', hab⟩
  · rw [hn, hn']
    rfl
  · obtain ⟨e, e', he, he', hee⟩ := hw.entries.related hab
    simp [hn, hn', he, he', hee.code]

theorem together_link (hlib : set.host.Natural) (fuel : Nat) :
    ∀ {p : WorldPairing} {w w' : World} (visiting : List String) (name : String), l.Twin p l' →
      w.Twin o p w' → Together o p (fun r => r.instances) (link set l fuel visiting name) w
        (link set l' fuel visiting name) w' := by
  induction fuel with
  | zero => exact fun _ _ _ hw => together_throw hw _
  | succ fuel ih =>
    intro p w w' visiting name hl hw
    unfold link
    refine together_get_bind ?_
    rcases rel_cases (hl.entry hw name) with ⟨hn, hn'⟩ | ⟨⟨a, e⟩, ⟨b, e'⟩, hn, hn', hab, hee⟩
    · simp only [hn, hn']
      exact together_throw hw _
    · have hee : e.Twin p e' := hee
      simp only [hn, hn']
      split
      · exact together_throw hw _
      · rcases rel_cases hee.linked with ⟨hi, hi'⟩ | ⟨i, i', hi, hi', hii⟩
        · simp only [hi, hi', hee.code]
          exact together_makeInstance hlib (fun j {_ _ _} hq hv => ih _ j (hl.mono hq) hv) hw hab
            name e.code
        · simp only [hi, hi']
          exact together_pure hw hii

theorem together_load (hlib : set.host.Natural) (hl : l.Twin p l') (hw : w.Twin o p w')
    (name : String) :
    Together o p (fun r => r.instances) (l.load set name) w (l'.load set name) w' := by
  unfold load
  refine together_bind (together_inquire hw) ?_
  intro q _ _ w₁ w₁' hq _ hw₁
  rw [hl.length_eq]
  exact together_link hlib _ [] name (hl.mono hq) hw₁

/-! ## Adding modules -/

/-- The loaders and the worlds are twins. -/
def TwinPair (o : Apart) (p : WorldPairing) (x y : Loader × World) : Prop :=
  ∃ q, p.Within q ∧ x.1.Twin q y.1 ∧ x.2.Twin o q y.2

theorem twinPair_refresh (mods : List ModuleCode) : ∀ {p : WorldPairing} {x y : Loader × World},
    x.1.Twin p y.1 → x.2.Twin o p y.2 → TwinPair o p (mods.foldl refresh x) (mods.foldl refresh y) := by
  induction mods with
  | nil => exact fun hl hw => ⟨_, .refl _, hl, hw⟩
  | cons c mods ih =>
    intro p x y hl hw
    obtain ⟨l, w⟩ := x
    obtain ⟨l', w'⟩ := y
    have hq : p.Within { p with entries := pairUp p.entries w.entries.size w'.entries.size } :=
      ⟨.refl _, .inl, id⟩
    have hl' : (refresh (l, w) c).1.Twin
        { p with entries := pairUp p.entries w.entries.size w'.entries.size }
        (refresh (l', w') c).1 :=
      Table.Twin.put (hl.mono hq) c.name (.inr ⟨rfl, rfl⟩)
    have hw' : (refresh (l, w) c).2.Twin o
        { p with entries := pairUp p.entries w.entries.size w'.entries.size }
        (refresh (l', w') c).2 := by
      refine ⟨hw.heap, ?_, hw.instances.imp fun _ _ hi => hi.mono hq, hw.context, hw.truthful⟩
      exact hw.entries.push (fun _ _ he => he.mono hq) ⟨rfl, .none⟩
    obtain ⟨r, hr, hrest⟩ := ih hl' hw'
    exact ⟨r, hq.trans hr, hrest⟩

theorem codes_twin (hl : l.Twin p l') (hw : w.Twin o p w') :
    (l'.modules.filterMap fun (_, id) => w'.entries[id]?.map (·.code)) =
      l.modules.filterMap fun (_, id) => w.entries[id]?.map (·.code) := by
  obtain ⟨modules⟩ := l
  obtain ⟨modules'⟩ := l'
  change Table.Twin p.entries modules modules' at hl
  induction hl with
  | nil => rfl
  | cons hx _ ih =>
    obtain ⟨e, e', he, he', hee⟩ := hw.entries.related hx.2
    simp only [List.filterMap_cons, he, he', Option.map_some, hee.code, ih]

theorem twinPair_extend (hl : l.Twin p l') (mods : List ModuleCode) (hw : w.Twin o p w') :
    TwinPair o p (l.extend mods w) (l'.extend mods w') := by
  unfold extend
  split
  · exact ⟨p, .refl p, hl, hw⟩
  · have hstart : TwinPair o p (mods.foldl refresh (l, w)) (mods.foldl refresh (l', w')) :=
      twinPair_refresh mods hl hw
    obtain ⟨q, hq, hl₁, hw₁⟩ := hstart
    generalize mods.foldl refresh (l, w) = x at hl₁ hw₁ ⊢
    generalize mods.foldl refresh (l', w') = y at hl₁ hw₁ ⊢
    obtain ⟨l₁, w₁⟩ := x
    obtain ⟨l₁', w₁'⟩ := y
    simp only [codes_twin hl₁ hw₁]
    obtain ⟨r, hr, hrest⟩ := twinPair_refresh _ hl₁ hw₁
    exact ⟨r, hq.trans hr, hrest⟩

end Loader

/-! ## Fields -/

namespace Instance

open Act

variable {o : Apart} {p : WorldPairing} {w w' : World} {i i' : Instance} {set : Setting}

theorem together_read (hlib : set.host.Natural) (hi : i.Twin p i') (hw : w.Twin o p w')
    (field : String) :
    Together o p (fun q => HostValue.Twin q.heap) (i.read set field) w (i'.read set field) w' := by
  unfold read
  refine together_bind (together_inquire hw) ?_
  intro q _ _ w₁ w₁' hq _ hw₁
  rcases rel_cases ((hi.mono hq).fields.get? field) with ⟨hn, hn'⟩ | ⟨v, v', hn, hn', hv⟩
  · simp only [hn, hn', hi.name]
    exact together_throw hw₁ _
  · simp only [hn, hn']
    refine together_bind (together_force hlib hw₁ 0 hv) ?_
    rintro r ⟨u, _⟩ ⟨u', _⟩ w₂ w₂' _ ⟨hu, -⟩ hw₂
    exact together_get_bind (together_pure hw₂ hu.toHost)

theorem twin_cell? {o : Outside} {p : Pairing} {h h' : Heap} (ht : h.Twin o p h') {v v' : Value}
    (hv : v.Held p v') : Option.Rel p.cells (cell? h v) (cell? h' v') := by
  cases hv with
  | value hv =>
    cases hv <;> exact .none
  | thunk hab =>
    obtain ⟨t, t', hx, hx', htwin⟩ := ht.thunks.related hab
    obtain ⟨name, code, source, want, state⟩ := t
    obtain ⟨name', code', source', want', state'⟩ := t'
    have hstate := htwin.state
    simp only [cell?, Heap.thunkValue?, hx, hx']
    simp only at hstate
    cases hstate with
    | pending => exact .none
    | forcing => exact .none
    | done hv =>
      cases hv with
      | cell hc => exact .some hc
      | _ => exact .none

theorem together_write (hi : i.Twin p i') (hw : w.Twin o p w') (field : String)
    {v v' : HostValue} (hv : v.Twin p.heap v') :
    Together o p (fun _ _ _ => True) (i.write field v) w (i'.write field v') w' := by
  unfold write
  rcases rel_cases (hi.fields.get? field) with ⟨hn, hn'⟩ | ⟨u, u', hn, hn', hu⟩
  · simp only [hn, hn', hi.name]
    exact together_throw hw _
  · simp only [hn, hn']
    refine together_get_bind ?_
    rcases rel_cases (twin_cell? hw.heap hu) with ⟨hc, hc'⟩ | ⟨c, c', hc, hc', hcc⟩
    · simp only [hc, hc', hi.name]
      exact together_throw hw _
    · simp only [hc, hc']
      have hheap := hw.heap.setCell hcc hv.toValue
      exact ⟨_, .refl _, .ok trivial, hw.withHeap (.refl _) hheap⟩

end Instance

end LazySession
