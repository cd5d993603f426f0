import LazySession.Proofs.Behind.Module
import LazySession.Proofs.Session.Limits

/-!
# Worlds of which one is behind

In one world fewer thunks have a value and fewer modules are linked than in the other. What is paired
is the same otherwise, and there is a record of what has been done only in the other one.
`World.Abreast` puts this together. `Act.Abreast`: an act comes to the same in both worlds, and they
are in this relation again, unless the first act ends by the depth limit.
-/

namespace LazySession

/-! ## What is recorded -/

/-- A module that has been linked, and the addresses that were made for it alone. -/
structure Laid where
  entry : EntryId
  region : Set Addr

/-- The module is one of those linked. -/
def LaidIn (K : List Laid) (id : EntryId) : Prop := ∃ i ∈ K, i.entry = id

/-- The addresses made for modules. -/
def laidRegions (K : List Laid) : Set Addr := {x | ∃ i ∈ K, x ∈ i.region}

namespace World

/-- The module has been linked, and its instance is there. -/
def Links (w : World) (id : EntryId) : Prop :=
  ∃ e i inst, w.entries[id]? = some e ∧ e.linked = some i ∧ w.instances[i]? = some inst

/-- `w'` is a later world: modules that are known are as they were, and so is what they have made but
for the names in scopes outside of `S`. -/
structure Ripens (known : EntryId → Prop) (S : Set ScopeId) (w w' : World) : Prop where
  heap : w.heap.Ripens S w'.heap
  entries : ∀ id, known id → w'.entries[id]? = w.entries[id]?
  instances : ∀ (i : InstanceId) inst, w.instances[i]? = some inst → w'.instances[i]? = some inst

variable {w w' w'' : World} {known known' : EntryId → Prop} {S S' : Set ScopeId}

theorem Ripens.mono (h : w.Ripens known S w') (hk : ∀ id, known' id → known id) (hS : S' ⊆ S) :
    w.Ripens known' S' w' :=
  ⟨h.heap.mono hS, fun id hid => h.entries id (hk id hid), h.instances⟩

theorem Ripens.of_heap {h : Heap} (hr : w.heap.Ripens S h) : w.Ripens known S { w with heap := h } :=
  ⟨hr, fun _ _ => rfl, fun _ _ h => h⟩

theorem Ripens.links (h : w.Ripens known S w') {id : EntryId} (hk : known id) (hl : w.Links id) :
    w'.Links id := by
  obtain ⟨e, i, inst, he, hi, hinst⟩ := hl
  exact ⟨e, i, inst, (h.entries id hk).trans he, hi, h.instances i inst hinst⟩

theorem Ripens.instance? (h : w.Ripens known S w') {l : Loader} {n : String} {id : EntryId}
    (hn : l.modules.get? n = some id) (hk : known id) (hl : w.Links id) :
    l.instance? w n = l.instance? w' n := by
  obtain ⟨e, i, inst, he, hi, hinst⟩ := hl
  have hw := Loader.instance?_eq_some.mpr ⟨id, e, i, hn, he, hi, hinst⟩
  have hw' := Loader.instance?_eq_some.mpr
    ⟨id, e, i, hn, (h.entries id hk).trans he, hi, h.instances i inst hinst⟩
  rw [hw, hw']

end World

section
variable (l : Loader) (first : ThunkId → Prop) (before : EntryId → Prop) (S : Set ScopeId)
variable (L : List Told) (G : World)

/-- A module of the loader `l` has been linked in `G`. What it imports had been linked `before` or is in
`K`. What strict definitions made has a value, and this is told of. -/
structure Stands (K : List Laid) (i : Laid) (code : ModuleCode) (inst : InstanceId)
    (fields : Table Value) : Prop where
  once : ¬ before i.entry ∧ ¬ LaidIn K i.entry
  apart : ∀ j ∈ K, Disjoint j.region i.region
  name : l.modules.get? code.name = some i.entry
  entry : G.entries[i.entry]? = some ⟨code, some inst⟩
  linked : G.instances[inst]? = some ⟨code.name, fields⟩
  imports : ∀ m ∈ code.imports, ∃ id, l.modules.get? m = some id ∧ (before id ∨ LaidIn K id)
  made : Heap.Founded S G.heap (l.importedNames G code.exports code.imports) code.defs fields i.region
  strict : ∀ d ∈ code.defs, d.binding.strict = true → ∀ id,
    fields.get? d.binding.name = some (.thunk id) → first id ∨ Among L id

/-- Modules that have been linked, last ones first. -/
inductive Placed : List Laid → Prop
  | nil : Placed []
  | cons {K : List Laid} {i : Laid} {code : ModuleCode} {inst : InstanceId} {fields : Table Value}
    (rest : Placed K) (head : Stands l first before S L G K i code inst fields) : Placed (i :: K)

end

namespace Placed

variable {l : Loader} {first : ThunkId → Prop} {before : EntryId → Prop} {S S' : Set ScopeId}
variable {L L' : List Told} {G G' : World} {K : List Laid}

theorem links (h : Placed l first before S L G K) {id : EntryId} (hid : LaidIn K id) : G.Links id := by
  obtain ⟨i, hi, rfl⟩ := hid
  induction h with
  | nil => cases hi
  | cons _ head ih =>
    rcases List.mem_cons.mp hi with rfl | hi
    · exact ⟨_, _, _, head.entry, rfl, head.linked⟩
    · exact ih hi

theorem mono (h : Placed l first before S L G K) (hS : S ⊆ S') (hL : ∀ id, Among L id → Among L' id)
    (hb : ∀ id, before id → G.Links id) (hG : G.Ripens (fun id => before id ∨ LaidIn K id) S G') :
    Placed l first before S' L' G' K := by
  induction h with
  | nil => exact .nil
  | @cons K i code inst fields rest head ih =>
    have hrest : G.Ripens (fun id => before id ∨ LaidIn K id) S G' := hG.mono
      (fun id => Or.imp_right fun ⟨j, hj, he⟩ => ⟨j, List.mem_cons_of_mem _ hj, he⟩) Set.Subset.rfl
    have hnames : l.importedNames G code.exports code.imports =
        l.importedNames G' code.exports code.imports := by
      refine Loader.importedNames_congr _ fun m hm => ?_
      obtain ⟨id, hid, hk⟩ := head.imports m hm
      exact hrest.instance? hid hk (hk.elim (hb id) rest.links)
    refine .cons (ih hrest) { head with entry := ?_, linked := hG.instances _ _ head.linked, made := ?_, strict := ?_ }
    · rw [hG.entries _ (.inr ⟨i, List.mem_cons_self, rfl⟩)]
      exact head.entry
    · rw [← hnames]
      exact head.made.mono hS hG.heap
    · exact fun d hd hs id hid => (head.strict d hd hs id hid).imp_right (hL id)

theorem not_before (h : Placed l first before S L G K) {id : EntryId} (hid : LaidIn K id) :
    ¬ before id := by
  obtain ⟨i, hi, rfl⟩ := hid
  induction h with
  | nil => cases hi
  | cons _ head ih =>
    rcases List.mem_cons.mp hi with rfl | hi
    · exact head.once.1
    · exact ih hi

theorem disjoint (h : Placed l first before S L G K) : ∀ i ∈ K, ∀ j ∈ K, i.entry ≠ j.entry →
    Disjoint i.region j.region := by
  induction h with
  | nil => exact fun _ hi => nomatch hi
  | cons _ head ih =>
    intro i hi j hj hne
    rcases List.mem_cons.mp hi with rfl | hi' <;> rcases List.mem_cons.mp hj with rfl | hj'
    · exact absurd rfl hne
    · exact (head.apart j hj').symm
    · exact head.apart i hi'
    · exact ih i hi' j hj' hne

end Placed

/-- What is known of the past of a world: which thunks had a value and which modules were linked in an
earlier state, and what has been evaluated and linked since. -/
structure Story where
  first : ThunkId → Prop
  before : EntryId → Prop
  scopes : Set ScopeId
  told : List Told
  laid : List Laid

/-- The module had been linked, or has been linked since. -/
def Story.Knows (σ : Story) (id : EntryId) : Prop := σ.before id ∨ LaidIn σ.laid id

/-! ## Worlds -/

/-- The same module. It may be linked only in the second world. -/
structure Entry.Behind (p : WorldPairing) (e e' : Entry) : Prop where
  code : e'.code = e.code
  linked : ∀ i, e.linked = some i → ∃ j, e'.linked = some j ∧ p.instances i j

/-- The first world is behind the second, of whose past the story tells. The modules of the loader `l`
have the same entries in both. -/
structure World.Abreast (w : World) (set : Setting) (l : Loader) (σ : Story) (p : WorldPairing)
    (w' : World) : Prop where
  heap : w.heap.Abreast set σ.first σ.scopes σ.told p.heap w'.heap
  bounded : ∀ id ∈ σ.scopes, id < w'.heap.scopes.size
  entries : Mirrors p.entries (Entry.Behind p) (fun _ => False) #[] w.entries w'.entries
  late : ∀ {a b e e'}, p.entries a b → w.entries[a]? = some e → w'.entries[b]? = some e' →
    e.linked = none → e'.linked ≠ none → LaidIn σ.laid b
  instances : ∀ {a b}, p.instances a b →
    ∃ x y, w.instances[a]? = some x ∧ w'.instances[b]? = some y ∧ x.Twin p y
  calm : w.context = {} ∧ w'.context = {}
  truthful : Interpreter.Truthful w.cache ∧ Interpreter.Truthful w'.cache
  home : ∀ {n id}, l.modules.get? n = some id → p.entries id id
  keyed : l.Keyed w'
  early : ∀ id, σ.before id → w'.Links id
  placed : Placed l σ.first σ.before σ.scopes σ.told w' σ.laid
  apart : ∀ i ∈ σ.laid, ∀ j ∈ σ.told, Disjoint i.region j.region
  old : ∀ i ∈ σ.laid, ∀ id, σ.first id → .thunk id ∉ i.region
  there : ∀ i ∈ σ.laid, i.region ⊆ w'.heap.has
  untold : ∀ i ∈ σ.laid, (∃ e, w.entries[i.entry]? = some e ∧ e.linked ≠ none) ∨
    Disjoint i.region p.heap.seen

section
variable {p q : WorldPairing}

theorem Entry.Behind.mono {e e' : Entry} (h : e.Behind p e') (hw : p.Within q) : e.Behind q e' :=
  ⟨h.code, fun i hi => (h.linked i hi).imp fun _ hj => ⟨hj.1, hw.instances hj.2⟩⟩

namespace World

variable {w w' : World} {set : Setting} {l : Loader} {σ : Story}

theorem Abreast.known (hb : w.Abreast set l σ p w') {id : EntryId} (hid : σ.Knows id) : w'.Links id :=
  hid.elim (hb.early id) hb.placed.links

/-- The heaps have changed. -/
theorem Abreast.withHeap (hb : w.Abreast set l σ p w') {a : Pairing} {g g' h : Heap}
    (hg : g.Abreast set σ.first σ.scopes σ.told a g')
    (ha : p.heap.Gains a h (regions σ.told ∪ w'.heap.made g')) (hr : w'.heap.Ripens σ.scopes g') :
    Abreast { w with heap := g } set l σ { p with heap := a } { w' with heap := g' } where
  heap := hg
  bounded id hid := Nat.lt_of_lt_of_le (hb.bounded id hid) hr.idle.size
  entries := hb.entries.imp fun _ _ he => he.mono (WorldPairing.within_heap ha.within)
  late := hb.late
  instances hab := by
    obtain ⟨x, y, hx, hy, hxy⟩ := hb.instances hab
    exact ⟨x, y, hx, hy, hxy.mono (WorldPairing.within_heap ha.within)⟩
  calm := hb.calm
  truthful := hb.truthful
  home := hb.home
  keyed := ⟨hb.keyed.nodup, hb.keyed.entry⟩
  early id hid := Ripens.links (.of_heap hr) hid (hb.early id hid)
  placed := hb.placed.mono Set.Subset.rfl (fun _ h => h) hb.early (.of_heap hr)
  apart := hb.apart
  old := hb.old
  there i hi := (hb.there i hi).trans hr.smallerThan.has
  untold i hi := by
    refine (hb.untold i hi).imp_right fun hd => Disjoint.mono_right ha.seen (Disjoint.union_right hd ?_)
    refine Disjoint.union_right ?_ (Set.disjoint_left.mpr fun x hx hx' => hx'.2 (hb.there i hi hx))
    exact Set.disjoint_left.mpr fun x hx ⟨j, hj, hx'⟩ => Set.disjoint_left.mp (hb.apart i hi j hj) hx hx'

theorem Abreast.withCache (hb : w.Abreast set l σ p w') {cache cache' : Cache Parsed}
    (hc : Interpreter.Truthful cache) (hc' : Interpreter.Truthful cache') :
    Abreast { w with cache } set l σ p { w' with cache := cache' } :=
  { hb with
    truthful := ⟨hc, hc'⟩
    keyed := ⟨hb.keyed.nodup, hb.keyed.entry⟩
    early := fun id hid => Ripens.links (S := .univ) ⟨.refl _ _, fun _ _ => rfl, fun _ _ h => h⟩ hid
      (hb.early id hid)
    placed := hb.placed.mono Set.Subset.rfl (fun _ h => h) hb.early
      ⟨.refl _ _, fun _ _ => rfl, fun _ _ h => h⟩ }

end World

end

/-! ## Acts -/

namespace Act

variable {α β γ δ : Type} {set : Setting} {l : Loader} {σ : Story} {p q : WorldPairing} {w w' : World}
variable {R : WorldPairing → α → β → Prop} {S : WorldPairing → γ → δ → Prop}

/-- The act ends by the depth limit. -/
def Overflows (x : Act α) (w : World) : Prop := ∃ e, (x.run w).1 = .error e ∧ e.limit? ≠ none

/-- Both acts come to the same, and of the worlds one is behind again, unless the first act ends by the
depth limit. -/
def Abreast (set : Setting) (l : Loader) (σ : Story) (p : WorldPairing)
    (R : WorldPairing → α → β → Prop) (x : Act α) (w : World) (x' : Act β) (w' : World) : Prop :=
  x.Overflows w ∨ ∃ q, p.Within q ∧ Agrees (R q) (x.run w).1 (x'.run w').1 ∧
    (x.run w).2.Abreast set l σ q (x'.run w').2

theorem overflows_bind {x : Act α} {f : α → Act γ} (h : x.Overflows w) : (x >>= f).Overflows w := by
  obtain ⟨e, he, hl⟩ := h
  refine ⟨e, ?_, hl⟩
  rw [run_bind]
  generalize x.run w = y at he ⊢
  obtain ⟨r, w₁⟩ := y
  obtain rfl : r = .error e := he
  rfl

theorem overflows_rethrow {x : Act α} {wrap : Error → Error} (hw : Error.Wraps wrap)
    (h : x.Overflows w) : Overflows (tryCatch x fun e => throw (wrap e)) w := by
  obtain ⟨e, he, hl⟩ := h
  refine ⟨wrap e, ?_, by rwa [hw.limit?]⟩
  rw [run_tryCatch]
  generalize x.run w = y at he ⊢
  obtain ⟨r, w₁⟩ := y
  obtain rfl : r = .error e := he
  rfl

theorem abreast_pure (hb : w.Abreast set l σ p w') {a : α} {b : β} (h : R p a b) :
    Abreast set l σ p R (pure a) w (pure b) w' :=
  .inr ⟨p, .refl p, .ok h, hb⟩

theorem abreast_throw (hb : w.Abreast set l σ p w') (e : Error) :
    Abreast set l σ p R (throw e : Act α) w (throw e : Act β) w' :=
  .inr ⟨p, .refl p, .error e, hb⟩

theorem abreast_bind {x : Act α} {x' : Act β} {f : α → Act γ} {f' : β → Act δ}
    (h : Abreast set l σ p R x w x' w')
    (hf : ∀ {q a b w₁ w₁'}, p.Within q → R q a b → w₁.Abreast set l σ q w₁' →
      Abreast set l σ q S (f a) w₁ (f' b) w₁') :
    Abreast set l σ p S (x >>= f) w (x' >>= f') w' := by
  rcases h with h | ⟨q, hq, hr, hb⟩
  · exact .inl (overflows_bind h)
  unfold Abreast Overflows
  rw [run_bind, run_bind]
  generalize x.run w = y at hr hb ⊢
  generalize x'.run w' = y' at hr hb ⊢
  obtain ⟨r, w₁⟩ := y
  obtain ⟨r', w₁'⟩ := y'
  cases hr with
  | error e => exact .inr ⟨q, hq, .error e, hb⟩
  | ok hab =>
    refine (hf hq hab hb).imp_right ?_
    rintro ⟨q', hq', hr', hb'⟩
    exact ⟨q', hq.trans hq', hr', hb'⟩

theorem abreast_get_bind {f f' : World → Act γ} {S : WorldPairing → γ → γ → Prop}
    (h : Abreast set l σ p S (f w) w (f' w') w') :
    Abreast set l σ p S ((get : Act World) >>= f) w ((get : Act World) >>= f') w' := h

theorem abreast_set_bind {f : PUnit → Act γ} {f' : PUnit → Act δ} {v v' : World}
    (h : Abreast set l σ p S (f ⟨⟩) v (f' ⟨⟩) v') :
    Abreast set l σ p S ((MonadStateOf.set v : Act PUnit) >>= f) w
      ((MonadStateOf.set v' : Act PUnit) >>= f') w' := h

theorem Abreast.within {x : Act α} {x' : Act β} (hq : p.Within q) (h : Abreast set l σ q R x w x' w') :
    Abreast set l σ p R x w x' w' :=
  h.imp_right fun ⟨q', hq', hrest⟩ => ⟨q', hq.trans hq', hrest⟩

theorem abreast_rethrow {x : Act α} {x' : Act β} {wrap : Error → Error} (hw : Error.Wraps wrap)
    (h : Abreast set l σ p R x w x' w') :
    Abreast set l σ p R (tryCatch x fun e => throw (wrap e)) w (tryCatch x' fun e => throw (wrap e)) w' := by
  rcases h with h | ⟨q, hq, hr, hb⟩
  · exact .inl (overflows_rethrow hw h)
  unfold Abreast Overflows
  rw [run_tryCatch, run_tryCatch]
  generalize x.run w = y at hr hb ⊢
  generalize x'.run w' = y' at hr hb ⊢
  obtain ⟨r, w₁⟩ := y
  obtain ⟨r', w₁'⟩ := y'
  cases hr with
  | error e => exact .inr ⟨q, hq, .error (wrap e), hb⟩
  | ok hab => exact .inr ⟨q, hq, .ok hab, hb⟩

theorem abreast_during {x : Act α} {x' : Act β} (activity : Activity)
    (h : Abreast set l σ p R x w x' w') :
    Abreast set l σ p R (x.during activity) w (x'.during activity) w' :=
  abreast_rethrow (Error.wraps_during activity) h

theorem run_inquire_calm (hw : w.context = {}) : inquire.run w = (.ok (), w) := by
  obtain ⟨heap, entries, instances, cache, context⟩ := w
  obtain rfl : context = {} := hw
  rfl

theorem abreast_inquire (hb : w.Abreast set l σ p w') :
    Abreast set l σ p (fun _ _ _ => True) inquire w inquire w' := by
  unfold Abreast Overflows
  rw [run_inquire_calm hb.calm.1, run_inquire_calm hb.calm.2]
  exact .inr ⟨p, .refl p, .ok trivial, hb⟩

/-- After an evaluation with endless patience, only the heap is another. -/
theorem run_evaluate_calm (hw : w.context = {}) (steps : Nat)
    {run : EvalState → Except RuntimeError Value × EvalState}
    (hp : (run (start steps w)).2.patience = .endless) :
    (evaluate steps run).run w =
      ((run (start steps w)).1.mapError .runtime |>.map (·, (run (start steps w)).2.steps),
        { w with heap := (run (start steps w)).2.heap }) := by
  rw [run_evaluate]
  unfold finish
  rw [hp, hw, ← hw]

theorem endless_start (hw : w.context = {}) (steps : Nat) : (start steps w).patience = .endless := by
  simp [start, hw]

/-- Evaluating a value comes to the same. -/
theorem abreast_force (hlib : set.host.Natural) (hb : w.Abreast set l σ p w') (steps steps' : Nat)
    {v v' : Value} (hv : v.Held p.heap v') :
    Abreast set l σ p (fun q x y => x.1.Twin q.heap y.1) (evaluate steps (EvalState.force set · v)) w
      (evaluate steps' (EvalState.force set · v')) w' := by
  have he := endless_start hb.calm.1 steps
  have he' := endless_start hb.calm.2 steps'
  have hs : (start steps w).Like True p.heap (start steps' w') :=
    ⟨hb.heap.behind.idle, .refl _, he, he'⟩
  have hrest := Machine.rests_demand set set.limit v he
  have hrest' := Machine.rests_demand set set.limit v' he'
  have hfollows := Machine.abreast_demand hlib hs hb.heap hv set.limit
  unfold Abreast Overflows
  rw [run_evaluate_calm hb.calm.1 steps hrest.endless, run_evaluate_calm hb.calm.2 steps' hrest'.endless]
  unfold EvalState.force
  generalize Machine.run set (Machine.demand set.limit v [] (start steps w)) = y at hrest hfollows ⊢
  generalize Machine.run set (Machine.demand set.limit v' [] (start steps' w')) = y' at hrest' hfollows ⊢
  rcases hfollows with ⟨e, hr, hover⟩ | ⟨a, hr, ha, hg⟩
  · exact .inl ⟨.runtime e, by rw [hr]; rfl, by simp [Error.limit?, Error.runtime?, hover, RuntimeFault.limit?]⟩
  · refine .inr ⟨_, WorldPairing.within_heap ha.within, ?_, hb.withHeap hg ha (hrest'.ripens.mono (Set.subset_univ _))⟩
    generalize y.1 = r at hr ⊢
    generalize y'.1 = r' at hr ⊢
    cases hr with
    | ok hu => exact .ok hu
    | error he =>
      rw [he trivial]
      exact .error _

end Act

end LazySession
