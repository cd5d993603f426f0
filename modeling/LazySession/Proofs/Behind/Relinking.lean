import LazySession.Proofs.Behind.World

/-!
# Linking again what has been linked

A module that is linked only in the other world is linked in the world behind, too, and before it the
modules that it imports, in the order in which they are recorded. This gives a twin of the instance
known, unless what strict definitions take is too deep: `Loader.linksAgain_of_placed`.
-/

namespace LazySession

open Act

/-- From `w` to `v` modules in `K` have been linked that had been linked in `w'`. Only scopes outside
of `T` have got other names. -/
structure Relinked (set : Setting) (l : Loader) (σ : Story) (T : Set ScopeId) (K : List Laid)
    (p q : WorldPairing) (w v w' : World) : Prop where
  within : p.Within q
  gains : p.heap.Gains q.heap w.heap (regions σ.told ∪ laidRegions K)
  abreast : v.Abreast set l σ q w'
  ripens : w.heap.Ripens T v.heap
  entries : ∀ id, ¬ LaidIn K id → v.entries[id]? = w.entries[id]?

namespace Relinked

variable {set : Setting} {l : Loader} {σ : Story} {T : Set ScopeId} {K K' : List Laid}
variable {p q r : WorldPairing} {w v u w' : World}

theorem refl (hb : w.Abreast set l σ p w') (T : Set ScopeId) (K : List Laid) :
    Relinked set l σ T K p p w w w' :=
  ⟨.refl p, .refl _ _ _, hb, .refl _ _, fun _ _ => rfl⟩

theorem trans (h : Relinked set l σ T K p q w v w') (h' : Relinked set l σ T K q r v u w') :
    Relinked set l σ T K p r w u w' where
  within := h.within.trans h'.within
  gains := h.gains.trans h'.gains h.ripens.smallerThan
  abreast := h'.abreast
  ripens := h.ripens.trans h'.ripens
  entries id hid := (h'.entries id hid).trans (h.entries id hid)

theorem mono (h : Relinked set l σ T K p q w v w') {T' : Set ScopeId} (hT : T' ⊆ T)
    (hK : ∀ i ∈ K, i ∈ K') : Relinked set l σ T' K' p q w v w' where
  within := h.within
  gains := h.gains.mono (Set.union_subset_union_right _ fun _ ⟨i, hi, hx⟩ => ⟨i, hK i hi, hx⟩)
  abreast := h.abreast
  ripens := h.ripens.mono hT
  entries id hid := h.entries id fun ⟨i, hi, he⟩ => hid ⟨i, hK i hi, he⟩

theorem of_left (hb : w.Abreast set l σ p w') {g : Heap} (hT : p.heap.Amid T .univ) (ha : w.heap.Adds g)
    (hr : w.heap.Ripens T g) (K : List Laid) :
    Relinked set l σ T K p p w { w with heap := g } w' :=
  ⟨.refl p, .refl _ _ _, hb.withHeap (hb.heap.left hT ha hr) (.refl _ w.heap _) (.refl _ _), hr,
    fun _ _ => rfl⟩

end Relinked

/-! ## Strict definitions -/

/-- From `w` to `v` only values have been found that are known in the heap `G`. -/
structure World.Finds (set : Setting) (σ : Story) (G : Heap) (p q : Pairing) (w v : World) : Prop where
  same : v = { w with heap := v.heap }
  abreast : v.heap.Abreast set σ.first σ.scopes σ.told q G
  gains : p.Gains q w.heap (regions σ.told)
  ripens : w.heap.Ripens .univ v.heap

section
variable {set : Setting} {σ : Story} {G : Heap} {p q r : Pairing} {w v u : World}

theorem World.Finds.refl (hb : w.heap.Abreast set σ.first σ.scopes σ.told p G) : w.Finds set σ G p p w :=
  ⟨rfl, hb, .refl _ _ _, .refl _ _⟩

theorem World.Finds.trans (h : World.Finds set σ G p q w v) (h' : World.Finds set σ G q r v u) :
    World.Finds set σ G p r w u where
  same := by
    rw [h'.same, h.same]
  abreast := h'.abreast
  gains := h.gains.trans h'.gains h.ripens.smallerThan
  ripens := h.ripens.trans h'.ripens

/-- A value that is known in the other heap is found again. -/
theorem Act.meets_force_known (hlib : set.host.Natural) (hw : w.context = {})
    (hb : w.heap.Abreast set σ.first σ.scopes σ.told p G) {a b : Value} (hab : a.Held p b)
    (hk : ∀ id, b = .thunk id → σ.first id ∨ Among σ.told id) (steps : Nat) :
    (evaluate steps (EvalState.force set · a)).Meets w (fun _ v => ∃ q, World.Finds set σ G p q w v)
      (fun e _ => e.limit? ≠ none) := by
  have he := endless_start hw steps
  have hrest := Machine.rests_demand set set.limit a he
  unfold Act.Meets
  rw [run_evaluate_calm hw steps hrest.endless]
  unfold EvalState.force
  cases hab with
  | @value a b hab =>
    have hnow : (start steps w).demand a = .now (.ok a) := by
      cases a with
      | thunk id => exact absurd rfl (hab.not_thunk.1 id)
      | _ => rfl
    simp only [Machine.demand, hnow]
    rw [Machine.run_of_finished (Machine.next_finishes _ _)]
    exact ⟨p, .refl hb⟩
  | @thunk a b hab =>
    have hcaught := hb.record.catches hlib (hk b rfl) (s := start steps w) set.limit he hb.behind hb.informed hab
    generalize Machine.run set (Machine.demand set.limit (.thunk a) [] (start steps w)) = y at hrest hcaught ⊢
    rcases hcaught with ⟨e, hr, hover⟩ | ⟨_, q, x, -, hc⟩
    · simp [hr, Except.mapError, Except.map, Error.limit?, Error.runtime?, hover, RuntimeFault.limit?]
    · simp only [hc.value, Except.mapError, Except.map]
      exact ⟨q, rfl, hb.catch hc.heap hc.informed hc.gains.within hc.ripens hc.forcing, hc.gains, hc.ripens⟩

namespace Loader

theorem meets_evalStrict_known (hlib : set.host.Natural) (mod : String) {fields' : Table Value}
    (ds : List Definition) (hk : ∀ d ∈ ds, d.binding.strict = true → ∀ id,
      fields'.get? d.binding.name = some (.thunk id) → σ.first id ∨ Among σ.told id) :
    ∀ {p : Pairing} {w : World} {fields : Table Value} (steps : Nat), w.context = {} →
      w.heap.Abreast set σ.first σ.scopes σ.told p G → fields.Twin (Value.Held p) fields' →
      (evalStrict set mod fields steps ds).Meets w (fun _ v => ∃ q, World.Finds set σ G p q w v)
        (fun e _ => e.limit? ≠ none) := by
  induction ds with
  | nil => exact fun _ _ hb _ => meets_pure ⟨_, .refl hb⟩
  | cons d ds ih =>
    intro p w fields steps hw hb hf
    obtain ⟨hkd, hk⟩ := List.forall_mem_cons.mp hk
    unfold evalStrict
    split
    · rename_i hstrict
      have hv : ((fields.get? d.binding.name).getD .unit).Held p
          ((fields'.get? d.binding.name).getD .unit) := by
        rcases rel_cases (hf.get? d.binding.name) with ⟨hx, hx'⟩ | ⟨v, v', hx, hx', hv⟩
        · rw [hx, hx']
          exact .value .unit
        · rw [hx, hx']
          exact hv
      have hknown : ∀ id, (fields'.get? d.binding.name).getD .unit = .thunk id →
          σ.first id ∨ Among σ.told id := by
        intro id hid
        cases hx : fields'.get? d.binding.name with
        | none => simp [hx] at hid
        | some x =>
          obtain rfl : x = .thunk id := by simpa [hx] using hid
          exact hkd hstrict id hx
      refine meets_bind (meets_during ((meets_force_known hlib hw hb hv hknown steps).mono ?_ fun _ _ h => h))
      rintro ⟨_, n⟩ v ⟨q, hq⟩
      refine (ih hk n (by rw [hq.same, hw]) hq.abreast (hf.imp fun _ _ hv => hv.mono hq.gains.within)).mono
        ?_ fun _ _ h => h
      rintro _ u ⟨r, hr⟩
      exact ⟨r, hq.trans hr⟩
    · exact ih hk steps hw hb hf

/-! ## Imports -/

theorem twin_importNames (own : List String) (i : String) {fields fields' : Table Value}
    (hf : fields.Twin (Value.Held p) fields') : ∀ {names names' : Table Value},
      names.Twin (Value.Held p) names' →
      (importNames own i fields names).Twin (Value.Held p) (importNames own i fields' names') := by
  induction hf with
  | nil => exact fun h => h
  | @cons x x' _ _ hx _ ih =>
    intro names names' hn
    obtain ⟨n, v⟩ := x
    obtain ⟨n', v'⟩ := x'
    obtain ⟨rfl, hv⟩ := hx
    refine ih ?_
    have hput := hn.put (i ++ "." ++ n) hv
    simp only
    split
    · exact hput
    · exact hput.put n hv

theorem importedNames_snoc (l : Loader) (w : World) (own done : List String) (i : String) :
    l.importedNames w own (done ++ [i]) = importNames own i (l.fields w i) (l.importedNames w own done) := by
  simp [importedNames]

variable {l : Loader} {K : List Laid} {w' : World} {linkOne : String → Act InstanceId}

/-- The module, which is linked in `w'`, is linked by `linkOne`, too. -/
def LinksAgain (set : Setting) (l : Loader) (σ : Story) (K : List Laid) (w' : World)
    (linkOne : String → Act InstanceId) (n : String) : Prop :=
  ∀ {p : WorldPairing} {w : World}, w.Abreast set l σ p w' →
    (linkOne n).Meets w (fun i v => ∃ q j, l.Holds w' n j ∧ q.instances i j ∧
      Relinked set l σ .univ K p q w v w') (fun e _ => e.limit? ≠ none)

/-- Of a module that is being linked again: the scope has the names of imports that have been linked in
`w'`, and neither it nor that of the builtin functions has a partner yet. -/
structure Filled (l : Loader) (own : List String) (root scope : ScopeId) (done : List String)
    (p : Pairing) (h : Heap) (w' : World) : Prop where
  lt : root < scope
  free : ∀ y, ¬ p.scopes root y ∧ ¬ p.scopes scope y
  names : ∃ names, h.scopes[scope]? = some ⟨names, some root⟩ ∧
    names.Twin (Value.Held p) (l.importedNames w' own done)

variable {own : List String} {root scope : ScopeId}

theorem Filled.relinked {done : List String} {p q : WorldPairing} {v : World}
    (hf : Filled l own root scope done p.heap w.heap w')
    (hr : Relinked set l σ .univ K p q w v w') : Filled l own root scope done q.heap v.heap w' := by
  obtain ⟨names, hs, hn⟩ := hf.names
  have hlt := (Array.getElem?_eq_some_iff.mp hs).1
  refine ⟨hf.lt, fun y => ⟨fun hy => ?_, fun hy => ?_⟩, names,
    hr.ripens.idle.scopes scope trivial _ hs, hn.imp fun _ _ hv => hv.mono hr.within.heap⟩
  · rcases hr.gains.scopes hy with hy | hy
    · exact (hf.free y).1 hy
    · exact Nat.lt_irrefl _ (Nat.lt_of_lt_of_le (Nat.lt_trans hf.lt hlt) hy)
  · rcases hr.gains.scopes hy with hy | hy
    · exact (hf.free y).2 hy
    · exact Nat.lt_irrefl _ (Nat.lt_of_lt_of_le hlt hy)

/-- The imports are linked, and their fields come into the scope. -/
theorem meets_linkImports_again (mod : String) (is : List String) :
    ∀ {done : List String} {p : WorldPairing} {w : World},
      (∀ i ∈ is, LinksAgain set l σ K w' linkOne i) → w.Abreast set l σ p w' →
      Filled l own root scope done p.heap w.heap w' →
      (linkImports linkOne mod scope own is).Meets w
        (fun _ v => ∃ q, Relinked set l σ {x | x ≠ scope} K p q w v w' ∧
          Filled l own root scope (done ++ is) q.heap v.heap w')
        (fun e _ => e.limit? ≠ none) := by
  induction is with
  | nil =>
    intro done p w _ hb hf
    rw [List.append_nil]
    exact meets_pure ⟨p, .refl hb _ _, hf⟩
  | cons i is ih =>
    intro done p w hone hb hf
    obtain ⟨hi, hone⟩ := List.forall_mem_cons.mp hone
    unfold linkImports
    refine meets_bind (meets_during ((hi hb).mono ?_ fun _ _ h => h))
    rintro inst v ⟨q, j, hj, hinst, hr⟩
    refine meets_get_bind (meets_set_bind ?_)
    obtain ⟨x, y, hx, hy, hxy⟩ := hr.abreast.instances hinst
    have hfields : l.fields w' i = y.fields := by
      obtain ⟨id, e, hid, he, hlinked⟩ := hj
      simp [fields, instance?_eq_some.mpr ⟨id, e, j, hid, he, hlinked, hy⟩]
    have hf' := hf.relinked hr
    obtain ⟨names, hs, hn⟩ := hf'.names
    simp only [hx, Option.map_some, Option.getD_some]
    have hT : q.heap.Amid {x | x ≠ scope} .univ := by
      intro a b hab
      refine ⟨?_, trivial⟩
      rintro rfl
      exact (hf'.free b).2 hab
    have hleft := Relinked.of_left hr.abreast hT (Heap.adds_importFields scope own i x.fields v.heap)
      (Heap.ripens_importFields (show scope ∉ {x | x ≠ scope} from fun hm => hm rfl) own i x.fields v.heap) K
    have hfilled : Filled l own root scope (done ++ [i]) q.heap
        (importFields scope own i x.fields v.heap) w' := by
      refine ⟨hf'.lt, hf'.free, _, scope_importFields own i x.fields hs, ?_⟩
      rw [importedNames_snoc, hfields]
      exact twin_importNames own i hxy.fields hn
    refine (ih hone hleft.abreast hfilled).mono ?_ fun _ _ h => h
    rintro _ u ⟨r, hru, hfu⟩
    refine ⟨r, ((hr.mono (Set.subset_univ _) fun _ h => h).trans hleft).trans hru, ?_⟩
    rwa [List.append_cons]

/-! ## Modules -/

theorem ripens_narrow {h h' : Heap} (hr : h.Ripens {x | x ≠ scope} h') (hs : h.scopes.size ≤ scope) :
    h.Ripens .univ h' where
  idle := by
    refine ⟨fun id _ s hid => hr.idle.scopes id ?_ s hid, hr.idle.size, hr.idle.thunks, hr.idle.cells⟩
    rintro rfl
    exact Nat.lt_irrefl _ (Nat.lt_of_lt_of_le (Array.getElem?_eq_some_iff.mp hid).1 hs)
  done := hr.done

/-- The instance of a module that is linked in the second world has been made in the first. -/
theorem abreast_setInstance {p : WorldPairing} (hb : w.Abreast set l σ p w') {id : EntryId}
    {e e' : Entry} {n : String} (hn : l.modules.get? n = some id) (he : w.entries[id]? = some e)
    (he' : w'.entries[id]? = some e') {i i' : Instance} {j : InstanceId} (hj : e'.linked = some j)
    (hi' : w'.instances[j]? = some i') {q : Pairing} {h : Heap} (hname : i'.name = i.name)
    (hfields : i.fields.Twin (Value.Held q) i'.fields)
    (hh : h.Abreast set σ.first σ.scopes σ.told q w'.heap) (hq : p.heap.Within q)
    (hseen : ∀ k ∈ σ.laid, k.entry ≠ id → Disjoint k.region p.heap.seen → Disjoint k.region q.seen) :
    World.Abreast (setInstance { w with heap := h } id i) set l σ
      { heap := q, entries := p.entries, instances := pairUp p.instances w.instances.size j } w' := by
  have hw : p.Within { heap := q, entries := p.entries, instances := pairUp p.instances w.instances.size j } :=
    ⟨hq, fun h => h, .inl⟩
  have hself := hb.home hn
  have hentry (a : EntryId) : (setInstance { w with heap := h } id i).entries[a]? =
      if id = a then some { e with linked := some w.instances.size } else w.entries[a]? := by
    simp only [setInstance, Array.getElem?_modify]
    split
    · rename_i ha
      rw [← ha, he]
      rfl
    · rfl
  refine ⟨hh, hb.bounded, ⟨hb.entries.unique, fun {a b} hab => ?_, fun hf => hf.elim⟩,
    fun {a b x x'} hab hx hx' hnone => ?_, fun {a b} hab => ?_, hb.calm, hb.truthful, hb.home, hb.keyed,
    hb.early, hb.placed, hb.apart, hb.old, hb.there, fun k hk => ?_⟩
  · obtain ⟨x, x', hx, hx', hxx⟩ := hb.entries.related hab
    -- the entry of the module itself is the one that has changed
    by_cases ha : id = a
    · subst ha
      obtain rfl := (hb.entries.unique hself hab).mp rfl
      obtain rfl := Option.some.inj (he.symm.trans hx)
      obtain rfl := Option.some.inj (he'.symm.trans hx')
      refine ⟨{ e with linked := some w.instances.size }, e', by rw [hentry, if_pos rfl], he', hxx.code,
        fun i hi => ?_⟩
      obtain rfl := Option.some.inj hi
      exact ⟨j, hj, .inr ⟨rfl, rfl⟩⟩
    · exact ⟨x, x', by rw [hentry, if_neg ha, hx], hx', hxx.mono hw⟩
  · rw [hentry] at hx
    split at hx
    · cases hx
      cases hnone
    · exact hb.late hab hx hx' hnone
  · rcases hab with hab | ⟨rfl, rfl⟩
    · obtain ⟨x, y, hx, hy, hxy⟩ := hb.instances hab
      refine ⟨x, y, ?_, hy, hxy.mono hw⟩
      have := (Array.getElem?_eq_some_iff.mp hx).1
      simp only [setInstance, Array.getElem?_push]
      rw [if_neg (by omega), hx]
    · exact ⟨i, i', by simp [setInstance], hi', hname, hfields⟩
  · by_cases hk' : id = k.entry
    · exact .inl ⟨{ e with linked := some w.instances.size }, by rw [hentry, if_pos hk'],
        Option.some_ne_none _⟩
    · refine (hb.untold k hk).imp ?_ (hseen k hk (Ne.symm hk'))
      rintro ⟨x, hx, hl⟩
      exact ⟨x, by rw [hentry, if_neg hk', hx], hl⟩

theorem laidIn_cons {i : Laid} {id : EntryId} : LaidIn (i :: K) id ↔ i.entry = id ∨ LaidIn K id := by
  simp [LaidIn]

/-- The module that was linked last is linked again. -/
theorem meets_makeInstance_again (hlib : set.host.Natural) {i : Laid} {code : ModuleCode}
    {inst : InstanceId} {fields : Table Value}
    (hh : Stands l σ.first σ.before σ.scopes σ.told w' K i code inst fields) (hi : i ∈ σ.laid)
    (hone : ∀ m ∈ code.imports, LinksAgain set l σ K w' linkOne m)
    {p : WorldPairing} (hb : w.Abreast set l σ p w') (he : w.entries[i.entry]? = some ⟨code, none⟩) :
    (makeInstance set linkOne i.entry code.name code).Meets w
      (fun a v => ∃ q, q.instances a inst ∧ Relinked set l σ .univ (i :: K) p q w v w')
      (fun e _ => e.limit? ≠ none) := by
  rw [makeInstance_eq]
  refine meets_get_bind (meets_set_bind (meets_bind ?_))
  have hsize := newModuleScope_fst w.heap
  have hempty := scope_newModuleScope w.heap
  have hroot := root_newModuleScope w.heap
  have hnew := Relinked.of_left hb (Heap.amid_univ p.heap) (Heap.adds_newModuleScope w.heap)
    (Heap.ripens_newModuleScope .univ w.heap) K
  generalize newModuleScope w.heap = x at hsize hempty hroot hnew ⊢
  obtain ⟨scope, h₁⟩ := x
  simp only at hsize hempty hroot hnew ⊢
  have hlt : w.heap.scopes.size < scope := hsize ▸ Nat.lt_succ_self _
  have hfilled : Filled l code.exports w.heap.scopes.size scope [] p.heap h₁ w' := by
    refine ⟨hlt, fun y => ⟨fun hy => ?_, fun hy => ?_⟩, [], hempty, .nil⟩
    · exact Nat.lt_irrefl _ (hb.heap.behind.idle.scopes.lt hy).1
    · exact Nat.lt_asymm hlt (hb.heap.behind.idle.scopes.lt hy).1
  refine (meets_linkImports_again code.name code.imports hone hnew.abreast hfilled).mono ?_ fun _ _ h => h
  rintro _ v ⟨q, hr, hf⟩
  refine meets_get_bind (meets_set_bind (meets_bind ?_))
  rw [List.nil_append] at hf
  obtain ⟨names, hs, hnames⟩ := hf.names
  have hr₀ := (hnew.mono (Set.subset_univ {x | x ≠ scope}) fun _ h => h).trans hr
  have hroot' : v.heap.scopes[w.heap.scopes.size]? =
      some ⟨Builtin.all.map fun b => (b.name, .builtin b), none⟩ :=
    hr.ripens.idle.scopes _ (Nat.ne_of_lt hlt) _ hroot
  -- the region of the module has no partners yet
  have hregion : Disjoint i.region q.heap.seen := by
    have hp : Disjoint i.region p.heap.seen := by
      refine (hb.untold i hi).resolve_left ?_
      rintro ⟨e, he', hl⟩
      obtain rfl := Option.some.inj (he.symm.trans he')
      exact hl rfl
    refine Disjoint.mono_right hr₀.gains.seen (Disjoint.union_right hp (Disjoint.union_right ?_ ?_))
    · exact Set.disjoint_left.mpr fun x hx ⟨j, hj, hx'⟩ => Set.disjoint_left.mp (hb.apart i hi j hj) hx hx'
    · exact Set.disjoint_left.mpr fun x hx ⟨k, hk, hx'⟩ =>
        Set.disjoint_left.mp (hh.apart k hk) hx' hx
  obtain ⟨a, ha, hfields, hbehind⟩ := hh.made.pair hr.abreast.heap.behind hroot' hs hlt hnames hf.free hregion
    (le_refl w.heap.scopes.size)
  have hdefs := Heap.ripens_defineAll (show scope ∉ {x | x ≠ scope} from fun hm => hm rfl) code.defs v.heap
  have hadds := adds_defineAll scope code.defs v.heap
  have hfound := hr.abreast.heap.found hadds hdefs hbehind ha (hb.old i hi) fun j hj => (hb.apart i hi j hj).symm
  refine (meets_evalStrict_known hlib code.name code.defs hh.strict
    (w := { v with heap := (defineAll scope code.defs v.heap).2 }) 0 hr.abreast.calm.1 hfound hfields).mono
    ?_ fun _ _ h => h
  rintro _ u ⟨b, hu⟩
  refine meets_get_bind (meets_set_bind (meets_pure ?_))
  have hab : a.Gains b v.heap (regions σ.told) :=
    Pairing.Gains.trans (.refl a v.heap _) hu.gains hdefs.smallerThan
  have hentry : v.entries[i.entry]? = some ⟨code, none⟩ := (hr₀.entries _ hh.once.2).trans he
  have hseen : b.seen ⊆ q.heap.seen ∪ (i.region ∪ regions σ.told) :=
    hab.seen.trans (Set.union_subset (ha.seen.trans (Set.union_subset_union_right _ Set.subset_union_left))
      (Set.subset_union_right.trans Set.subset_union_right))
  have hset := abreast_setInstance hr.abreast hh.name hentry hh.entry rfl hh.linked
    (i := ⟨code.name, (defineAll scope code.defs v.heap).1⟩) rfl
    (hfields.imp fun _ _ hv => hv.mono hab.within) hu.abreast (ha.within.trans hab.within) ?_
  · have hworld : setInstance u i.entry ⟨code.name, (defineAll scope code.defs v.heap).1⟩ =
        setInstance { v with heap := u.heap } i.entry ⟨code.name, (defineAll scope code.defs v.heap).1⟩ := by
      rw [hu.same]
    have hsize' : u.instances.size = v.instances.size := by rw [hu.same]
    rw [hworld, hsize']
    refine ⟨⟨b, q.entries, pairUp q.instances v.instances.size inst⟩, .inr ⟨rfl, rfl⟩,
      ⟨hr₀.within.heap.trans (ha.within.trans hab.within), hr₀.within.entries,
        fun h => .inl (hr₀.within.instances h)⟩, ?_, hset, ?_, fun id hid => ?_⟩
    · refine Pairing.Gains.trans (hr₀.gains.mono ?_) ((ha.mono ?_).trans (hab.mono ?_) hr₀.ripens.smallerThan)
        ⟨le_rfl, le_rfl, le_rfl⟩
      · exact Set.union_subset_union_right _ fun x ⟨k, hk, hx⟩ => ⟨k, List.mem_cons_of_mem _ hk, hx⟩
      · exact fun x hx => .inr ⟨i, List.mem_cons_self, hx⟩
      · exact Set.subset_union_left
    · exact ripens_narrow ((hr₀.ripens.trans hdefs).trans (hu.ripens.mono (Set.subset_univ _)))
        hlt.le
    · rw [laidIn_cons, not_or] at hid
      rw [← hr₀.entries id hid.2]
      simp [setInstance, Array.getElem?_modify, hid.1]
  · intro k hk hne hd
    refine Disjoint.mono_right hseen (Disjoint.union_right hd (Disjoint.union_right ?_ ?_))
    · exact hb.placed.disjoint k hk i hi hne
    · exact Set.disjoint_left.mpr fun x hx ⟨j, hj, hx'⟩ => Set.disjoint_left.mp (hb.apart k hk j hj) hx hx'

/-! ## The way of linking -/

/-- What is known of the modules in `visiting` when a module of `l` is linked by the loader `l'`: none of
them is one of those that are known, and there is fuel for all others. -/
structure Visits (l l' : Loader) (known : EntryId → Prop) (fuel : Nat) (visiting : List String) :
    Prop where
  nodup : visiting.Nodup
  names : ∀ n ∈ visiting, n ∈ l'.modules.names
  unknown : ∀ n ∈ visiting, ∀ id, l.modules.get? n = some id → ¬ known id
  fuel : l'.modules.length < fuel + visiting.length

theorem Visits.enter {l l' : Loader} {known : EntryId → Prop} (known' : EntryId → Prop) {fuel : Nat}
    {visiting : List String} {n : String} (h : Visits l l' known fuel visiting) (hn : n ∉ visiting)
    (hm : n ∈ l'.modules.names)
    (hu : ∀ id, l.modules.get? n = some id → ¬ known' id) (hk : ∀ id, known' id → known id) :
    ∃ rest, fuel = rest + 1 ∧ Visits l l' known' rest (visiting ++ [n]) := by
  have hnodup : (visiting ++ [n]).Nodup := by
    refine List.nodup_append.mpr ⟨h.nodup, List.nodup_singleton n, fun a ha b hb => ?_⟩
    rw [List.mem_singleton.mp hb]
    rintro rfl
    exact hn ha
  have hnames : ∀ m ∈ visiting ++ [n], m ∈ l'.modules.names := by
    intro m hm'
    rcases List.mem_append.mp hm' with hm' | hm'
    · exact h.names m hm'
    · exact List.mem_singleton.mp hm' ▸ hm
  have hlength : (visiting ++ [n]).length ≤ l'.modules.names.length :=
    (List.subperm_of_subset hnodup hnames).length_le
  have hfuel := h.fuel
  simp only [List.length_append, List.length_singleton, Table.names, List.length_map] at hlength
  obtain ⟨rest, rfl⟩ : ∃ rest, fuel = rest + 1 := ⟨fuel - 1, by omega⟩
  refine ⟨rest, rfl, hnodup, hnames, fun m hm' id hid => ?_, ?_⟩
  · rcases List.mem_append.mp hm' with hm' | hm'
    · exact fun hk' => h.unknown m hm' id hid (hk id hk')
    · rw [List.mem_singleton.mp hm'] at hid
      exact hu id hid
  · simp only [List.length_append, List.length_singleton]
    omega

theorem link_eq (set : Setting) (fuel : Nat) {l' : Loader} {visiting : List String} {n : String} {id : EntryId}
    {e : Entry} (hn : l'.modules.get? n = some id) (he : w.entries[id]? = some e) (hv : n ∉ visiting) :
    (link set l' (fuel + 1) visiting n).run w = match e.linked with
      | some i => (.ok i, w)
      | none => (makeInstance set (link set l' fuel (visiting ++ [n])) id n e.code).run w := by
  unfold link
  rw [run_bind, run_get]
  simp only [hn, he, Option.bind_some, Option.map_some]
  rw [if_neg (by simpa using hv)]
  cases e.linked <;> rfl

/-- A module that is known is linked in the first world, or it is to be linked there. -/
theorem link_known {l' : Loader} (hl' : ∀ {n id}, l.modules.get? n = some id → l'.modules.get? n = some id)
    {p : WorldPairing} (hb : w.Abreast set l σ p w') {n : String} {id : EntryId}
    (hn : l.modules.get? n = some id) (hk : σ.Knows id) {visiting : List String} (hv : n ∉ visiting)
    (fuel : Nat) :
    (∃ i j, (link set l' (fuel + 1) visiting n).run w = (.ok i, w) ∧ l.Holds w' n j ∧ p.instances i j) ∨
      ∃ code, w.entries[id]? = some ⟨code, none⟩ ∧ LaidIn σ.laid id ∧
        (link set l' (fuel + 1) visiting n).run w =
          (makeInstance set (link set l' fuel (visiting ++ [n])) id n code).run w := by
  obtain ⟨e, e', he, he', hee⟩ := hb.entries.related (hb.home hn)
  have hrun := link_eq set fuel (hl' hn) he hv
  cases hlinked : e.linked with
  | some i =>
    obtain ⟨j, hj, hij⟩ := hee.linked i hlinked
    rw [hlinked] at hrun
    exact .inl ⟨i, j, hrun, ⟨id, e', hn, he', hj⟩, hij⟩
  | none =>
    rw [hlinked] at hrun
    obtain ⟨e₁, j, -, he₁, hj, -⟩ := hb.known hk
    obtain rfl := Option.some.inj (he'.symm.trans he₁)
    refine .inr ⟨e.code, ?_, hb.late (hb.home hn) he he' hlinked (by simp [hj]), hrun⟩
    rw [he, ← hlinked]

/-- **Modules that have been linked are linked again**, in recorded order. -/
theorem linksAgain_of_placed (hlib : set.host.Natural) {l' : Loader}
    (hl' : ∀ {n id}, l.modules.get? n = some id → l'.modules.get? n = some id)
    (h : LazySession.Placed l σ.first σ.before σ.scopes σ.told w' K) (hsub : ∀ i ∈ K, i ∈ σ.laid) :
    ∀ {n id}, l.modules.get? n = some id → σ.before id ∨ LaidIn K id → ∀ {fuel visiting},
      Visits l l' (fun id => σ.before id ∨ LaidIn K id) fuel visiting →
      LinksAgain set l σ K w' (link set l' fuel visiting) n := by
  induction h with
  | nil =>
    intro n id hn hk fuel visiting hv p w hb
    have hk' : σ.before id := hk.resolve_right fun ⟨_, hi, _⟩ => nomatch hi
    obtain ⟨rest, rfl, -⟩ := hv.enter (fun _ => False) (fun hm => hv.unknown n hm id hn hk)
      (Table.get?_isSome.mp (by rw [hl' hn]; rfl)) (fun _ _ => not_false) fun _ => False.elim
    rcases link_known hl' hb hn (.inl hk') (fun hm => hv.unknown n hm id hn hk) rest with
      ⟨i, j, hrun, hj, hij⟩ | ⟨-, -, hlaid, -⟩
    · exact meets_of_run hrun ⟨p, j, hj, hij, .refl hb _ _⟩
    · exact absurd hk' (hb.placed.not_before hlaid)
  | @cons K i code inst fields rest hh ih =>
    intro n id hn hk fuel visiting hv p w hb
    have hsub' : ∀ k ∈ K, k ∈ σ.laid := fun k hk => hsub k (List.mem_cons_of_mem _ hk)
    have hwiden : ∀ {id}, σ.before id ∨ LaidIn K id → σ.before id ∨ LaidIn (i :: K) id :=
      fun h => h.imp_right fun h => laidIn_cons.mpr (.inr h)
    have hnot : n ∉ visiting := fun hm => hv.unknown n hm id hn hk
    have hmem : n ∈ l'.modules.names := Table.get?_isSome.mp (by rw [hl' hn]; rfl)
    -- either the module is the last one that was linked, or it is among the earlier ones
    by_cases hhead : i.entry = id
    · subst hhead
      obtain ⟨fuel, rfl, hv'⟩ := hv.enter (fun id => σ.before id ∨ LaidIn K id) hnot hmem
        (fun id hid => by
          obtain rfl := Option.some.inj (hn.symm.trans hid)
          exact not_or.mpr hh.once) fun _ => hwiden
      rcases link_known hl' hb hn (.inr ⟨i, hsub i List.mem_cons_self, rfl⟩) hnot fuel with
        ⟨a, j, hrun, hj, hij⟩ | ⟨code', he, -, hrun⟩
      · exact meets_of_run hrun ⟨p, j, hj, hij, .refl hb _ _⟩
      · -- the module is the last one that was linked
        obtain rfl : code' = code := by
          obtain ⟨e, e', he₁, he₁', hee⟩ := hb.entries.related (hb.home hn)
          obtain rfl := Option.some.inj (he.symm.trans he₁)
          obtain rfl := Option.some.inj (hh.entry.symm.trans he₁')
          exact hee.code.symm
        obtain rfl : code'.name = n := by
          obtain ⟨e, he, rfl⟩ := hb.keyed.get? hn
          obtain rfl := Option.some.inj (hh.entry.symm.trans he)
          rfl
        have hmake := meets_makeInstance_again hlib hh (hsub i List.mem_cons_self)
          (fun m hm => show LinksAgain set l σ K w' (link set l' fuel (visiting ++ [code'.name])) m by
            obtain ⟨id, hid, hk⟩ := hh.imports m hm
            exact ih hsub' hid hk hv') hb he
        unfold Act.Meets
        rw [hrun]
        refine hmake.mono ?_ fun _ _ h => h
        rintro a v ⟨q, hinst, hr⟩
        exact ⟨q, inst, ⟨i.entry, _, hn, hh.entry, rfl⟩, hinst, hr⟩
    · have hk' : σ.before id ∨ LaidIn K id := hk.imp_right fun h => (laidIn_cons.mp h).resolve_left hhead
      have hv' : Visits l l' (fun id => σ.before id ∨ LaidIn K id) fuel visiting :=
        ⟨hv.nodup, hv.names, fun m hm id hid h => hv.unknown m hm id hid (hwiden h), hv.fuel⟩
      refine (ih hsub' hn hk' hv' hb).mono ?_ fun _ _ h => h
      rintro a v ⟨q, j, hj, hinst, hr⟩
      exact ⟨q, j, hj, hinst, hr.mono Set.Subset.rfl fun k hk => List.mem_cons_of_mem _ hk⟩

end Loader

end

end LazySession
