import LazySession.Proofs.Behind.Relinking
import LazySession.Proofs.Session.Service

/-!
# Linking and reading in worlds of which one is behind

Where neither world has linked a module yet, both link it in step. Where only the second has, it is
linked again in the first. So linking and reading come to the same in both worlds, unless the first
ends by the depth limit: `Loader.abreast_load`, `Instance.abreast_read`. Adding modules may come
at another time in the second world than in the first: `Loader.abreast_refresh`.
-/

namespace LazySession

open Act

section
variable {α β : Type} {set : Setting} {l : Loader} {σ : Story} {p q : WorldPairing} {w w' : World}

namespace Act

variable {R : WorldPairing → α → β → Prop}

theorem Abreast.congr {x y : Act α} {x' y' : Act β} (h : Act.Abreast set l σ p R y w y' w')
    (hx : x.run w = y.run w) (hx' : x'.run w' = y'.run w') : Act.Abreast set l σ p R x w x' w' := by
  unfold Act.Abreast Overflows at *
  rwa [hx, hx']

theorem abreast_of_meets {x : Act α} {x' : Act β} {b : β} (hx' : x'.run w' = (.ok b, w'))
    (h : x.Meets w (fun a v => ∃ q, p.Within q ∧ R q a b ∧ v.Abreast set l σ q w')
      fun e _ => e.limit? ≠ none) : Act.Abreast set l σ p R x w x' w' := by
  unfold Act.Meets at h
  unfold Act.Abreast Overflows
  rw [hx']
  generalize x.run w = y at h ⊢
  obtain ⟨r, v⟩ := y
  cases r with
  | error e => exact .inl ⟨e, rfl, h⟩
  | ok a =>
    obtain ⟨q, hq, hab, hb⟩ := h
    exact .inr ⟨q, hq, .ok hab, hb⟩

end Act

namespace World

/-- Both heaps have more, and what has been paired is new to both. -/
theorem Abreast.own (hb : w.Abreast set l σ p w') {g g' : Heap} (ha : w.heap.Adds g)
    (ha' : w'.heap.Adds g') {T : Set ScopeId} (hr : w.heap.Ripens T g) (hr' : w'.heap.Ripens σ.scopes g')
    {a : Pairing} (hq : p.heap.Extends a w.heap w'.heap) (ht : g.idle.Twin Heap.nothing a g'.idle) :
    Abreast { w with heap := g } set l σ { p with heap := a } { w' with heap := g' } := by
  obtain ⟨hg, hgains⟩ := hb.heap.own ha ha' hr hr' hq ht
  exact hb.withHeap hg (hgains.mono Set.subset_union_right) hr'

theorem Abreast.not_scope (hb : w.Abreast set l σ p w') {b : ScopeId} (h : w'.heap.scopes.size ≤ b) :
    b ∉ σ.scopes := fun hm => Nat.not_lt_of_le h (hb.bounded b hm)

end World

theorem Pairing.Extends.of_idle {p q : Pairing} {h g : Heap} (hq : p.Extends q h.idle g.idle) :
    p.Extends q h g where
  within := hq.within
  thunks hab := by simpa using hq.thunks hab
  cells := hq.cells
  scopes := hq.scopes

namespace Loader

theorem idle_importFields (scope : ScopeId) (own : List String) (i : String) (fields : Table Value) :
    ∀ h : Heap, importFields scope own i fields h.idle = (importFields scope own i fields h).idle := by
  induction fields with
  | nil => exact fun _ => rfl
  | cons x fields ih =>
    intro h
    refine Eq.trans ?_ (ih _)
    unfold importFields
    simp only [List.foldl_cons]
    split <;> rfl

theorem abreast_evalStrict (hlib : set.host.Natural) (mod : String) (ds : List Definition) :
    ∀ {p : WorldPairing} {w w' : World} {fields fields' : Table Value} (steps steps' : Nat),
      w.Abreast set l σ p w' → fields.Twin (Value.Held p.heap) fields' →
      Act.Abreast set l σ p (fun _ _ _ => True) (evalStrict set mod fields steps ds) w
        (evalStrict set mod fields' steps' ds) w' := by
  induction ds with
  | nil => exact fun _ _ hb _ => abreast_pure hb trivial
  | cons d ds ih =>
    intro p w w' fields fields' steps steps' hb hf
    unfold evalStrict
    split
    · have hv : ((fields.get? d.binding.name).getD .unit).Held p.heap
          ((fields'.get? d.binding.name).getD .unit) := by
        rcases rel_cases (hf.get? d.binding.name) with ⟨hx, hx'⟩ | ⟨v, v', hx, hx', hv⟩
        · rw [hx, hx']
          exact .value .unit
        · rw [hx, hx']
          exact hv
      refine abreast_bind (abreast_during _ (abreast_force hlib hb steps steps' hv)) ?_
      rintro q ⟨_, n⟩ ⟨_, n'⟩ w₁ w₁' hq - hb₁
      exact ih _ _ hb₁ (hf.imp fun _ _ hv => hv.mono hq.heap)
    · exact ih steps steps' hb hf

section
variable {linkOne linkOne' : String → Act InstanceId}

theorem abreast_linkImports (mod : String) (own is : List String) :
    ∀ {p : WorldPairing} {w w' : World} {a b : ScopeId},
      (∀ i {q : WorldPairing} {v v' : World}, p.Within q → v.Abreast set l σ q v' →
        Act.Abreast set l σ q (fun r => r.instances) (linkOne i) v (linkOne' i) v') →
      w.Abreast set l σ p w' → p.heap.scopes a b → b ∉ σ.scopes →
      Act.Abreast set l σ p (fun _ _ _ => True) (linkImports linkOne mod a own is) w
        (linkImports linkOne' mod b own is) w' := by
  induction is with
  | nil => exact fun _ hb _ _ => abreast_pure hb trivial
  | cons i is ih =>
    intro p w w' a b hone hb hab hnot
    unfold linkImports
    refine abreast_bind (abreast_during _ (hone i (.refl p) hb)) ?_
    intro q inst inst' w₁ w₁' hq hinst hb₁
    refine abreast_get_bind (abreast_set_bind ?_)
    obtain ⟨x, y, hx, hy, hxy⟩ := hb₁.instances hinst
    rw [hx, hy]
    have htwin := twin_importFields (hq.heap.scopes hab) own i hxy.fields hb₁.heap.behind.idle
    rw [idle_importFields, idle_importFields] at htwin
    have hb₂ := hb₁.own (Heap.adds_importFields a own i x.fields w₁.heap)
      (Heap.adds_importFields b own i y.fields w₁'.heap)
      (Heap.ripens_importFields (Set.notMem_empty a) own i x.fields w₁.heap)
      (Heap.ripens_importFields hnot own i y.fields w₁'.heap) (.refl _ _ _) htwin
    exact ih (fun j {_ _ _} hr hv => hone j (hq.trans hr) hv) hb₂ (hq.heap.scopes hab) hnot

/-- A module that was linked in neither world has been linked in both. -/
theorem abreast_setInstances (hb : w.Abreast set l σ p w') {a b : EntryId} (hab : p.entries a b)
    (hn : ¬ σ.Knows b) {i i' : Instance} (hi : i.Twin p i') : ∃ q, p.Within q ∧
      q.instances w.instances.size w'.instances.size ∧
      (setInstance w a i).Abreast set l σ q (setInstance w' b i') := by
  have hq : p.Within { p with instances := pairUp p.instances w.instances.size w'.instances.size } :=
    ⟨.refl _, id, .inl⟩
  have hentry (v : World) (a c : EntryId) (i : Instance) : (setInstance v a i).entries[c]? =
      if a = c then v.entries[c]?.map fun e => { e with linked := some v.instances.size }
      else v.entries[c]? := by
    simp only [setInstance, Array.getElem?_modify]
  -- what was known before the two instances is still known
  have hlater : w'.Ripens σ.Knows σ.scopes (setInstance w' b i') := by
    refine ⟨.refl _ _, fun c hc => ?_, fun j x hj => ?_⟩
    · rw [hentry, if_neg]
      rintro rfl
      exact hn hc
    · have := (Array.getElem?_eq_some_iff.mp hj).1
      simp only [setInstance, Array.getElem?_push]
      rw [if_neg (by omega), hj]
  refine ⟨_, hq, .inr ⟨rfl, rfl⟩, hb.heap, hb.bounded, ?_, fun {c d e e'} hcd he he' hnone hsome => ?_,
    fun {c d} hcd => ?_, hb.calm, hb.truthful, hb.home, ⟨hb.keyed.nodup, fun x hx => ?_⟩,
    fun id hid => hlater.links (.inl hid) (hb.early id hid),
    hb.placed.mono Set.Subset.rfl (fun _ h => h) hb.early hlater, hb.apart, hb.old, hb.there, fun k hk => ?_⟩
  · simp only [setInstance]
    refine (hb.entries.imp fun _ _ he => he.mono hq).modify hab fun e e' _ _ he => ⟨he.code, fun j hj => ?_⟩
    obtain rfl := Option.some.inj hj
    exact ⟨_, rfl, .inr ⟨rfl, rfl⟩⟩
  · have hiff := hb.entries.unique hab hcd
    rw [hentry] at he he'
    by_cases hac : a = c
    · rw [if_pos hac] at he
      obtain ⟨x, -, rfl⟩ := Option.map_eq_some_iff.mp he
      cases hnone
    · rw [if_neg hac] at he
      rw [if_neg fun h => hac (hiff.mpr h)] at he'
      exact hb.late hcd he he' hnone hsome
  · rcases hcd with hcd | ⟨rfl, rfl⟩
    · obtain ⟨x, y, hx, hy, hxy⟩ := hb.instances hcd
      have hlt := (Array.getElem?_eq_some_iff.mp hx).1
      have hlt' := (Array.getElem?_eq_some_iff.mp hy).1
      refine ⟨x, y, ?_, ?_, hxy.mono hq⟩
      · simp only [setInstance, Array.getElem?_push]
        rw [if_neg (by omega), hx]
      · simp only [setInstance, Array.getElem?_push]
        rw [if_neg (by omega), hy]
    · exact ⟨i, i', by simp [setInstance], by simp [setInstance], hi.mono hq⟩
  · obtain ⟨e, he, hname⟩ := hb.keyed.entry x hx
    rw [hentry, he]
    split
    · exact ⟨_, rfl, hname⟩
    · exact ⟨e, rfl, hname⟩
  · refine (hb.untold k hk).imp_left ?_
    rintro ⟨e, he, hl⟩
    rw [hentry, he]
    split
    · exact ⟨_, rfl, Option.some_ne_none _⟩
    · exact ⟨e, rfl, hl⟩

theorem abreast_makeInstance (hlib : set.host.Natural)
    (hone : ∀ i {q : WorldPairing} {v v' : World}, p.Within q → v.Abreast set l σ q v' →
      Act.Abreast set l σ q (fun r => r.instances) (linkOne i) v (linkOne' i) v')
    (hb : w.Abreast set l σ p w') {a b : EntryId} (hab : p.entries a b) (hn : ¬ σ.Knows b)
    (name : String) (code : ModuleCode) :
    Act.Abreast set l σ p (fun r => r.instances) (makeInstance set linkOne a name code) w
      (makeInstance set linkOne' b name code) w' := by
  rw [makeInstance_eq, makeInstance_eq]
  refine abreast_get_bind (abreast_set_bind ?_)
  obtain ⟨r, hextends, hscope, hheap⟩ := twin_newModuleScope hb.heap.behind.idle
  have hnot : (newModuleScope w'.heap).1 ∉ σ.scopes :=
    hb.not_scope (newModuleScope_fst w'.heap ▸ Nat.le_succ _)
  have hr' := WorldPairing.within_heap hextends.within
  have hb₀ := hb.own (Heap.adds_newModuleScope w.heap) (Heap.adds_newModuleScope w'.heap)
    (Heap.ripens_newModuleScope .univ w.heap) (Heap.ripens_newModuleScope _ w'.heap)
    hextends.of_idle hheap
  refine (abreast_bind (abreast_linkImports name code.exports code.imports
    (fun i {_ _ _} hq hv => hone i (hr'.trans hq) hv) hb₀ hscope hnot) ?_).within hr'
  intro q _ _ w₁ w₁' hq _ hb₁
  refine abreast_get_bind (abreast_set_bind ?_)
  obtain ⟨q', hq', hfields, hheap'⟩ := twin_defineAll code.defs (hq.heap.scopes hscope) hb₁.heap.behind.idle
  rw [Heap.idle_defineAll, Heap.idle_defineAll] at hfields hheap'
  have hb₁' := hb₁.own (adds_defineAll _ code.defs w₁.heap) (adds_defineAll _ code.defs w₁'.heap)
    (Heap.ripens_defineAll (Set.notMem_empty _) code.defs w₁.heap)
    (Heap.ripens_defineAll hnot code.defs w₁'.heap) hq'.of_idle hheap'
  refine (abreast_bind (abreast_evalStrict hlib name code.defs 0 0 hb₁' hfields) ?_).within
    (WorldPairing.within_heap hq'.within)
  intro q₂ _ _ w₂ w₂' hq₂ _ hb₂
  refine abreast_get_bind (abreast_set_bind ?_)
  have hinst : Instance.Twin q₂
      ⟨name, (defineAll (newModuleScope w.heap).1 code.defs w₁.heap).1⟩
      ⟨name, (defineAll (newModuleScope w'.heap).1 code.defs w₁'.heap).1⟩ :=
    ⟨rfl, hfields.imp fun _ _ hv => hv.mono hq₂.heap⟩
  obtain ⟨q₃, hq₃, hnew, hb₃⟩ := abreast_setInstances hb₂ (hq₂.entries (hq.entries hab)) hn hinst
  exact (abreast_pure hb₃ hnew).within hq₃

end

/-- **Linking comes to the same**, whatever has been linked in the second world before. -/
theorem abreast_link (hlib : set.host.Natural) {l₁ l₂ : Loader}
    (hl₁ : ∀ {n id}, l.modules.get? n = some id → l₁.modules.get? n = some id)
    (hl₂ : ∀ {n id}, l₂.modules.get? n = some id → σ.Knows id → l.modules.get? n = some id) (fuel : Nat) :
    ∀ {p : WorldPairing} {w w' : World} (visiting : List String) (name : String), l₁.Twin p l₂ →
      w.Abreast set l σ p w' → Visits l l₁ σ.Knows fuel visiting →
      Act.Abreast set l σ p (fun r => r.instances) (link set l₁ fuel visiting name) w
        (link set l₂ fuel visiting name) w' := by
  induction fuel with
  | zero => exact fun _ _ _ hb _ => abreast_throw hb _
  | succ fuel ih =>
    intro p w w' visiting name hl hb hv
    rcases rel_cases (Table.Twin.get? hl name) with ⟨hn, hn'⟩ | ⟨a, b, hn, hn', hab⟩
    · refine (abreast_throw hb (.notLoaded name)).congr ?_ ?_ <;> unfold link <;>
        rw [run_bind, run_get]
      · simp only [hn, Option.bind_none]
      · simp only [hn', Option.bind_none]
    obtain ⟨e, e', he, he', hee⟩ := hb.entries.related hab
    by_cases hvisiting : name ∈ visiting
    · refine (abreast_throw hb (.importCycle (visiting ++ [name]))).congr ?_ ?_ <;> unfold link <;>
        rw [run_bind, run_get]
      · simp only [hn, he, Option.bind_some, Option.map_some, List.contains_iff_mem.mpr hvisiting, if_true]
      · simp only [hn', he', Option.bind_some, Option.map_some, List.contains_iff_mem.mpr hvisiting, if_true]
    have hrun := link_eq set fuel hn he hvisiting
    have hrun' := link_eq set fuel hn' he' hvisiting
    cases hlinked : e.linked with
    | some i =>
      obtain ⟨j, hj, hij⟩ := hee.linked i hlinked
      rw [hlinked] at hrun
      rw [hj] at hrun'
      exact (abreast_pure hb hij).congr hrun hrun'
    | none =>
      rw [hlinked] at hrun
      cases hlinked' : e'.linked with
      | some j =>
        -- it was linked in the second world while the first was waiting
        rw [hlinked'] at hrun'
        have hlaid := hb.late hab he he' hlinked (by simp [hlinked'])
        have hhome := hl₂ hn' (.inr hlaid)
        have hagain := linksAgain_of_placed hlib hl₁ hb.placed (fun _ h => h) hhome (.inr hlaid) hv hb
        refine abreast_of_meets hrun' (hagain.mono ?_ fun _ _ h => h)
        rintro i v ⟨q, j', ⟨id, x, hid, hx, hj'⟩, hij, hr⟩
        obtain rfl := Option.some.inj (hhome.symm.trans hid)
        obtain rfl := Option.some.inj (he'.symm.trans hx)
        obtain rfl := Option.some.inj (hlinked'.symm.trans hj')
        exact ⟨q, hr.within, hij, hr.abreast⟩
      | none =>
        rw [hlinked', hee.code] at hrun'
        have hunknown : ¬ σ.Knows b := by
          intro hk
          obtain ⟨x, j, -, hx, hj, -⟩ := hb.known hk
          obtain rfl := Option.some.inj (he'.symm.trans hx)
          rw [hlinked'] at hj
          cases hj
        obtain ⟨fuel', hfuel, hv'⟩ := hv.enter σ.Knows hvisiting (Table.get?_isSome.mp (by rw [hn]; rfl))
          (fun id hid => by
            obtain rfl := Option.some.inj (hn.symm.trans (hl₁ hid))
            obtain rfl := (hb.entries.unique (hb.home hid) hab).mp rfl
            exact hunknown) fun _ h => h
        obtain rfl := Nat.succ.inj hfuel
        refine (abreast_makeInstance hlib (fun i {_ _ _} hq hv => ?_) hb hab hunknown name e.code).congr
          hrun hrun'
        exact ih _ i (hl.mono hq) hv hv'

theorem abreast_load (hlib : set.host.Natural) {l₁ l₂ : Loader}
    (hl₁ : ∀ {n id}, l.modules.get? n = some id → l₁.modules.get? n = some id)
    (hl₂ : ∀ {n id}, l₂.modules.get? n = some id → σ.Knows id → l.modules.get? n = some id)
    (hl : l₁.Twin p l₂) (hb : w.Abreast set l σ p w') (name : String) :
    Act.Abreast set l σ p (fun r => r.instances) (l₁.load set name) w (l₂.load set name) w' := by
  unfold load
  refine abreast_bind (abreast_inquire hb) ?_
  intro q _ _ w₁ w₁' hq _ hb₁
  rw [hl.length_eq]
  refine abreast_link hlib hl₁ hl₂ _ [] name (hl.mono hq) hb₁ ⟨List.nodup_nil, nofun, nofun, ?_⟩
  have := hl.length_eq
  simp only [List.length_nil]
  omega

/-! ## Adding modules -/

theorem abreast_push (hb : w.Abreast set l σ p w') {a : EntryId} {code : ModuleCode}
    (ha : w.entries[a]? = some ⟨code, none⟩) (hfree : ∀ b, ¬ p.entries a b) :
    w.Abreast set l σ { p with entries := pairUp p.entries a w'.entries.size }
      { w' with entries := w'.entries.push ⟨code, none⟩ } := by
  have hq : p.Within { p with entries := pairUp p.entries a w'.entries.size } := ⟨.refl _, .inl, id⟩
  have hold {b : EntryId} {e : Entry} (he : w'.entries[b]? = some e) :
      (w'.entries.push ⟨code, none⟩)[b]? = some e := by
    have := (Array.getElem?_eq_some_iff.mp he).1
    rw [Array.getElem?_push, if_neg (by omega), he]
  have hlater : w'.Ripens (fun id => w'.Links id) σ.scopes
      { w' with entries := w'.entries.push ⟨code, none⟩ } := by
    refine ⟨.refl _ _, ?_, fun _ _ h => h⟩
    rintro b ⟨e, _, _, he, -⟩
    exact (hold he).trans he.symm
  refine ⟨hb.heap, hb.bounded, ⟨?_, ?_, fun hf => hf.elim⟩, ?_, fun hcd => ?_, hb.calm, hb.truthful,
    fun hn => .inl (hb.home hn), ⟨hb.keyed.nodup, fun x hx => ?_⟩,
    fun id hid => hlater.links (hb.early id hid) (hb.early id hid), ?_, hb.apart, hb.old, hb.there, hb.untold⟩
  · rintro c d c' d' (h | ⟨rfl, rfl⟩) (h' | ⟨rfl, rfl⟩)
    · exact hb.entries.unique h h'
    · exact iff_of_false (by rintro rfl; exact hfree _ h)
        fun he => Nat.lt_irrefl _ (he ▸ (hb.entries.lt h).2)
    · exact iff_of_false (by rintro rfl; exact hfree _ h')
        fun he => Nat.lt_irrefl _ (he ▸ (hb.entries.lt h').2)
    · exact iff_of_true rfl rfl
  · rintro c d (h | ⟨rfl, rfl⟩)
    · obtain ⟨e, e', he, he', hee⟩ := hb.entries.related h
      exact ⟨e, e', he, hold he', hee.mono hq⟩
    · exact ⟨_, ⟨code, none⟩, ha, Array.getElem?_push_size, rfl, nofun⟩
  · rintro c d e e' (h | ⟨rfl, rfl⟩) he he' hnone hsome
    · obtain ⟨x, x', -, hx', -⟩ := hb.entries.related h
      obtain rfl := Option.some.inj ((hold hx').symm.trans he')
      exact hb.late h he hx' hnone hsome
    · rw [Array.getElem?_push_size] at he'
      cases he'
      exact absurd rfl hsome
  · obtain ⟨x, y, hx, hy, hxy⟩ := hb.instances hcd
    exact ⟨x, y, hx, hy, hxy.mono hq⟩
  · obtain ⟨e, he, hname⟩ := hb.keyed.entry x hx
    exact ⟨e, hold he, hname⟩
  · exact hb.placed.mono Set.Subset.rfl (fun _ h => h) hb.early
      (hlater.mono (fun _ h => h.elim (hb.early _) hb.placed.links) Set.Subset.rfl)

/-- The first world has had entries for a while, of modules that the second gets now. -/
theorem abreast_refresh (mods : List ModuleCode) : ∀ {p : WorldPairing} {l₁ l₂ : Loader} {u w' : World},
    l₁.Twin p l₂ → w.Abreast set l σ p w' →
    (∀ (id : EntryId) e, u.entries.size ≤ id → (mods.foldl refresh (l₁, u)).2.entries[id]? = some e →
      w.entries[id]? = some e) → (∀ a b, u.entries.size ≤ a → ¬ p.entries a b) →
    ∃ q, p.Within q ∧ (mods.foldl refresh (l₁, u)).1.Twin q (mods.foldl refresh (l₂, w')).1 ∧
      w.Abreast set l σ q (mods.foldl refresh (l₂, w')).2 := by
  induction mods with
  | nil => exact fun hl hb _ _ => ⟨_, .refl _, hl, hb⟩
  | cons c mods ih =>
    intro p l₁ l₂ u w' hl hb hnew hfree
    have hentry : w.entries[u.entries.size]? = some ⟨c, none⟩ := by
      refine hnew _ _ le_rfl ?_
      exact (untouched_refresh mods (refresh (l₁, u) c)).1.entries _ _ Array.getElem?_push_size
    have hb' := abreast_push hb hentry fun b => hfree _ b le_rfl
    have hq : p.Within { p with entries := pairUp p.entries u.entries.size w'.entries.size } :=
      ⟨.refl _, .inl, id⟩
    have hl' : (refresh (l₁, u) c).1.Twin
        { p with entries := pairUp p.entries u.entries.size w'.entries.size } (refresh (l₂, w') c).1 :=
      Table.Twin.put (hl.mono hq) c.name (.inr ⟨rfl, rfl⟩)
    have hsize : u.entries.size ≤ (refresh (l₁, u) c).2.entries.size := by simp [refresh]
    obtain ⟨r, hr, hrest⟩ := ih hl' hb' (fun id e hid he => hnew id e (hsize.trans hid) he) fun a b ha hab => by
      rcases hab with hab | ⟨rfl, -⟩
      · exact hfree a b (hsize.trans ha) hab
      · simp only [refresh, Array.size_push] at ha
        omega
    exact ⟨r, hq.trans hr, hrest⟩

end Loader

theorem Instance.abreast_read (hlib : set.host.Natural) {i i' : Instance} (hi : i.Twin p i')
    (hb : w.Abreast set l σ p w') (field : String) :
    Act.Abreast set l σ p (fun q => HostValue.Twin q.heap) (i.read set field) w (i'.read set field) w' := by
  unfold read
  refine abreast_bind (abreast_inquire hb) ?_
  intro q _ _ w₁ w₁' hq _ hb₁
  rcases rel_cases ((hi.mono hq).fields.get? field) with ⟨hn, hn'⟩ | ⟨v, v', hn, hn', hv⟩
  · simp only [hn, hn', hi.name]
    exact abreast_throw hb₁ _
  · simp only [hn, hn']
    refine abreast_bind (abreast_force hlib hb₁ 0 0 hv) ?_
    rintro r ⟨u, _⟩ ⟨u', _⟩ w₂ w₂' _ hu hb₂
    exact abreast_get_bind (abreast_pure hb₂ hu.toHost)

end

end LazySession
