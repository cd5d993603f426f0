import LazySession.Proofs.Behind.Relinking
import LazySession.Proofs.Loader.Coherence
import LazySession.Proofs.Scope.Closure

/-!
# What has been linked before

`World.Past`: a world since an earlier one, with a record of what has been evaluated and linked in
between. Linking and reading go on with the record, also if they fail: `Loader.records_link`. A world
that was like the earlier one is behind: `World.Past.abreast`.
-/

namespace LazySession

namespace Heap

open Loader

variable {set : Setting} {base h h' k : Heap} {S : Set ScopeId} {r : Pairing} {L : List Told}

theorem Past.fill (hp : h.Past set base S r L) (ha : h.Adds h') (hr : h.Ripens S h') :
    h'.Past set base S r L where
  since := hp.since.trans hr.smallerThan
  diagonal := hp.diagonal
  steady := by
    refine ⟨hp.steady.idle.holds hp.settled hr.idle hr.idle, fun hab hv => ?_⟩
    obtain ⟨v', hv', htwin⟩ := hp.steady.done hab (ha.thunkValue?.mp hv)
    exact ⟨v', hr.done hv', htwin⟩
  settled := hp.settled
  bounded id hid := Nat.lt_of_lt_of_le (hp.bounded id hid) hr.idle.size
  record := hp.record.mono Set.Subset.rfl hr
  covers hv := hp.covers (ha.thunkValue?.mp hv)
  regions i hi := (hp.regions i hi).trans (made_left hr.smallerThan)

/-- The definitions of a module have been made in a scope that nothing referred to. -/
theorem Past.found (hp : k.Past set base S r L) {root scope : ScopeId} {names : Table Value}
    (hroot : k.scopes[root]? = some ⟨Builtin.all.map fun b => (b.name, .builtin b), none⟩)
    (hscope : k.scopes[scope]? = some ⟨names, some root⟩) (hlt : root < scope)
    (hnew : root ∉ S ∧ scope ∉ S) (hnames : names.Twin (Value.Held r) names) (defs : List Definition) :
    ∃ q, r.Within q ∧ (defineAll scope defs k).1.Twin (Value.Held q) (defineAll scope defs k).1 ∧
      (defineAll scope defs k).2.Past set base (insert root (insert scope S)) q L := by
  have hfree {x y : ScopeId} (hxy : r.scopes x y) : x ≠ root ∧ y ≠ root ∧ x ≠ scope ∧ y ≠ scope := by
    obtain ⟨hx, hy⟩ := hp.settled hxy
    exact ⟨fun h => hnew.1 (h ▸ hx), fun h => hnew.1 (h ▸ hy), fun h => hnew.2 (h ▸ hx),
      fun h => hnew.2 (h ▸ hy)⟩
  -- the two scopes of the module are paired with themselves
  have hopen := hp.steady.idle.open hroot hroot ⟨twin_builtins _, .none⟩ nofun nofun
    (fun y hy => (hfree hy).1 rfl) fun x hx => (hfree hx).2.1 rfl
  have hopen₂ := hopen.open hscope hscope
    ⟨hnames.imp fun _ _ hv => hv.mono (Pairing.within_addScope _), .some (.inr ⟨rfl, rfl⟩)⟩
    (by rintro _ ⟨⟩; exact hlt) (by rintro _ ⟨⟩; exact hlt)
    (by
      rintro y (hy | ⟨rfl, -⟩)
      · exact (hfree hy).2.2.1 rfl
      · exact Nat.lt_irrefl _ hlt)
    (by
      rintro x (hx | ⟨-, rfl⟩)
      · exact (hfree hx).2.2.2 rfl
      · exact Nat.lt_irrefl _ hlt)
  obtain ⟨q, hq, hfields, htwin⟩ := twin_defineAll (a := scope) (b := scope)
    (p := Pairing.addScope _ scope scope) defs (.inr ⟨rfl, rfl⟩) hopen₂
  rw [idle_defineAll] at hfields htwin
  have hadds := adds_defineAll scope defs k
  have hripens := ripens_defineAll hnew.2 defs k
  have hwithin : r.Within q := (r.within_addScope.trans (Pairing.within_addScope _)).trans hq.within
  -- the definitions have made twins of themselves: the diagonal of that pairing remains
  refine ⟨q.diag, hp.diagonal.within_diag hwithin, forall₂_diag (fun _ _ hx => ⟨rfl, hx.2.diag⟩) hfields,
    hp.since.trans hripens.smallerThan, q.diagonal_diag, ⟨htwin.diag, ?_⟩, ?_, ?_, ?_, ?_, ?_⟩
  · rintro a _ v ⟨rfl, c, hac⟩ hv
    have hv' := hadds.thunkValue?.mp hv
    have hac' : r.thunks a c := by
      refine (hq.thunks hac).resolve_right fun hn => ?_
      rw [size_thunks_idle] at hn
      exact Nat.not_lt_of_le hn.1 (Done.mem ⟨v, hv'⟩)
    obtain ⟨v', hv'', hvv⟩ := hp.steady.done hac' hv'
    obtain rfl := hp.diagonal.thunks hac'
    exact ⟨v', hripens.done hv'', hvv.mono (hp.diagonal.within_diag hwithin)⟩
  · rintro a _ ⟨rfl, c, hac⟩
    suffices h : a ∈ insert root (insert scope S) from ⟨h, h⟩
    rcases hq.scopes hac with ((h | ⟨rfl, -⟩) | ⟨rfl, -⟩) | ⟨hn, -⟩
    · exact .inr (.inr (hp.settled h).1)
    · exact .inl rfl
    · exact .inr (.inl rfl)
    · have hlt := (htwin.scopes.lt hac).1
      rw [scopes_idle, (sizes_defineAll scope defs k).2] at hlt
      exact absurd hlt (Nat.not_lt_of_le hn)
  · intro id hid
    rw [(sizes_defineAll scope defs k).2]
    rcases hid with rfl | rfl | hid
    · exact (Array.getElem?_eq_some_iff.mp hroot).1
    · exact (Array.getElem?_eq_some_iff.mp hscope).1
    · exact hp.bounded id hid
  · exact hp.record.mono ((Set.subset_insert _ _).trans (Set.subset_insert _ _)) hripens
  · exact fun hv => hp.covers (hadds.thunkValue?.mp hv)
  · exact fun i hi => (hp.regions i hi).trans (made_left hripens.smallerThan)

/-- What is made for a module is apart of what was made before it, for its imports and later. -/
theorem disjoint_region {h₁ k' g : Heap} {root scope : ScopeId}
    (hnew : {.scope root, .scope scope} ⊆ h.made h₁) (hk : h.SmallerThan h₁) (hk' : h₁.SmallerThan k)
    (hk'' : k.SmallerThan k') {X : Set Addr}
    (hX : X ⊆ base.made h ∨ X ⊆ h₁.made k ∨ X ⊆ k'.made g) :
    Disjoint X ({.scope root, .scope scope} ∪ k.made k') := by
  refine Disjoint.union_right (Disjoint.mono_right hnew ?_) ?_ <;> rcases hX with hX | hX | hX
  · exact disjoint_made.mono_left hX
  · exact disjoint_made.symm.mono_left hX
  · exact (disjoint_made.mono_left (made_left (hk'.trans hk''))).symm.mono_left hX
  · exact disjoint_made.mono_left (hX.trans (made_left (hk.trans hk')))
  · exact disjoint_made.mono_left hX
  · exact disjoint_made.symm.mono_left hX

theorem Twin.thunkDone {o : Outside} {p : Pairing} {g : Heap} (ht : h.Twin o p g) {a b : ThunkId}
    (hab : p.thunks a b) (hb : g.Done b) : h.Done a := by
  obtain ⟨u, hu⟩ := hb
  obtain ⟨t', ht', hs'⟩ := thunkValue?_eq_some.mp hu
  obtain ⟨x, y, hx, hy, hxy⟩ := ht.thunks.related hab
  obtain rfl := Option.some.inj (ht'.symm.trans hy)
  have hstate := hxy.state
  rw [hs'] at hstate
  generalize hs : x.state = s at hstate
  cases hstate with | done _ => exact ⟨_, thunkValue?_eq_some.mpr ⟨x, hx, hs⟩⟩

end Heap

/-! ## Worlds -/

/-- The world since `base`: `S` and `r` tell what can be referred to, `L` what has been evaluated and
`K` which modules of the loader `l` have been linked. The loader `ran` is the one that links. -/
structure World.Past (w : World) (set : Setting) (l ran : Loader) (base : World) (S : Set ScopeId)
    (r : Pairing) (L : List Told) (K : List Laid) : Prop where
  heap : w.heap.Past set base.heap S r L
  calm : w.context = {}
  idle : w.heap.Idle
  code : l.code? w = l.code? base
  early : ∀ id, base.Links id → w.Links id
  placed : Placed l base.heap.Done base.Links S L w K
  fields : ∀ n i, ran.instance? w n = some i → i.fields.Twin (Value.Held r) i.fields
  covers : ∀ {n id e}, l.modules.get? n = some id → w.entries[id]? = some e → e.linked ≠ none →
    base.Links id ∨ LaidIn K id
  regions : ∀ i ∈ K, i.region ⊆ base.heap.made w.heap
  apart : ∀ i ∈ K, ∀ j ∈ L, Disjoint i.region j.region

/-- From `w` to `v`, the thunks in `M` have been evaluated and the modules in `N` have been linked.
Scopes outside of `T` may have got names. -/
structure World.Passes (set : Setting) (l ran : Loader) (base : World) (T S : Set ScopeId) (r : Pairing)
    (L : List Told) (K : List Laid) (w v : World) (S' : Set ScopeId) (q : Pairing) (M : List Told)
    (N : List Laid) : Prop where
  past : v.Past set l ran base S' q (M ++ L) (N ++ K)
  ripens : w.heap.Ripens T v.heap
  within : r.Within q
  settled : S ⊆ S'
  new : S' ⊆ S ∪ w.heap.newScopes v.heap
  told : ∀ j ∈ M, j.region ⊆ w.heap.made v.heap
  laid : ∀ i ∈ N, i.region ⊆ w.heap.made v.heap

/-- There is a record of what has been evaluated and linked from `w` to `v`. -/
def World.Passed (set : Setting) (l ran : Loader) (base : World) (T S : Set ScopeId) (r : Pairing)
    (L : List Told) (K : List Laid) (w v : World) : Prop :=
  ∃ S' q M N, World.Passes set l ran base T S r L K w v S' q M N

namespace World

variable {set : Setting} {l ran : Loader} {base w v u : World} {T S S' S'' : Set ScopeId}
variable {r q q' : Pairing} {L M M' : List Told} {K N N' : List Laid}

theorem Passes.refl (hp : w.Past set l ran base S r L K) (T : Set ScopeId) :
    Passes set l ran base T S r L K w w S r [] [] :=
  ⟨hp, .refl _ _, .refl _, Set.Subset.rfl, Set.subset_union_left, List.forall_mem_nil _,
    List.forall_mem_nil _⟩

theorem Passes.trans (h : Passes set l ran base T S r L K w v S' q M N)
    (h' : Passes set l ran base T S' q (M ++ L) (N ++ K) v u S'' q' M' N') :
    Passes set l ran base T S r L K w u S'' q' (M' ++ M) (N' ++ N) where
  past := by
    rw [List.append_assoc, List.append_assoc]
    exact h'.past
  ripens := h.ripens.trans h'.ripens
  within := h.within.trans h'.within
  settled := h.settled.trans h'.settled
  new := by
    refine h'.new.trans (Set.union_subset (h.new.trans ?_) ?_)
    · exact Set.union_subset_union_right S (Heap.newScopes_left h'.ripens.smallerThan)
    · exact (Heap.newScopes_right h.ripens.smallerThan).trans Set.subset_union_right
  told j hj := by
    rcases List.mem_append.mp hj with hj | hj
    · exact (h'.told j hj).trans (Heap.made_right h.ripens.smallerThan)
    · exact (h.told j hj).trans (Heap.made_left h'.ripens.smallerThan)
  laid i hi := by
    rcases List.mem_append.mp hi with hi | hi
    · exact (h'.laid i hi).trans (Heap.made_right h.ripens.smallerThan)
    · exact (h.laid i hi).trans (Heap.made_left h'.ripens.smallerThan)

theorem Passes.ripen (h : Passes set l ran base T S r L K w v S' q M N) {T' : Set ScopeId}
    (hr : w.heap.Ripens T' v.heap) : Passes set l ran base T' S r L K w v S' q M N :=
  { h with ripens := hr }

theorem Passes.passed (h : Passes set l ran base T S r L K w v S' q M N) :
    Passed set l ran base T S r L K w v :=
  ⟨S', q, M, N, h⟩

/-- Only the heap has changed. -/
theorem Past.withHeap (hp : w.Past set l ran base S r L K) {h : Heap}
    (hh : h.Past set base.heap S' q (M ++ L)) (hr : w.heap.Ripens S h) (hq : r.Within q) (hS : S ⊆ S')
    (hi : h.Idle) (hM : ∀ j ∈ M, j.region ⊆ w.heap.made h) :
    Past { w with heap := h } set l ran base S' q (M ++ L) K where
  heap := hh
  calm := hp.calm
  idle := hi
  code := hp.code
  early := hp.early
  placed := hp.placed.mono hS (fun _ ⟨j, hj, he⟩ => ⟨j, List.mem_append_right _ hj, he⟩) hp.early
    (.of_heap hr)
  fields n i hn := (hp.fields n i hn).imp fun _ _ hv => hv.mono hq
  covers := hp.covers
  regions i hi := (hp.regions i hi).trans (Heap.made_left hr.smallerThan)
  apart i hi j hj := by
    rcases List.mem_append.mp hj with hj | hj
    · exact (Heap.disjoint_made.mono_left (hp.regions i hi)).mono_right (hM j hj)
    · exact hp.apart i hi j hj

theorem idle_of_forcing {h h' : Heap} (hi : h.Idle) (hf : ∀ id, h'.Forcing id ↔ h.Forcing id) : h'.Idle :=
  fun id h' => hi id ((hf id).mp h')

theorem Past.fill (hp : w.Past set l ran base S r L K) {h : Heap} (ha : w.heap.Adds h)
    (hr : w.heap.Ripens T h) (hS : S ⊆ T) :
    Passes set l ran base T S r L K w { w with heap := h } S r [] [] where
  past := hp.withHeap (M := []) (hp.heap.fill ha (hr.mono hS)) (hr.mono hS) (.refl _) Set.Subset.rfl
    (idle_of_forcing hp.idle ha.forcing) (List.forall_mem_nil _)
  ripens := hr
  within := .refl _
  settled := Set.Subset.rfl
  new := Set.subset_union_left
  told := List.forall_mem_nil _
  laid := List.forall_mem_nil _

end World

namespace Act

open World

variable {set : Setting} {l ran : Loader} {base w : World} {S : Set ScopeId} {r : Pairing}
variable {L : List Told} {K : List Laid}

theorem meets_inquire_calm (hw : w.context = {}) {E : Error → World → Prop} :
    inquire.Meets w (fun _ v => v = w) E :=
  meets_of_run (run_inquire_calm hw) rfl

/-- A value is evaluated. -/
theorem meets_force_recorded (hlib : set.host.Natural) (hp : w.Past set l ran base S r L K) {v : Value}
    (hv : v.Held r v) (steps : Nat) :
    (evaluate steps (EvalState.force set · v)).Meets w
      (fun _ u => Passed set l ran base .univ S r L K w u ∧ u = { w with heap := u.heap } ∧
        ∀ id, v = .thunk id → u.heap.Done id)
      (fun _ u => Passed set l ran base .univ S r L K w u ∧ u = { w with heap := u.heap }) := by
  have he := endless_start hp.calm steps
  have hs : (start steps w).Like True r (start steps w) := ⟨hp.heap.steady.idle, .refl _, he, he⟩
  have hrest := Machine.rests_demand set set.limit v he
  obtain ⟨S', q, M, hpass, -, hdone⟩ := Machine.passes_demand hlib hs hp.heap hv set.limit
  have hpassed : Passed set l ran base .univ S r L K w
      { w with heap := (Machine.run set (Machine.demand set.limit v [] (start steps w))).2.heap } := by
    refine ⟨S', q, M, [], ⟨hp.withHeap hpass.past (hpass.ripens.mono (Set.subset_univ S)) hpass.within
      hpass.settled (idle_of_forcing hp.idle hrest.forcing) hpass.regions, hpass.ripens, hpass.within,
      hpass.settled, hpass.new, hpass.regions, List.forall_mem_nil _⟩⟩
  unfold Act.Meets
  rw [run_evaluate_calm hp.calm steps hrest.endless]
  unfold EvalState.force
  generalize Machine.run set (Machine.demand set.limit v [] (start steps w)) = y at hdone hpassed ⊢
  obtain ⟨x, s⟩ := y
  cases x with
  | error e => exact ⟨hpassed, rfl⟩
  | ok u => exact ⟨hpassed, rfl, fun id hid => hdone id u hid rfl⟩

end Act

namespace Loader

open Act World

variable {set : Setting} {l ran : Loader} {base w : World} {S : Set ScopeId} {r : Pairing}
variable {L : List Told} {K : List Laid}

theorem records_evalStrict (hlib : set.host.Natural) (mod : String) {fields : Table Value}
    (ds : List Definition) : ∀ {w : World} {S : Set ScopeId} {r : Pairing} {L : List Told} {K : List Laid}
      (steps : Nat), w.Past set l ran base S r L K → fields.Twin (Value.Held r) fields →
      (evalStrict set mod fields steps ds).Meets w
        (fun _ v => Passed set l ran base .univ S r L K w v ∧ v = { w with heap := v.heap } ∧
          ∀ d ∈ ds, d.binding.strict = true → ∀ id, fields.get? d.binding.name = some (.thunk id) →
            v.heap.Done id)
        (fun _ v => Passed set l ran base .univ S r L K w v ∧ v = { w with heap := v.heap }) := by
  induction ds with
  | nil => exact fun _ hp _ => meets_pure ⟨(Passes.refl hp _).passed, rfl, List.forall_mem_nil _⟩
  | cons d ds ih =>
    intro w S r L K steps hp hf
    unfold evalStrict
    split
    · have hv : ((fields.get? d.binding.name).getD .unit).Held r ((fields.get? d.binding.name).getD .unit) := by
        rcases rel_cases (hf.get? d.binding.name) with ⟨hx, -⟩ | ⟨v, v', hx, hx', hv⟩
        · rw [hx]
          exact .value .unit
        · obtain rfl := Option.some.inj (hx.symm.trans hx')
          rw [hx]
          exact hv
      refine meets_bind (meets_during ((meets_force_recorded hlib hp hv steps).mono ?_ fun _ _ h => h))
      rintro ⟨_, n⟩ v ⟨⟨S', q, M, N, hpass⟩, hsame, hdone⟩
      refine (ih n hpass.past (hf.imp fun _ _ hv => hv.mono hpass.within)).mono ?_ ?_
      · rintro _ u ⟨⟨_, _, _, _, hpass'⟩, hsame', hdone'⟩
        refine ⟨(hpass.trans hpass').passed, by rw [hsame', hsame], fun d' hd' hstrict id hid => ?_⟩
        rcases List.mem_cons.mp hd' with rfl | hd'
        · exact hpass'.ripens.thunkDone (hdone id (by rw [hid]; rfl))
        · exact hdone' d' hd' hstrict id hid
      · rintro _ u ⟨⟨_, _, _, _, hpass'⟩, hsame'⟩
        exact ⟨(hpass.trans hpass').passed, by rw [hsame', hsame]⟩
    · rename_i hstrict
      refine (ih steps hp hf).mono ?_ fun _ _ h => h
      rintro _ v ⟨hpass, hsame, hdone⟩
      exact ⟨hpass, hsame, List.forall_mem_cons.mpr ⟨fun hs => absurd hs hstrict, hdone⟩⟩

/-- What `linkOne` links is recorded. -/
def Records (set : Setting) (l ran : Loader) (base : World) (ls : List Loader)
    (linkOne : String → Act InstanceId) : Prop :=
  ∀ name {opened : List ScopeId} {w : World} {S : Set ScopeId} {r : Pairing} {L : List Told}
    {K : List Laid}, Loader.Coherent ls opened w → (∀ s ∈ opened, s < w.heap.scopes.size) →
    w.Past set l ran base S r L K →
    (linkOne name).Meets w (fun _ v => Passed set l ran base .univ S r L K w v)
      (fun _ v => Passed set l ran base .univ S r L K w v)

variable {ls : List Loader} {visiting own : List String} {linkOne : String → Act InstanceId}
variable {opened : List ScopeId} {root scope : ScopeId}

theorem Holds.fields_held (hc : Loader.Coherent ls opened w) (hran : ran ∈ ls)
    (hp : w.Past set l ran base S r L K) {name : String} {i : InstanceId} (hi : ran.Holds w name i) :
    ∃ inst, w.instances[i]? = some inst ∧ ran.instance? w name = some inst ∧
      inst.fields.Twin (Value.Held r) inst.fields := by
  obtain ⟨inst, hinst, hname⟩ := hi.instance? hc hran
  exact ⟨inst, hinst, hname, hp.fields name inst hname⟩

theorem records_linkImports (hlinks : Links ls ran visiting linkOne)
    (hone : Records set l ran base ls linkOne) (hran : ran ∈ ls) (mod : String)
    (ho : ∀ s ∈ opened, s < w.heap.scopes.size) (hscope : scope < w.heap.scopes.size) (hS : scope ∉ S)
    (is : List String) : ∀ {done : List String} {v : World},
      Imports ls opened ran visiting own root scope w done v →
      Passed set l ran base {x | x ≠ scope} S r L K w v →
      (linkImports linkOne mod scope own is).Meets v
        (fun _ u => Imports ls opened ran visiting own root scope w (done ++ is) u ∧
          Passed set l ran base {x | x ≠ scope} S r L K w u)
        (fun _ u => Passed set l ran base {x | x ≠ scope} S r L K w u) := by
  induction is with
  | nil =>
    intro done v hI hpass
    rw [List.append_nil]
    exact meets_pure ⟨hI, hpass⟩
  | cons i is ih =>
    rintro done v hI ⟨S', q, M, N, hpass⟩
    have hlink := (hlinks i _ v hI.coherent (hI.opened_lt ho)).and
      (hone i hI.coherent (hI.opened_lt ho) hpass.past)
    refine meets_bind (meets_during (hlink.mono ?_ ?_))
    · rintro inst u ⟨⟨ha, hholds⟩, S₁, q₁, M₁, N₁, hpass₁⟩
      have hpass₂ := hpass.trans (hpass₁.ripen (hpass₁.ripens.mono (Set.subset_univ _)))
      obtain ⟨x, hx, hname, -⟩ := hholds.fields_held ha.coherent hran hpass₂.past
      refine meets_get_bind (meets_set_bind ?_)
      rw [hx, List.append_cons]
      have hnot : ∀ id ∈ S₁, id ≠ scope := by
        rintro id hid rfl
        rcases hpass₂.new hid with h | h
        · exact hS h
        · exact (Heap.mem_newScopes.mp h).2 hscope
      have hfill := hpass₂.past.fill (Heap.adds_importFields scope own i x.fields u.heap)
        (Heap.ripens_importFields (show scope ∉ {x | x ≠ scope} from fun h => h rfl) own i x.fields u.heap) hnot
      exact ih (hI.snoc ha hname) (hpass₂.trans hfill).passed
    · rintro _ u ⟨-, S₁, q₁, M₁, N₁, hpass₁⟩
      exact (hpass.trans (hpass₁.ripen (hpass₁.ripens.mono (Set.subset_univ _)))).passed

theorem importedNames_held (hf : ∀ n i, ran.instance? w n = some i → i.fields.Twin (Value.Held r) i.fields)
    (own imports : List String) : (ran.importedNames w own imports).Twin (Value.Held r)
      (ran.importedNames w own imports) := by
  unfold importedNames
  suffices h : ∀ names : Table Value, names.Twin (Value.Held r) names →
      Table.Twin (Value.Held r) (imports.foldl (fun names i => importNames own i (ran.fields w i) names) names)
        (imports.foldl (fun names i => importNames own i (ran.fields w i) names) names) from h [] .nil
  induction imports with
  | nil => exact fun _ h => h
  | cons i imports ih =>
    intro names hn
    refine ih _ (twin_importNames own i ?_ hn)
    unfold fields
    cases hi : ran.instance? w i with
    | none => exact .nil
    | some inst => exact hf i inst hi

/-- Modules that are known are as they were when another one has been linked. -/
theorem ripens_setInstance (known : EntryId → Prop) {id : EntryId} {e : Entry} (he : w.entries[id]? = some e)
    (hn : e.linked = none) (hknown : ∀ c, known c → w.Links c) (inst : Instance) :
    w.Ripens known S (setInstance w id inst) where
  heap := .refl _ _
  entries c hc := by
    obtain ⟨x, i, -, hx, hi, -⟩ := hknown c hc
    have hne : id ≠ c := by
      rintro rfl
      obtain rfl := Option.some.inj (he.symm.trans hx)
      rw [hn] at hi
      cases hi
    simp [setInstance, Array.getElem?_modify, hne]
  instances := (keeps_setInstance he hn inst).instances

/-- A module has been linked. If it is one of `l`, it is recorded. -/
theorem past_setInstance (hc : Loader.Coherent ls opened w) (hl : l ∈ ls) (hran : ran ∈ ls)
    (hp : w.Past set l ran base S r L K) {id : EntryId} {e : Entry} {inst : Instance} {K' : List Laid}
    (he : w.entries[id]? = some e) (hn : e.linked = none)
    (hf : inst.fields.Twin (Value.Held r) inst.fields)
    (hplaced : LazySession.Placed l base.heap.Done base.Links S L (setInstance w id inst) K')
    (hcovers : ∀ n, l.modules.get? n = some id → LaidIn K' id) (hkept : ∀ id, LaidIn K id → LaidIn K' id)
    (hregions : ∀ i ∈ K', i.region ⊆ base.heap.made w.heap)
    (hapart : ∀ i ∈ K', ∀ j ∈ L, Disjoint i.region j.region) :
    (setInstance w id inst).Past set l ran base S r L K' where
  heap := hp.heap
  calm := hp.calm
  idle := hp.idle
  code := by
    rw [← hp.code]
    exact funext fun k => code?_keeps (hc.keyed l hl) (keeps_setInstance he hn inst)
  early c hc := (ripens_setInstance (S := S) base.Links he hn hp.early inst).links hc (hp.early c hc)
  placed := hplaced
  fields n i hi := by
    rcases instance?_setInstance hc hran he hi with ⟨-, rfl⟩ | hi
    · exact hf
    · exact hp.fields n i hi
  covers {n c x} hx hentry hlinked := by
    by_cases hne : id = c
    · subst hne
      exact .inr (hcovers n hx)
    · simp only [setInstance, Array.getElem?_modify, if_neg hne] at hentry
      exact (hp.covers hx hentry hlinked).imp_right (hkept c)
  regions := hregions
  apart := hapart

/-- The imports of a module of `l` are known once they have been linked. -/
theorem known_imports (hmore : ∀ {n id}, l.modules.get? n = some id → ran.modules.get? n = some id)
    (hclosed : ModuleCode.Complete (l.code? base)) (hp : w.Past set l ran base S r L K) {n : String}
    {c : ModuleCode} (hn : l.code? w n = some c) (hi : ∀ i ∈ c.imports, (ran.instance? w i).isSome) :
    ∀ i ∈ c.imports, ∃ id, l.modules.get? i = some id ∧ (base.Links id ∨ LaidIn K id) := by
  intro i him
  rw [hp.code] at hn
  obtain ⟨d, hd⟩ := hclosed n c hn i him
  obtain ⟨id, hid, -⟩ := Option.bind_eq_some_iff.mp hd
  obtain ⟨inst, hinst⟩ := Option.isSome_iff_exists.mp (hi i him)
  obtain ⟨id', e, j, hid', he, hj, -⟩ := instance?_eq_some.mp hinst
  obtain rfl := Option.some.inj ((hmore hid).symm.trans hid')
  exact ⟨id, hid, hp.covers hid he (by simp [hj])⟩

/-- The definitions of a module have been made, and its strict ones have been evaluated, since the
world `w₂` had the names of its imports. What was made is the region of the module. -/
theorem stands_made (hmore : ∀ {n id}, l.modules.get? n = some id → ran.modules.get? n = some id)
    (hclosed : ModuleCode.Complete (l.code? base)) {w₂ w₄ : World} {S₂ S₄ : Set ScopeId} {q₂ q₄ : Pairing}
    {L₂ L₄ : List Told} {K₂ K₄ : List Laid} (h₂ : w₂.Past set l ran base S₂ q₂ L₂ K₂)
    (h₄ : w₄.Past set l ran base S₄ q₄ L₄ K₄) (hsame : w₄ = { w₂ with heap := w₄.heap }) {e : Entry}
    {id : EntryId} (hi : ∀ i ∈ e.code.imports, (ran.instance? w₂ i).isSome)
    (hroot : w₂.heap.scopes[root]? = some ⟨Builtin.all.map fun b => (b.name, .builtin b), none⟩)
    (hscope : w₂.heap.scopes[scope]? =
      some ⟨ran.importedNames w₂ e.code.exports e.code.imports, some root⟩)
    (hlt : root < scope) (hnew : root ∉ S₂ ∧ scope ∉ S₂) (hin : insert root (insert scope S₂) ⊆ S₄)
    (hripens : (defineAll scope e.code.defs w₂.heap).2.Ripens .univ w₄.heap)
    (he : w₄.entries[id]? = some e) (hn : e.linked = none) (hname : l.modules.get? e.code.name = some id)
    (hstrict : ∀ d ∈ e.code.defs, d.binding.strict = true → ∀ id,
      (defineAll scope e.code.defs w₂.heap).1.get? d.binding.name = some (.thunk id) → w₄.heap.Done id)
    {A : Set Addr} (hA : A = {.scope root, .scope scope} ∪ w₂.heap.made (defineAll scope e.code.defs w₂.heap).2)
    (hapart : ∀ j ∈ K₄, Disjoint j.region A) :
    Stands l base.heap.Done base.Links S₄ L₄
      (setInstance w₄ id ⟨e.code.name, (defineAll scope e.code.defs w₂.heap).1⟩) K₄ ⟨id, A⟩ e.code
      w₄.instances.size (defineAll scope e.code.defs w₂.heap).1 := by
  have hunlinked : ¬ w₄.Links id := by
    rintro ⟨x, j, -, hx, hj, -⟩
    obtain rfl := Option.some.inj (he.symm.trans hx)
    rw [hn] at hj
    cases hj
  have hinstance (i : String) : ran.instance? w₄ i = ran.instance? w₂ i := by
    rw [hsame]
    rfl
  have hcode : l.code? w₄ e.code.name = some e.code := by simp [Loader.code?, hname, he]
  have hknown := known_imports hmore hclosed h₄ hcode fun i him => by
    rw [hinstance]
    exact hi i him
  -- linking the module has changed no name that it imports
  have hnames : l.importedNames (setInstance w₄ id ⟨e.code.name, (defineAll scope e.code.defs w₂.heap).1⟩)
      e.code.exports e.code.imports = ran.importedNames w₂ e.code.exports e.code.imports := by
    refine importedNames_congr _ fun i him => ?_
    obtain ⟨c, hc, -⟩ := hknown i him
    obtain ⟨x, hx⟩ := Option.isSome_iff_exists.mp (hi i him)
    rw [hx]
    rw [← hinstance] at hx
    have hlater := instance?_keeps hx
      (keeps_setInstance he hn ⟨e.code.name, (defineAll scope e.code.defs w₂.heap).1⟩)
    unfold instance? at hlater ⊢
    rw [hc]
    rwa [hmore hc] at hlater
  refine ⟨⟨fun hb => hunlinked (h₄.early id hb), fun hl => hunlinked (h₄.placed.links hl)⟩, hapart, hname, ?_,
    by simp [setInstance], hknown, ?_, fun d hd hs i hid => ?_⟩
  · simp [setInstance, Array.getElem?_modify, he]
  · refine .intro ((Set.subset_insert _ _).trans ((Set.subset_insert _ _).trans hin))
      (fun hab => ⟨(h₂.heap.settled hab).1, trivial⟩) h₂.heap.steady.idle hroot (hnames ▸ hscope) hlt hnew
      ⟨hin (.inl rfl), hin (.inr (.inl rfl))⟩ ?_ rfl (hripens.mono (Set.subset_univ _)) hA
    rw [hnames]
    exact importedNames_held h₂.fields _ _
  · obtain ⟨v, hv⟩ := hstrict d hd hs i hid
    exact h₄.heap.covers hv

theorem passes_defineAll {h₁ : Heap} {w₂ : World} {T S₂ : Set ScopeId} {q₂ : Pairing} {M : List Told}
    {N : List Laid} (hw : w.heap.Ripens T h₁) (hT : scope ∉ T)
    (h₂ : Passes set l ran base T S r L K { w with heap := h₁ } w₂ S₂ q₂ M N)
    (hfresh : w.heap.scopes.size ≤ root) {names : Table Value}
    (hroot : w₂.heap.scopes[root]? = some ⟨Builtin.all.map fun b => (b.name, .builtin b), none⟩)
    (hscope : w₂.heap.scopes[scope]? = some ⟨names, some root⟩) (hlt : root < scope)
    (hnew : root ∉ S₂ ∧ scope ∉ S₂) (hnames : names.Twin (Value.Held q₂) names) (defs : List Definition) :
    ∃ q, Passes set l ran base T S r L K w { w₂ with heap := (defineAll scope defs w₂.heap).2 }
        (insert root (insert scope S₂)) q M N ∧
      (defineAll scope defs w₂.heap).1.Twin (Value.Held q) (defineAll scope defs w₂.heap).1 := by
  obtain ⟨q, hq, hfields, hpast⟩ := h₂.past.heap.found hroot hscope hlt hnew hnames defs
  have hripens := Heap.ripens_defineAll hT defs w₂.heap
  have hall := (hw.trans h₂.ripens).trans hripens
  have hsize : w₂.heap.scopes.size ≤ (defineAll scope defs w₂.heap).2.scopes.size := hripens.idle.size
  refine ⟨q, ⟨h₂.past.withHeap (M := []) hpast (Heap.ripens_defineAll hnew.2 defs w₂.heap) hq
    ((Set.subset_insert _ _).trans (Set.subset_insert _ _))
    (idle_of_forcing h₂.past.idle (adds_defineAll scope defs w₂.heap).forcing) (List.forall_mem_nil _), hall,
    h₂.within.trans hq, h₂.settled.trans ((Set.subset_insert _ _).trans (Set.subset_insert _ _)), ?_,
    fun j hj => ?_, fun j hj => ?_⟩, hfields⟩
  · have hroot' := (Array.getElem?_eq_some_iff.mp hroot).1
    have hscope' := (Array.getElem?_eq_some_iff.mp hscope).1
    refine Set.insert_subset (.inr ?_) (Set.insert_subset (.inr ?_) (h₂.new.trans ?_))
    · exact Heap.mem_newScopes.mpr ⟨hroot'.trans_le hsize, Nat.not_lt_of_le hfresh⟩
    · exact Heap.mem_newScopes.mpr ⟨hscope'.trans_le hsize, Nat.not_lt_of_le (hfresh.trans hlt.le)⟩
    · exact Set.union_subset_union_right S ((Heap.newScopes_left hripens.smallerThan).trans
        (Heap.newScopes_right hw.smallerThan))
  · exact (h₂.told j hj).trans ((Heap.made_left hripens.smallerThan).trans (Heap.made_right hw.smallerThan))
  · exact (h₂.laid j hj).trans ((Heap.made_left hripens.smallerThan).trans (Heap.made_right hw.smallerThan))

/-- A module has been linked on the way from `w`. -/
theorem passed_setInstance {w₄ : World} {T S₄ : Set ScopeId} {q₄ : Pairing} {M : List Told} {N : List Laid}
    (hsince : base.heap.SmallerThan w.heap) (hc : Loader.Coherent ls opened w₄) (hl : l ∈ ls) (hran : ran ∈ ls)
    (hall : Passes set l ran base T S r L K w w₄ S₄ q₄ M N) {id : EntryId} {e : Entry} {inst : Instance}
    (he : w₄.entries[id]? = some e) (hn : e.linked = none)
    (hf : inst.fields.Twin (Value.Held q₄) inst.fields) {A : Set Addr}
    (hstands : ∀ n, l.modules.get? n = some id → ∃ code i fields,
      Stands l base.heap.Done base.Links S₄ (M ++ L) (setInstance w₄ id inst) (N ++ K) ⟨id, A⟩ code i fields)
    (hA : A ⊆ w.heap.made w₄.heap) (hapart : ∀ j ∈ M ++ L, Disjoint A j.region) :
    Passed set l ran base T S r L K w (setInstance w₄ id inst) := by
  have hp := hall.past
  have hplaced := hp.placed.mono Set.Subset.rfl (fun _ h => h) hp.early
    (ripens_setInstance (fun c => base.Links c ∨ LaidIn (N ++ K) c) he hn
      (fun c hc => hc.elim (hp.early c) hp.placed.links) inst)
  by_cases hname : ∃ n, l.modules.get? n = some id
  · obtain ⟨n, hname⟩ := hname
    obtain ⟨code, i, fields, hhead⟩ := hstands n hname
    refine ⟨S₄, q₄, M, ⟨id, A⟩ :: N, ⟨past_setInstance hc hl hran hp he hn hf (.cons hplaced hhead)
      (fun _ _ => ⟨_, List.mem_cons_self, rfl⟩) (fun c hc => laidIn_cons.mpr (.inr hc)) ?_ ?_, hall.ripens,
      hall.within, hall.settled, hall.new, hall.told, List.forall_mem_cons.mpr ⟨hA, hall.laid⟩⟩⟩
    · exact List.forall_mem_cons.mpr ⟨hA.trans (Heap.made_right hsince), hp.regions⟩
    · exact List.forall_mem_cons.mpr ⟨hapart, hp.apart⟩
  · exact ⟨S₄, q₄, M, N, past_setInstance hc hl hran hp he hn hf hplaced
      (fun n hn => absurd ⟨n, hn⟩ hname) (fun _ h => h) hp.regions hp.apart, hall.ripens, hall.within, hall.settled,
      hall.new, hall.told, hall.laid⟩

theorem records_makeInstance (hlib : set.host.Natural) (hl : l ∈ ls) (hran : ran ∈ ls)
    (hmore : ∀ {n id}, l.modules.get? n = some id → ran.modules.get? n = some id)
    (hclosed : ModuleCode.Complete (l.code? base)) {name : String}
    (hlinks : Links ls ran (visiting ++ [name]) linkOne) (hone : Records set l ran base ls linkOne)
    (hc : Loader.Coherent ls opened w) (ho : ∀ s ∈ opened, s < w.heap.scopes.size) {id : EntryId}
    {e : Entry} (hk : ran.modules.get? name = some id) (he : w.entries[id]? = some e) (hn : e.linked = none)
    (hp : w.Past set l ran base S r L K) :
    (makeInstance set linkOne id name e.code).Meets w (fun _ v => Passed set l ran base .univ S r L K w v)
      (fun _ v => Passed set l ran base .univ S r L K w v) := by
  obtain rfl : e.code.name = name := by
    obtain ⟨e', he', hn'⟩ := (hc.keyed ran hran).get? hk
    rw [← hn', Option.some.inj (he.symm.trans he')]
  rw [makeInstance_eq]
  refine meets_get_bind (meets_set_bind (meets_bind ?_))
  have hsize := newModuleScope_fst w.heap
  have hempty := scope_newModuleScope w.heap
  have hroot := root_newModuleScope w.heap
  have hgrows := grows_newModuleScope w.heap
  have hadds := Heap.adds_newModuleScope w.heap
  have hripens := fun T => Heap.ripens_newModuleScope T w.heap
  generalize newModuleScope w.heap = x at hsize hempty hroot hgrows hadds hripens ⊢
  obtain ⟨scope, h₁⟩ := x
  simp only at hsize hempty hroot hgrows hadds hripens ⊢
  have hlt : w.heap.scopes.size < scope := hsize ▸ Nat.lt_succ_self _
  have hbounded : ∀ c ∈ S, c ≠ w.heap.scopes.size ∧ c ≠ scope := fun c hc =>
    ⟨Nat.ne_of_lt (hp.heap.bounded c hc), Nat.ne_of_lt ((hp.heap.bounded c hc).trans hlt)⟩
  have hfill := hp.fill hadds (hripens {x | x ≠ scope}) fun c hc => (hbounded c hc).2
  have hp₁ : Past { w with heap := h₁ } set l ran base S r L K := hfill.past
  -- on every way out, nothing has changed that was there
  have hout : ∀ {v : World}, Passed set l ran base {x | x ≠ scope} S r L K w v →
      Passed set l ran base .univ S r L K w v := by
    rintro v ⟨_, _, _, _, hpass⟩
    exact (hpass.ripen (ripens_narrow hpass.ripens hlt.le)).passed
  have hI : Imports ls opened ran (visiting ++ [e.code.name]) e.code.exports w.heap.scopes.size scope
      { w with heap := h₁ } [] { w with heap := h₁ } :=
    { coherent := (hc.open_new hlt.le).keeps_heap (hgrows.fills _) rfl rfl
      keeps := .refl _ _
      visited := fun _ _ _ _ => rfl
      scope := hempty
      imports := nofun }
  refine (records_linkImports hlinks hone hran e.code.name (fun s hs => (ho s hs).trans_le hgrows.scopes_size)
    (Array.getElem?_eq_some_iff.mp hempty).1 (fun hm => (hbounded _ hm).2 rfl) e.code.imports hI
    (Passes.refl hp₁ _).passed).mono ?_ ?_
  · rintro _ w₂ ⟨hI₂, S₂, q₂, M₂, N₂, h₂⟩
    rw [List.nil_append] at hI₂
    refine meets_get_bind (meets_set_bind (meets_bind ?_))
    have hroot₂ := hI₂.keeps.heap.scopes _ _ (by simpa using Nat.ne_of_lt hlt) hroot
    have hnew : w.heap.scopes.size ∉ S₂ ∧ scope ∉ S₂ := by
      have hold : ∀ c, c = w.heap.scopes.size ∨ c = scope → c ∉ S₂ := by
        intro c hc hm
        rcases h₂.new hm with hm | hm
        · exact hc.elim (hbounded c hm).1 (hbounded c hm).2
        · refine (Heap.mem_newScopes.mp hm).2 ?_
          rcases hc with rfl | rfl
          · exact (Array.getElem?_eq_some_iff.mp hroot).1
          · exact (Array.getElem?_eq_some_iff.mp hempty).1
      exact ⟨hold _ (.inl rfl), hold _ (.inr rfl)⟩
    obtain ⟨q₃, h₃, hfields⟩ := passes_defineAll (hripens _) (show scope ∉ {x | x ≠ scope} from fun h => h rfl) h₂
      le_rfl hroot₂ hI₂.scope hlt hnew (importedNames_held h₂.past.fields _ _) e.code.defs
    have hd := defined_defineAll scope e.code.defs w₂.heap
    refine ((meets_evalStrict set e.code.name _ e.code.defs 0
      { w₂ with heap := (defineAll scope e.code.defs w₂.heap).2 } (.refl _ _) rfl rfl).and
      (records_evalStrict hlib e.code.name e.code.defs 0 h₃.past hfields)).mono ?_ ?_
    · rintro _ w₄ ⟨⟨g, hi₄, he₄⟩, ⟨S₄, q₄, M₄, N₄, h₄⟩, hsame, hdone⟩
      refine meets_get_bind (meets_set_bind (meets_pure ?_))
      have hall := h₃.trans (h₄.ripen (h₄.ripens.mono (Set.subset_univ _)))
      have hentry : w₄.entries[id]? = some e := by
        rw [he₄, hI₂.visited _ (by simp) id hk]
        exact he
      have hdefs := Heap.ripens_defineAll (show scope ∉ {x | x ≠ scope} from fun h => h rfl) e.code.defs w₂.heap
      have hmade : {.scope w.heap.scopes.size, .scope scope} ⊆ w.heap.made h₁ := by
        rintro _ (rfl | rfl)
        · exact ⟨(Array.getElem?_eq_some_iff.mp hroot).1, Nat.lt_irrefl _⟩
        · exact ⟨(Array.getElem?_eq_some_iff.mp hempty).1, Nat.lt_asymm hlt⟩
      have hsize₁ := (hripens ∅).smallerThan
      have hsize₂ := h₂.ripens.smallerThan
      -- what the instance lives on: its two scopes and its thunks
      have hregion : {.scope w.heap.scopes.size, .scope scope} ∪
          w₂.heap.made (defineAll scope e.code.defs w₂.heap).2 ⊆ w.heap.made w₄.heap :=
        Set.union_subset
          (hmade.trans (Heap.made_left (hsize₂.trans (hdefs.smallerThan.trans h₄.ripens.smallerThan))))
          ((Heap.made_left h₄.ripens.smallerThan).trans (Heap.made_right (hsize₁.trans hsize₂)))
      have hapart : ∀ {X : Set Addr}, X ⊆ base.heap.made w.heap ∨ X ⊆ h₁.made w₂.heap ∨
          X ⊆ (defineAll scope e.code.defs w₂.heap).2.made w₄.heap →
          Disjoint X ({.scope w.heap.scopes.size, .scope scope} ∪
            w₂.heap.made (defineAll scope e.code.defs w₂.heap).2) :=
        Heap.disjoint_region hmade hsize₁ hsize₂ hdefs.smallerThan
      have hfills : w₂.heap.Fills [scope] w₄.heap := hd.fills.trans (g.fills _)
      refine hout (passed_setInstance hp.heap.since
        (hI₂.coherent.keeps_heap (hfills.mono (by simp)) hi₄ he₄) hl hran hall hentry
        hn (hfields.imp fun _ _ hv => hv.mono h₄.within) (fun n hname => ?_) hregion fun j hj => ?_)
      · obtain ⟨e', he', hn'⟩ := (hc.keyed l hl).get? hname
        obtain rfl := Option.some.inj (he.symm.trans he')
        obtain rfl := hn'
        refine ⟨_, _, _, stands_made hmore hclosed h₂.past hall.past hsame hI₂.imports hroot₂ hI₂.scope hlt hnew
          h₄.settled h₄.ripens hentry hn hname hdone rfl fun j hj => hapart ?_⟩
        simp only [List.mem_append] at hj
        rcases hj with (hj | hj) | hj
        · exact .inr (.inr (h₄.laid j hj))
        · exact .inr (.inl (h₂.laid j hj))
        · exact .inl (hp.regions j hj)
      · refine (hapart ?_).symm
        simp only [List.mem_append] at hj
        rcases hj with (hj | hj) | hj
        · exact .inr (.inr (h₄.told j hj))
        · exact .inr (.inl (h₂.told j hj))
        · exact .inl (hp.heap.regions j hj)
    · rintro _ w₄ ⟨-, ⟨S₄, q₄, M₄, N₄, h₄⟩, -⟩
      exact hout (h₃.trans (h₄.ripen (h₄.ripens.mono (Set.subset_univ _)))).passed
  · rintro _ w₂ ⟨S₂, q₂, M₂, N₂, h₂⟩
    exact hout (hfill.trans h₂).passed

/-- **Linking is recorded**, also if it fails. -/
theorem records_link (hlib : set.host.Natural) (hl : l ∈ ls) (hran : ran ∈ ls)
    (hmore : ∀ {n id}, l.modules.get? n = some id → ran.modules.get? n = some id)
    (hclosed : ModuleCode.Complete (l.code? base)) (fuel : Nat) :
    ∀ visiting, Records set l ran base ls (link set ran fuel visiting) := by
  induction fuel with
  | zero => exact fun _ _ _ _ _ _ _ _ _ _ hp => meets_throw (Passes.refl hp _).passed
  | succ fuel ih =>
    intro visiting name opened w S r L K hc ho hp
    unfold link
    refine meets_get_bind ?_
    split
    · exact meets_throw (Passes.refl hp _).passed
    · rename_i id e hid
      obtain ⟨id', hk, hid⟩ := Option.bind_eq_some_iff.mp hid
      obtain ⟨e', he, heq⟩ := Option.map_eq_some_iff.mp hid
      obtain ⟨rfl, rfl⟩ := Prod.mk.inj heq
      split
      · exact meets_throw (Passes.refl hp _).passed
      · split
        · exact meets_pure (Passes.refl hp _).passed
        · rename_i hn
          exact records_makeInstance hlib hl hran hmore hclosed (meets_link set hran fuel _) (ih _) hc ho hk he hn hp

theorem records_load (hlib : set.host.Natural) (hl : l ∈ ls) (hran : ran ∈ ls)
    (hmore : ∀ {n id}, l.modules.get? n = some id → ran.modules.get? n = some id)
    (hclosed : ModuleCode.Complete (l.code? base)) (hc : Loader.Coherent ls [] w)
    (hp : w.Past set l ran base S r L K) (name : String) :
    (ran.load set name).Meets w
      (fun i v => Loader.Coherent ls [] v ∧ ran.Holds v name i ∧ Passed set l ran base .univ S r L K w v)
      (fun _ v => Passed set l ran base .univ S r L K w v) := by
  unfold load
  refine meets_bind ((meets_inquire_calm hp.calm).mono ?_ fun _ _ h => h)
  rintro _ v rfl
  refine ((meets_link set hran _ [] name [] v hc (List.forall_mem_nil _)).and
    (records_link hlib hl hran hmore hclosed _ [] name hc (List.forall_mem_nil _) hp)).mono ?_ ?_
  · exact fun i u ⟨⟨ha, hholds⟩, hpass⟩ => ⟨ha.coherent, hholds, hpass⟩
  · exact fun _ _ h => h.2

end Loader

open Act World in
theorem Instance.records_read {set : Setting} (hlib : set.host.Natural) {l ran : Loader} {base w : World}
    {S : Set ScopeId} {r : Pairing} {L : List Told} {K : List Laid} {i : Instance}
    (hi : i.fields.Twin (Value.Held r) i.fields) (hp : w.Past set l ran base S r L K) (field : String) :
    (i.read set field).Meets w (fun _ v => Passed set l ran base .univ S r L K w v)
      (fun _ v => Passed set l ran base .univ S r L K w v) := by
  unfold read
  refine meets_bind ((meets_inquire_calm hp.calm).mono ?_ fun _ _ h => h)
  rintro _ v rfl
  split
  · exact meets_throw (Passes.refl hp _).passed
  · rename_i u hu
    have hheld : u.Held r u := by
      rcases rel_cases (hi.get? field) with ⟨hn, -⟩ | ⟨x, y, hx, hy, hxy⟩
      · rw [hn] at hu
        cases hu
      · obtain rfl := Option.some.inj (hu.symm.trans hx)
        obtain rfl := Option.some.inj (hu.symm.trans hy)
        exact hxy
    refine meets_bind ((meets_force_recorded hlib hp hheld 0).mono ?_ fun _ _ h => h.1)
    rintro ⟨_, _⟩ v' ⟨hpass, -⟩
    exact meets_get_bind (meets_pure hpass)

/-! ## The world behind -/

namespace WorldPairing

/-- Of modules, only those of the loader are paired, each with itself. -/
def only (p : WorldPairing) (l : Loader) : WorldPairing :=
  { p with entries := fun a b => p.entries a b ∧ a = b ∧ ∃ n, l.modules.get? n = some a }

end WorldPairing

namespace World

variable {set : Setting} {l ran : Loader} {base v w : World} {S : Set ScopeId} {r : Pairing}
variable {L : List Told} {K : List Laid} {o : Apart} {p : WorldPairing}

/-- Nothing has been done yet. -/
theorem past_begin {ls : List Loader} (hc : Loader.Coherent ls [] base) (hl : l ∈ ls)
    (ht : base.Twin o p base) (hp : p.heap.Diagonal) (hcalm : base.context = {})
    (hidle : base.heap.Idle)
    (hfields : ∀ n i, ran.instance? base n = some i → i.fields.Twin (Value.Held p.heap) i.fields) :
    base.Past set l ran base {x | ∃ y, p.heap.scopes x y} p.heap [] [] where
  heap := {
    since := ⟨le_rfl, le_rfl, le_rfl⟩
    diagonal := hp
    steady := .of_twin ht.heap
    settled := fun {a b} hab => ⟨⟨b, hab⟩, by obtain rfl := hp.scopes hab; exact ⟨a, hab⟩⟩
    bounded := fun id ⟨_, hid⟩ => (ht.heap.scopes.lt hid).1
    record := .nil
    covers := fun hv => .inl ⟨_, hv⟩
    regions := List.forall_mem_nil _ }
  calm := hcalm
  idle := hidle
  code := rfl
  early _ h := h
  placed := .nil
  fields := hfields
  covers {n id e} hn he hlinked := by
    obtain ⟨i, hi⟩ := Option.ne_none_iff_exists'.mp hlinked
    obtain ⟨inst, _, _, hinst, -⟩ := hc.linked l hl n id e i hn he hi
    exact .inl ⟨e, i, inst, he, hi, hinst⟩
  regions := List.forall_mem_nil _
  apart := List.forall_mem_nil _

/-- **A world that was like an earlier one is behind.** -/
theorem Past.abreast (hp : w.Past set l ran base S r L K) (ht : v.Twin o p base)
    (hripens : base.heap.Ripens .univ w.heap) (hkeeps : base.Keeps [] w) (hv : v.heap.Idle)
    (hcalm : v.context = {}) (hcache : Interpreter.Truthful v.cache ∧ Interpreter.Truthful w.cache)
    (hkeyed : l.Keyed w) (hhome : ∀ {n id}, l.modules.get? n = some id → p.entries id id) :
    v.Abreast set l ⟨base.heap.Done, base.Links, S, L, K⟩ (p.only l) w := by
  -- what is paired was there in the early world, so it lies apart from all that was made since
  have hseen : p.heap.seen ⊆ base.heap.has := by
    rintro (b | b | b) ⟨a, hab⟩
    · exact (ht.heap.thunks.lt hab).2
    · exact (ht.heap.cells.lt hab).2
    · exact (ht.heap.scopes.lt hab).2
  have hbehind : v.heap.Behind p.heap w.heap := (Heap.Behind.of_twin ht.heap).ripens (Heap.amid_univ _) hripens
  have hapart {X : Set Addr} (hX : X ⊆ base.heap.made w.heap) : Disjoint X p.heap.seen :=
    Set.disjoint_left.mpr fun x hx hx' => (hX hx).2 (hseen hx')
  have hentry {b : EntryId} {e e' : Entry} (he : base.entries[b]? = some e) (he' : w.entries[b]? = some e') :
      e'.code = e.code ∧ ∀ i, e.linked = some i → e'.linked = some i := by
    obtain ⟨linked, hx, hl⟩ := hkeeps.entries b e he
    obtain rfl := Option.some.inj (he'.symm.trans hx)
    exact ⟨rfl, hl⟩
  exact {
    heap := {
      behind := hbehind
      informed := {
        first := fun {a b} hab hb => ht.heap.thunkDone hab hb
        told := fun i hi => .inr (hapart (hp.heap.regions i hi))
        forcing := fun a ha => absurd ha (hv a) }
      record := hp.heap.record
      early := fun b hb => hripens.thunkDone hb
      there := fun i hi => (hp.heap.regions i hi).trans Set.sdiff_subset
      forcing := fun {a b} _ => iff_of_false (hv a) (hp.idle b)
      partner := fun b hb => absurd hb (hp.idle b)
      known := fun {b} ⟨u, hu⟩ => (hp.heap.covers hu).imp_right .inl }
    bounded := hp.heap.bounded
    entries := by
      refine ⟨fun hab hcd => ht.entries.unique hab.1 hcd.1, ?_, fun hf => hf.elim⟩
      rintro a _ ⟨hab, rfl, n, hn⟩
      obtain ⟨e, e', he, he', hee⟩ := ht.entries.related hab
      obtain ⟨linked, hx, hlinked⟩ := hkeeps.entries a e' he'
      refine ⟨e, _, he, hx, hee.code, fun i hi => ?_⟩
      have hrel := hee.linked
      rw [hi] at hrel
      rcases rel_cases hrel with ⟨hnone, -⟩ | ⟨i', j, hi', hj, hij⟩
      · cases hnone
      · obtain rfl := Option.some.inj hi'
        exact ⟨j, hlinked j hj, hij⟩
    late := by
      rintro a _ e e' ⟨hab, rfl, n, hn⟩ he he' hnone hsome
      refine (hp.covers hn he' hsome).resolve_left ?_
      -- it cannot have been linked early: its counterpart would be linked as well
      rintro ⟨x, i, -, hx, hi, -⟩
      obtain ⟨y, y', hy, hy', hyy⟩ := ht.entries.related hab
      obtain rfl := Option.some.inj (he.symm.trans hy)
      obtain rfl := Option.some.inj (hx.symm.trans hy')
      have hrel := hyy.linked
      rw [hnone, hi] at hrel
      cases hrel
    instances := fun hab => by
      obtain ⟨x, y, hx, hy, hxy⟩ := ht.instances.related hab
      exact ⟨x, y, hx, hkeeps.instances _ _ hy, ⟨hxy.name, hxy.fields⟩⟩
    calm := ⟨hcalm, hp.calm⟩
    truthful := hcache
    home := fun hn => ⟨hhome hn, rfl, _, hn⟩
    keyed := hkeyed
    early := hp.early
    placed := hp.placed
    apart := hp.apart
    old := fun i hi id hid hm => (hp.regions i hi hm).2 hid.mem
    there := fun i hi => (hp.regions i hi).trans Set.sdiff_subset
    untold := fun i hi => .inr (hapart (hp.regions i hi)) }

end World

end LazySession
