import LazySession.Proofs.Behind.Expression

/-!
# One expression after another

`Session.readField_again`: what is seen of the value of an expression is the same after another
expression has been read, unless it ends by the depth limit.
-/

namespace LazySession

open Act World

namespace Session

/-- A session and its world before an expression is run. What it can lead to is paired with itself. -/
structure Ready (s : Session) (p : WorldPairing) (w : World) : Prop where
  twin : w.Twin .nothing p w
  diagonal : p.Diagonal
  session : s.Twin p s
  sound : Sound [s.loader] w
  complete : ModuleCode.Complete (s.loader.code? w)

/-- An expression has been accepted: the loader and the world have further modules. -/
structure Started (s : Session) (w : World) (l : Loader) (u : World) : Prop where
  enlarged : w.Enlarged u
  sound : Sound [l, s.loader] u
  more : ∀ {n id}, s.loader.modules.get? n = some id → l.modules.get? n = some id
  cases : ∀ {n id}, l.modules.get? n = some id → s.loader.modules.get? n = some id ∨ w.entries.size ≤ id

section
variable {s : Session} {p : WorldPairing} {w u u' : World} {l l' : Loader} {mods : List ModuleCode}

theorem Ready.keyed (hr : s.Ready p w) : s.loader.Keyed w :=
  hr.sound.coherent.keyed _ (List.mem_singleton_self _)

theorem Ready.home (hr : s.Ready p w) {n : String} {id : EntryId} (hn : s.loader.modules.get? n = some id) :
    p.entries id id := by
  rcases rel_cases (Table.Twin.get? hr.session.loader n) with ⟨hnone, -⟩ | ⟨a, b, ha, hb, hab⟩
  · rw [hnone] at hn
    cases hn
  · obtain rfl := Option.some.inj (hn.symm.trans ha)
    obtain rfl := Option.some.inj (hn.symm.trans hb)
    exact hab

theorem started_enlarge (hw : Sound [s.loader] w) (hcomplete : ModuleCode.Complete (s.loader.code? w))
    {cache : Cache Parsed} (hc : Interpreter.Truthful cache)
    (hnew : ∀ c ∈ mods, s.loader.code? w c.name = none) :
    s.Started w (s.loader.enlarge mods { w with cache }).1 (s.loader.enlarge mods { w with cache }).2 := by
  have hsame : Loader.Coherent [s.loader] [] { w with cache } := hw.coherent.keeps_heap (.refl _ _) rfl rfl
  have hk := hsame.keyed _ (List.mem_singleton_self _)
  have he := Loader.enlarged_enlarge hk mods hc
  refine ⟨⟨he.heap, he.instances, he.context, he.truthful, he.size, he.old, he.unlinked⟩, ⟨?_, ?_, ?_⟩, ?_, ?_⟩
  · exact Loader.coherent_enlarge hsame hcomplete hnew
  · rw [he.heap]
    exact hw.idle
  · rw [he.context]
    exact hw.calm
  · exact Loader.get?_enlarge hk hnew
  · exact Loader.get?_enlarge_cases hk

theorem Started.keyed (hs : s.Started w l u) : s.loader.Keyed u :=
  hs.sound.coherent.keyed _ (List.mem_cons_of_mem _ (List.mem_singleton_self _))

theorem Started.complete (hk : s.loader.Keyed w) (hcomplete : ModuleCode.Complete (s.loader.code? w))
    (hs : s.Started w l u) : ModuleCode.Complete (s.loader.code? u) := by
  rwa [show s.loader.code? u = s.loader.code? w from funext fun _ => Loader.code?_keeps hk hs.enlarged.keeps]

/-! ## Before the value is read -/

/-- Another expression is accepted later. -/
theorem Ready.started_later (hr : s.Ready p w) {v : World} (hv : Sound [s.loader] v) (hk : w.Keeps [] v)
    {cache : Cache Parsed} (hc : Interpreter.Truthful cache)
    (hnew : ∀ c ∈ mods, s.loader.code? w c.name = none) :
    s.Started v (s.loader.enlarge mods { v with cache }).1 (s.loader.enlarge mods { v with cache }).2 ∧
      ModuleCode.Complete (s.loader.code? (s.loader.enlarge mods { v with cache }).2) := by
  have hcode : s.loader.code? v = s.loader.code? w := funext fun _ => Loader.code?_keeps hr.keyed hk
  have hs : s.Started v (s.loader.enlarge mods { v with cache }).1 (s.loader.enlarge mods { v with cache }).2 :=
    started_enlarge hv (hcode ▸ hr.complete) hc fun c hm => hcode ▸ hnew c hm
  exact ⟨hs, hs.complete (hv.coherent.keyed _ (List.mem_singleton_self _)) (hcode ▸ hr.complete)⟩

/-- What the world is like when the value is read. -/
structure Prepared (s : Session) (p : WorldPairing) (l : Loader) (u b : World) : Prop where
  twin : b.Twin .nothing p b
  diagonal : p.Diagonal
  sound : Sound [l, s.loader] b
  keeps : u.Keeps [] b
  fields : ∀ n i, l.instance? b n = some i → i.fields.Twin (Value.Held p.heap) i.fields

/-- If only modules that were there have been worked on, instances that the loader holds lead only to
what is paired. -/
theorem Ready.held (hr : s.Ready p w) (hs : s.Started w l u) {o : Apart} {q : WorldPairing} {b : World}
    (hq : p.Within q) (hd : q.Diagonal) (ht : b.Twin o q b)
    (hkept : ∀ id, w.entries.size ≤ id → id < u.entries.size → b.entries[id]? = u.entries[id]?) (n : String)
    (i : Instance) (hi : l.instance? b n = some i) : i.fields.Twin (Value.Held q.heap) i.fields := by
  obtain ⟨id, e, j, hid, he, hj, hi⟩ := Loader.instance?_eq_some.mp hi
  rcases hs.cases hid with hhome | hfresh
  · obtain ⟨x, y, hx, -, hxy⟩ := ht.entries.related (hq.entries (hr.home hhome))
    obtain rfl := Option.some.inj (he.symm.trans hx)
    have hlinked := hxy.linked
    rw [hj] at hlinked
    rcases rel_cases hlinked with ⟨hn, -⟩ | ⟨j', j'', hj', -, hjj⟩
    · cases hn
    obtain rfl := Option.some.inj hj'
    obtain rfl := hd.instances hjj
    obtain ⟨x, y, hx, hy, hxy⟩ := ht.instances.related hjj
    obtain rfl := Option.some.inj (hi.symm.trans hx)
    obtain rfl := Option.some.inj (hi.symm.trans hy)
    exact hxy.fields
  · obtain ⟨x, hx, -⟩ := (hs.sound.coherent.keyed l List.mem_cons_self).get? hid
    have hold := hkept id hfresh (Array.getElem?_eq_some_iff.mp hx).1
    rw [he] at hold
    rw [hs.enlarged.unlinked id e hfresh hold.symm] at hj
    cases hj

theorem Ready.begun (hr : s.Ready p w) (hs : s.Started w l u) : ∃ q, p.Within q ∧ s.Prepared q l u u := by
  have ht := (hr.twin.enlarged hs.enlarged hs.enlarged).diag
  have hq := hr.diagonal.within_diag (.refl p)
  exact ⟨p.diag, hq, ht, p.diagonal_diag, hs.sound, .refl _ _, hr.held hs hq p.diagonal_diag ht fun _ _ _ => rfl⟩

theorem Prepared.own {q : WorldPairing} {b : World} (hb : s.Prepared q l u b) (hs : s.Started w l u) (n : String)
    (i : Instance) (hi : s.loader.instance? b n = some i) : i.fields.Twin (Value.Held q.heap) i.fields := by
  obtain ⟨id, e, j, hid, hrest⟩ := Loader.instance?_eq_some.mp hi
  exact hb.fields n i (Loader.instance?_eq_some.mpr ⟨id, e, j, hs.more hid, hrest⟩)

section
variable {ip : Interpreter} {g : Generator} (hlib : ip.setting.host.Natural)

theorem Started.run_prepare (hs : s.Started w l u) (hcomplete : ModuleCode.Complete (s.loader.code? u))
    (hprelude : s.bindings = [] ∨ g.preludeArtifact ∈ s.loader.modules.names) :
    (prepare ⟨ip.engine, g⟩ s l).run u = (prepare ⟨ip.engine, g⟩ s s.loader).run u :=
  prepare_extended _ hs.more hs.keyed hcomplete hprelude

include hlib

theorem Ready.together_prepare (hr : s.Ready p w) (hs : s.Started w l u) (hs' : s.Started w l' u') :
    Together (.since w.entries.size u') p (fun _ _ _ => True) (prepare ⟨ip.engine, g⟩ s s.loader) u
      (prepare ⟨ip.engine, g⟩ s s.loader) u' :=
  Session.together_prepare hlib hr.session hr.session.loader (hr.twin.enlarged hs.enlarged hs'.enlarged)

theorem Ready.kept_prepare (hr : s.Ready p w) (hs : s.Started w l u) {id : EntryId}
    (hle : w.entries.size ≤ id) (hlt : id < u.entries.size) :
    ((prepare ⟨ip.engine, g⟩ s s.loader).run u).2.entries[id]? = u.entries[id]? := by
  obtain ⟨q, -, -, ht⟩ := hr.together_prepare (g := g) hlib hs hs
  exact (ht.entries.apart ⟨hle, hlt⟩).2.2

theorem Ready.prepared (hr : s.Ready p w) (hs : s.Started w l u) : ∃ q, p.Within q ∧
    s.Prepared q l u ((prepare ⟨ip.engine, g⟩ s s.loader).run u).2 := by
  obtain ⟨q, hq, -, ht⟩ := hr.together_prepare (g := g) hlib hs hs
  obtain ⟨hsound, hkeeps⟩ := ((serves_sound ⟨ip.engine, g⟩ (List.mem_cons_of_mem l
    (List.mem_singleton_self s.loader))).prepare s).world u hs.sound
  have hwithin := hr.diagonal.within_diag hq
  exact ⟨q.diag, hwithin, ht.diag, q.diagonal_diag, hsound, hkeeps,
    hr.held hs hwithin q.diagonal_diag ht.diag fun id => hr.kept_prepare hlib hs⟩

end

/-! ## The value -/

section
variable {ws : Workshop} {v : World} {a f : String}

theorem run_readField_error {e : Error} (h : (prepare ws s l).run w = (.error e, v)) :
    (readField ws s l a f).run w = (.error e, v) := by
  rw [run_readField, run_bind, h]

theorem run_readField_ok (h : (prepare ws s l).run w = (.ok (), v)) :
    (readField ws s l a f).run w = (fetch ws l a f).run v := by
  rw [run_readField, run_bind, h]

end

section
variable {ip : Interpreter} {g : Generator} (hlib : ip.setting.host.Natural)
include hlib

/-- The bound values could be written, and the first expression has been read after that. -/
theorem fetch_again {l₁ : Loader} {b c : World} (hr : s.Ready p w) (hs₁ : s.Started w l₁ u)
    {cache cache' : Cache Parsed}
    (hc : Interpreter.Truthful cache) (hc' : Interpreter.Truthful cache')
    (hnew : ∀ c ∈ mods, s.loader.code? w c.name = none) (a₁ f₁ a₂ f₂ : String)
    (hb : (prepare ⟨ip.engine, g⟩ s s.loader).run u = (.ok (), b))
    (hcrun : (prepare ⟨ip.engine, g⟩ s s.loader).run (s.loader.enlarge mods { w with cache }).2 = (.ok (), c)) :
    let x := s.loader.enlarge mods { w with cache }
    let w' := ((fetch ⟨ip.engine, g⟩ l₁ a₁ f₁).run b).2
    let x' := s.loader.enlarge mods { w' with cache := cache' }
    (prepare ⟨ip.engine, g⟩ s s.loader).run x'.2 = (.ok (), x'.2) ∧
    ((fetch ⟨ip.engine, g⟩ x.1 a₂ f₂).Overflows c ∨
      (fetch ⟨ip.engine, g⟩ x'.1 a₂ f₂).seen x'.2 = (fetch ⟨ip.engine, g⟩ x.1 a₂ f₂).seen c) := by
  intro x w' x'
  have hs₂ : s.Started w x.1 x.2 := started_enlarge hr.sound hr.complete hc hnew
  have hmem : ∀ l : Loader, s.loader ∈ [l, s.loader] := fun l => List.mem_cons_of_mem l (List.mem_singleton_self _)
  obtain ⟨q, -, hprep⟩ := hr.prepared (g := g) hlib hs₁
  obtain ⟨q', hq', -, htwin⟩ := hr.together_prepare (g := g) hlib hs₂ hs₁
  have hkept := fun (id : EntryId) (hle : w.entries.size ≤ id) (hlt : id < x.2.entries.size) =>
    hr.kept_prepare (g := g) hlib hs₂ hle hlt
  obtain ⟨hleft, -⟩ := ((serves_sound ⟨ip.engine, g⟩ (hmem x.1)).prepare s).world x.2 hs₂.sound
  have hinjected := meets_prepare ip g s hs₁.sound.coherent (hmem l₁) hs₁.sound.calm
  unfold Act.Meets at hinjected
  rw [hb] at hprep htwin hinjected
  rw [hcrun] at htwin hkept hleft
  -- what is done from there is recorded
  have hcomplete : ∀ {v : World}, w.Keeps [] v → ModuleCode.Complete (s.loader.code? v) := fun hk => by
    rw [show s.loader.code? _ = s.loader.code? w from funext fun _ => Loader.code?_keeps hr.keyed hk]
    exact hr.complete
  have hkeeps_b := hs₁.enlarged.keeps.trans hprep.keeps
  have hpast : b.Past ip.setting s.loader l₁ b {x | ∃ y, q.heap.scopes x y} q.heap [] [] :=
    World.past_begin hprep.sound.coherent (hmem l₁) hprep.twin hprep.diagonal.heap hprep.sound.calm
      hprep.sound.idle hprep.fields
  obtain ⟨S, r, M, N, hpass⟩ := (records_fetch (g := g) hlib (hmem l₁) List.mem_cons_self hs₁.more
    (hcomplete hkeeps_b) hprep.sound.coherent hpast a₁ f₁).world
  obtain ⟨hsound, hkeeps⟩ := ((serves_sound ⟨ip.engine, g⟩ List.mem_cons_self).fetch a₁ f₁).world b hprep.sound
  have hcache := (((serves_leaves ⟨ip.engine, g⟩ l₁).fetch a₁ f₁).world b).1
  obtain ⟨hs', -⟩ := hr.started_later hsound.tail (hkeeps_b.trans hkeeps) hc' hnew
  have hkeyed : s.loader.Keyed { w with cache } := ⟨hr.keyed.nodup, hr.keyed.entry⟩
  refine ⟨?_, ?_⟩
  · unfold prepare
    split
    · rfl
    · rename_i hbound
      have hinj := hinjected.resolve_left fun hnone => hbound (List.isEmpty_iff.mpr hnone)
      have hripens : b.heap.Ripens .univ x'.2.heap := hs'.enlarged.heap ▸ hpass.ripens
      refine hinj.again hprep.twin.heap hripens (hkeeps.trans hs'.enlarged.keeps) hs'.sound.calm
        (hprep.own hs₁)
  · obtain ⟨σ, q₂, hl, hbehind, hknown⟩ := hpass.past.abreast_enlarge htwin hpass.ripens hkeeps hleft.idle
      hleft.calm ⟨htwin.truthful.1, hcache ▸ htwin.truthful.2⟩ (fun hn => hq'.entries (hr.home hn))
      (hsound.coherent.keyed _ (hmem l₁)) hkeyed mods hc' rfl
      fun id e hle he => (hkept id hle (Array.getElem?_eq_some_iff.mp he).1).trans he
    exact (abreast_fetch hlib hs₂.more hknown hl hbehind a₂ f₂).seen

/-- The prelude could not be loaded. -/
theorem load_again {l₁ : Loader} {b : World} (hr : s.Ready p w) (hs₁ : s.Started w l₁ u)
    {cache cache' : Cache Parsed}
    (hc : Interpreter.Truthful cache) (hc' : Interpreter.Truthful cache')
    (hnew : ∀ c ∈ mods, s.loader.code? w c.name = none) (name : String) {e : Error}
    (hb : (loadInstance ⟨ip.engine, g⟩ s.loader name).run u = (.error e, b)) :
    let x := s.loader.enlarge mods { w with cache }
    let x' := s.loader.enlarge mods { b with cache := cache' }
    (loadInstance ⟨ip.engine, g⟩ s.loader name).Overflows x.2 ∨
      ((loadInstance ⟨ip.engine, g⟩ s.loader name).run x'.2).1 = .error e := by
  intro x x'
  have hs₂ : s.Started w x.1 x.2 := started_enlarge hr.sound hr.complete hc hnew
  have hmem : s.loader ∈ [l₁, s.loader] := List.mem_cons_of_mem _ (List.mem_singleton_self _)
  obtain ⟨q, -, hprep⟩ := hr.begun hs₁
  have hpast : u.Past ip.setting s.loader s.loader u {x | ∃ y, q.heap.scopes x y} q.heap [] [] :=
    World.past_begin hs₁.sound.coherent hmem hprep.twin hprep.diagonal.heap
    hs₁.sound.calm hs₁.sound.idle (hprep.own hs₁)
  have hpassed := (records_loadInstance (g := g) hlib hmem hmem id (hs₁.complete hr.keyed hr.complete)
    hs₁.sound.coherent hpast name)
  unfold Act.Meets at hpassed
  rw [hb] at hpassed
  obtain ⟨S, r, M, N, hpass⟩ := hpassed
  obtain ⟨hsound, hkeeps⟩ := ((serves_sound ⟨ip.engine, g⟩ hmem).loadInstance name).world u hs₁.sound
  have hcache := (((serves_leaves ⟨ip.engine, g⟩ s.loader).loadInstance name).world u).1
  have htwin := hr.twin.enlarged hs₂.enlarged hs₁.enlarged
  have htogether : Together _ p Instance.Twin (loadInstance ⟨ip.engine, g⟩ s.loader name) x.2
      (loadInstance ⟨ip.engine, g⟩ s.loader name) u := together_loadInstance hlib hr.session.loader htwin name
  obtain ⟨_, -, hagree, -⟩ := htogether
  rw [hb] at hsound hkeeps hcache hagree
  have hkeyed : s.loader.Keyed { w with cache } := ⟨hr.keyed.nodup, hr.keyed.entry⟩
  obtain ⟨σ, q₂, hl, hbehind, hknown⟩ := hpass.past.abreast_enlarge htwin hpass.ripens hkeeps hs₂.sound.idle
    hs₂.sound.calm ⟨htwin.truthful.1, hcache ▸ htwin.truthful.2⟩ hr.home
    (hsound.coherent.keyed _ hmem) hkeyed mods hc' rfl fun _ _ _ he => he
  refine (abreast_loadInstance hlib id (fun hn _ => hn) (Loader.twin_home hr.keyed hbehind.home)
    hbehind name).imp_right ?_
  rintro ⟨_, -, hagree', -⟩
  rcases hagree.cases with ⟨e', he, he'⟩ | ⟨_, _, -, hok, -⟩
  · obtain rfl := Except.error.inj he'
    rcases hagree'.cases with ⟨e'', hx, hx'⟩ | ⟨_, _, hx, -, -⟩
    · rw [hx', Except.error.inj (hx.symm.trans he)]
    · cases hx.symm.trans he
  · cases hok

omit hlib in
theorem run_during_error {α : Type} {x : Act α} {activity : Activity} {e : Error} {v : World}
    (h : (x.during activity).run w = (.error e, v)) :
    ∃ e', e = .during activity e' ∧ x.run w = (.error e', v) := by
  rw [run_during] at h
  generalize x.run w = y at h ⊢
  obtain ⟨r, v'⟩ := y
  cases r with
  | ok a => cases (Prod.mk.inj h).1
  | error e' =>
    obtain ⟨he, rfl⟩ := Prod.mk.inj h
    exact ⟨e', (Except.error.inj he).symm, rfl⟩

omit hlib in
theorem prepare_bound {ws : Workshop} {l : Loader} (hb : s.bindings ≠ []) : prepare ws s l = inject ws s l :=
  if_neg fun hempty => hb (List.isEmpty_iff.mp hempty)

/-- The bound values could not be written. -/
theorem prepare_again {l₁ : Loader} {b : World} (hr : s.Ready p w) (hs₁ : s.Started w l₁ u)
    {cache cache' : Cache Parsed} (hc : Interpreter.Truthful cache) (hc' : Interpreter.Truthful cache')
    (hnew : ∀ c ∈ mods, s.loader.code? w c.name = none) {e : Error}
    (hb : (prepare ⟨ip.engine, g⟩ s s.loader).run u = (.error e, b)) :
    let x := s.loader.enlarge mods { w with cache }
    let x' := s.loader.enlarge mods { b with cache := cache' }
    (prepare ⟨ip.engine, g⟩ s s.loader).Overflows x.2 ∨
      ((prepare ⟨ip.engine, g⟩ s s.loader).run x'.2).1 = .error e := by
  intro x x'
  have hmem : s.loader ∈ [l₁, s.loader] := List.mem_cons_of_mem _ (List.mem_singleton_self _)
  have hfails := meets_prepare ip g s hs₁.sound.coherent hmem hs₁.sound.calm
  obtain ⟨hsound, hkeeps⟩ := ((serves_sound ⟨ip.engine, g⟩ hmem).prepare s).world u hs₁.sound
  unfold Act.Meets at hfails
  rw [hb] at hfails hsound hkeeps
  obtain ⟨hbound, hfails⟩ := hfails
  obtain ⟨hs', -⟩ := hr.started_later hsound.tail (hs₁.enlarged.keeps.trans hkeeps) hc' hnew
  rw [prepare_bound hbound]
  rcases hfails with hload | hbarred
  · obtain ⟨e', rfl, hrun⟩ := run_during_error hload
    refine (load_again (g := g) hlib hr hs₁ hc hc' hnew _ hrun).imp (fun h => ?_) fun h => ?_
    · exact overflows_bind (overflows_rethrow (Error.wraps_during _) h)
    · unfold inject
      rw [run_bind, run_during]
      generalize (loadInstance ⟨ip.engine, g⟩ s.loader g.preludeArtifact).run x'.2 = y at h ⊢
      obtain ⟨r, v⟩ := y
      obtain rfl : r = .error e' := h
      rfl
  · exact .inr (hbarred.again (congrArg Heap.thunks hs'.enlarged.heap) hs'.enlarged.keeps hs'.sound.calm)

/-- **An expression that has been read makes no difference to another one**, which is seen to come to
the same, unless it ends by the depth limit. -/
theorem readField_again {l₁ : Loader} (hr : s.Ready p w) (hs₁ : s.Started w l₁ u)
    (hprelude : s.bindings = [] ∨ g.preludeArtifact ∈ s.loader.modules.names)
    {cache cache' : Cache Parsed} (hc : Interpreter.Truthful cache) (hc' : Interpreter.Truthful cache')
    (hnew : ∀ c ∈ mods, s.loader.code? w c.name = none) (a₁ f₁ a₂ f₂ : String) :
    let x := s.loader.enlarge mods { w with cache }
    let w' := ((readField ⟨ip.engine, g⟩ s l₁ a₁ f₁).run u).2
    let x' := s.loader.enlarge mods { w' with cache := cache' }
    (readField ⟨ip.engine, g⟩ s x.1 a₂ f₂).Overflows x.2 ∨
      (readField ⟨ip.engine, g⟩ s x'.1 a₂ f₂).seen x'.2 = (readField ⟨ip.engine, g⟩ s x.1 a₂ f₂).seen x.2 := by
  intro x w' x'
  have hs₂ : s.Started w x.1 x.2 := started_enlarge hr.sound hr.complete hc hnew
  have hrun₁ : (prepare ⟨ip.engine, g⟩ s l₁).run u = (prepare ⟨ip.engine, g⟩ s s.loader).run u :=
    hs₁.run_prepare (hs₁.complete hr.keyed hr.complete) hprelude
  have hrun₂ : (prepare ⟨ip.engine, g⟩ s x.1).run x.2 = (prepare ⟨ip.engine, g⟩ s s.loader).run x.2 :=
    hs₂.run_prepare (hs₂.complete hr.keyed hr.complete) hprelude
  obtain ⟨_, -, hagree, -⟩ := hr.together_prepare (g := g) hlib hs₁ hs₂
  generalize hb : (prepare ⟨ip.engine, g⟩ s s.loader).run u = y at hagree hrun₁
  generalize hcrun : (prepare ⟨ip.engine, g⟩ s s.loader).run x.2 = y₂ at hagree hrun₂
  obtain ⟨r, b⟩ := y
  obtain ⟨r₂, c⟩ := y₂
  obtain ⟨hsound, hkeeps⟩ := ((serves_sound ⟨ip.engine, g⟩ List.mem_cons_self).readField s a₁ f₁).world u hs₁.sound
  obtain ⟨hs', hcomplete'⟩ := hr.started_later hsound.tail (hs₁.enlarged.keeps.trans hkeeps) hc' hnew
  have hrun' : (prepare ⟨ip.engine, g⟩ s x'.1).run x'.2 = (prepare ⟨ip.engine, g⟩ s s.loader).run x'.2 :=
    hs'.run_prepare hcomplete' hprelude
  cases hagree with
  | error e =>
    have hw' : w' = b := congrArg Prod.snd (run_readField_error hrun₁)
    have hagain := prepare_again hlib hr hs₁ hc hc' hnew hb
    rw [← hw'] at hagain
    have hleft : ((readField ⟨ip.engine, g⟩ s x.1 a₂ f₂).run x.2).1 = .error e :=
      congrArg Prod.fst (run_readField_error hrun₂)
    refine hagain.imp (fun ho => ho.congr (congrArg Prod.fst hcrun) hleft) fun he => ?_
    rw [seen_error hleft]
    exact seen_error (congrArg Prod.fst (run_readField_error (hrun'.trans (Prod.ext he rfl))))
  | ok _ =>
    have hw' : w' = ((fetch ⟨ip.engine, g⟩ l₁ a₁ f₁).run b).2 := congrArg Prod.snd (run_readField_ok hrun₁)
    obtain ⟨hagain, hsame⟩ := fetch_again hlib hr hs₁ hc hc' hnew a₁ f₁ a₂ f₂ hb hcrun
    rw [← hw'] at hagain hsame
    have hleft : (readField ⟨ip.engine, g⟩ s x.1 a₂ f₂).run x.2 =
      (fetch ⟨ip.engine, g⟩ x.1 a₂ f₂).run c := run_readField_ok hrun₂
    have hright : (readField ⟨ip.engine, g⟩ s x'.1 a₂ f₂).run x'.2 =
      (fetch ⟨ip.engine, g⟩ x'.1 a₂ f₂).run x'.2 := run_readField_ok (hrun'.trans hagain)
    rw [seen_congr hleft, seen_congr hright]
    refine hsame.imp_left ?_
    rintro ⟨e, he, hl⟩
    exact ⟨e, hleft ▸ he, hl⟩

end

end

end Session

end LazySession
