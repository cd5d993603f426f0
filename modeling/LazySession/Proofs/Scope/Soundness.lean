import LazySession.Proofs.Loader.Coherence
import LazySession.Proofs.Loader.Preserved
import LazySession.Proofs.Scope.Accepted
import LazySession.Proofs.Scope.Linking

/-!
# Names that pass the checks are defined

Loaders are made and used in any order, and a host reads fields, makes cells and writes into cells.
`Exchange.sound_steps`: all the while, the fields of modules that have passed the checks lead only
to sound ground. So reading them never comes upon a name that is not defined.
-/

namespace LazySession

/-! ## Reading a field -/

namespace Instance

/-- Reading keeps the ground. If the fields are sound, so is what is read, and reading does not fail
for a name. -/
theorem sound_read {set : Setting} (hlib : set.host.Relays) (i : Instance) (field : String)
    (good : Prop) {w : World} {G : Ground} (hh : w.heap.Sound G)
    (hf : good → ∀ p ∈ i.fields, p.2.Sound G w.heap) :
    (i.read set field).Meets w
      (fun v w' => ∃ G', G.Within G' ∧ w'.heap.Sound G' ∧ w.heap.Wider w'.heap ∧
        (good → ∀ u, v = .object u → u.Sound G' w'.heap))
      (fun e w' => (∃ G', G.Within G' ∧ w'.heap.Sound G' ∧ w.heap.Wider w'.heap) ∧
        (good → e.isUndefined = false)) := by
  refine Act.meets_bind (Act.meets_inquire fun patience => ⟨?_, ?_⟩)
  · split
    · exact Act.meets_throw ⟨⟨G, .refl _, hh, .refl _⟩, fun _ => rfl⟩
    · rename_i v hv
      refine Act.meets_bind (Act.meets_evaluate ?_)
      generalize hs : Act.start 0 { w with context := { w.context with patience } } = s
      have hheap : s.heap = w.heap := by rw [← hs]; rfl
      have g := EvalState.grows_force set s v
      rw [← hheap] at hh hf ⊢
      obtain ⟨G', hG, hh', hr⟩ : ∃ G', G.Extends s.heap G' ∧ (s.force set v).2.heap.Sound G' ∧
          (good → (Control.give (s.force set v).1).Sound G' (s.force set v).2.heap) := by
        by_cases hgood : good
        · obtain ⟨G', hG, hh', hr⟩ :=
            EvalState.sound_force hlib hh (hf hgood _ (Table.mem_of_get? hv))
          exact ⟨G', hG, hh', fun _ => hr⟩
        · obtain ⟨G', hG, hh'⟩ := EvalState.sound_force_any hlib hh v
          exact ⟨G', hG, hh', fun h => absurd h hgood⟩
      generalize s.force set v = p at g hh' hr ⊢
      obtain ⟨r, s'⟩ := p
      cases r with
      | ok u =>
        refine Act.meets_get_bind (Act.meets_pure ⟨G', hG.within, hh', g.wider, fun hgood u' he => ?_⟩)
        exact hh'.toHost (hr hgood) he
      | error e => exact ⟨⟨G', hG.within, hh', g.wider⟩, hr⟩
  · exact ⟨⟨G, .refl _, hh, .refl _⟩, fun _ => rfl⟩

end Instance

/-! ## Loaders in use -/

/-- Loaders in use, and the values of the language that the host has been given. -/
structure Exchange where
  family : Family
  given : List Value

namespace Exchange

def world (x : Exchange) : World := x.family.world

/-- What the host stores is a datum or a value that leads nowhere, or it is one of the given values: a
function that the host has made itself may have any names in it. -/
def Storable (given : List Value) : HostValue → Prop
  | .object v => v.isAlone ∨ v ∈ given
  | _ => True

/-- The values that the host is given: what it reads from a module of a checked loader. -/
def received : Except Error HostValue → List Value
  | .ok (.object v) => [v]
  | _ => []

/-- Something is done with the loaders, or the host reads a field, makes a cell or stores a value. All of
this may fail but the making of loaders and cells, and there may be other work in between. -/
inductive Step : Exchange → Exchange → Prop
  | extend {w : World} {ls : List Loader} {vs : List Value} {l : Loader} (hl : l ∈ ls)
    (mods : List ModuleCode) :
    Step ⟨⟨w, ls⟩, vs⟩ ⟨⟨(l.extend mods w).2, (l.extend mods w).1 :: ls⟩, vs⟩
  | load {w : World} {ls : List Loader} {vs : List Value} {l : Loader} (hl : l ∈ ls) {set : Setting}
    (hlib : set.host.Relays) (name : String) :
    Step ⟨⟨w, ls⟩, vs⟩ ⟨⟨((l.load set name).run w).2, ls⟩, vs⟩
  | read {w : World} {ls : List Loader} {vs : List Value} (i : Instance) {set : Setting}
    (hlib : set.host.Relays) (field : String) :
    Step ⟨⟨w, ls⟩, vs⟩ ⟨⟨((i.read set field).run w).2, ls⟩, vs⟩
  | receive {w : World} {ls : List Loader} {vs : List Value} {l : Loader} (hl : l ∈ ls)
    (hc : ModuleCode.Checked (l.code? w)) {name : String} {i : Instance}
    (hi : l.instance? w name = some i) {set : Setting} (hlib : set.host.Relays) (field : String) :
    Step ⟨⟨w, ls⟩, vs⟩
      ⟨⟨((i.read set field).run w).2, ls⟩, received ((i.read set field).run w).1 ++ vs⟩
  | make {w : World} {ls : List Loader} {vs : List Value} {content : Option HostValue}
    (hc : ∀ v ∈ content, Storable vs v) :
    Step ⟨⟨w, ls⟩, vs⟩
      ⟨⟨{ w with heap := (w.heap.newCell (content.map (·.toValue))).2 }, ls⟩, .cell w.heap.cells.size :: vs⟩
  | write {w : World} {ls : List Loader} {vs : List Value} (i : Instance) (field : String)
    {v : HostValue} (hv : Storable vs v) :
    Step ⟨⟨w, ls⟩, vs⟩ ⟨⟨((i.write field v).run w).2, ls⟩, vs⟩
  | other {w : World} {ls : List Loader} {vs : List Value} {cache : Cache Parsed}
    (hc : cache.All IsReading) (context : Context) :
    Step ⟨⟨w, ls⟩, vs⟩ ⟨⟨{ w with cache, context }, ls⟩, vs⟩

/-- Any number of steps. -/
abbrev Steps : Exchange → Exchange → Prop := Relation.ReflTransGen Step

/-- All that the host has been given, and the fields of all modules that have passed, lead only to
sound ground. -/
structure Sound (x : Exchange) : Prop where
  coherent : x.family.Coherent
  cache : x.world.cache.All IsReading
  secure : ∃ G, Loader.Secure x.family.loaders [] G x.world ∧
    ∀ v ∈ x.given, v.Sound G x.world.heap

theorem Step.coherent {x y : Exchange} (h : Step x y) (hx : x.family.Coherent) : y.family.Coherent := by
  cases h with
  | extend hl mods => exact Family.coherent_extend hx hl mods
  | load hl hlib name => exact (Family.coherent_load hx hl _ name).1
  | read i hlib field => exact (Family.coherent_read hx i _ field).1
  | receive hl hc hi hlib field => exact (Family.coherent_read hx _ _ field).1
  | @make w _ _ content hc =>
    have hgrows := (Heap.Grows.refl Heap.anyThunk w.heap).newCell (content.map (·.toValue))
    exact hx.keeps_heap (hgrows.fills []) rfl rfl
  | write i field hv => exact (Family.coherent_write hx i field _).1
  | other hc context => exact hx.keeps_heap (.refl _ _) rfl rfl

/-! ## Steps -/

section
variable {w : World} {ls : List Loader} {vs : List Value} {l : Loader}

theorem world_extend (hk : l.Keyed w) (mods : List ModuleCode) :
    (l.extend mods w).2 = { w with entries := (l.extend mods w).2.entries } := by
  obtain ⟨_, _, r, _⟩ := Loader.renews_extend hk mods
  exact r.world

theorem secure_extend {G : Ground} (hs : Loader.Secure ls [] G w) (hc : Family.Coherent ⟨w, ls⟩)
    (hl : l ∈ ls) (mods : List ModuleCode) :
    Loader.Secure ((l.extend mods w).1 :: ls) [] G (l.extend mods w).2 := by
  obtain ⟨hsame, fresh, hcode', hclosed, hinst'⟩ := Family.seen_extend hc hl mods
  have hheap : (l.extend mods w).2.heap = w.heap := by rw [world_extend (hc.keyed l hl) mods]
  generalize l.extend mods w = p at *
  obtain ⟨l', w'⟩ := p
  simp only at hsame hcode' hinst' hheap ⊢
  refine ⟨hheap ▸ hs.heap, by simp, fun l₁ hl₁ k inst hv h => ?_, fun l₁ hl₁ k h => ?_⟩
  · rw [hheap]
    rcases List.mem_cons.mp hl₁ with rfl | hl₁
    · obtain ⟨hf, hi⟩ := hinst' k inst h
      exact hs.fields l hl k inst
        (hv.congr (· ∉ fresh) (fun k hf => (hcode' k hf).symm)
          (fun k c hf hcode => hclosed k c hf (hcode' k hf ▸ hcode)) hf) hi
    · obtain ⟨hcode, hinst⟩ := hsame l₁ hl₁
      rw [hinst] at h
      rw [hcode] at hv
      exact hs.fields l₁ hl₁ k inst hv h
  · rcases List.mem_cons.mp hl₁ with rfl | hl₁
    · obtain ⟨inst, h⟩ := Option.isSome_iff_exists.mp h
      obtain ⟨hf, hi⟩ := hinst' k inst h
      have hfounded := hs.founded l hl k (Option.isSome_iff_exists.mpr ⟨inst, hi⟩)
      exact hfounded.congr (· ∉ fresh) hcode' hclosed hf
    · obtain ⟨hcode, hinst⟩ := hsame l₁ hl₁
      rw [hinst] at h
      rw [hcode]
      exact hs.founded l₁ hl₁ k h

/-- The ground is enough for the loaders and for what the host has been given. -/
def Covered (ls : List Loader) (vs : List Value) (w : World) : Prop :=
  ∃ G, Loader.Secure ls [] G w ∧ ∀ v ∈ vs, v.Sound G w.heap

/-- Nothing but the heap has changed. -/
theorem Covered.setHeap {G G' : Ground} {w' : World} (hs : Loader.Secure ls [] G w)
    (hv : ∀ v ∈ vs, v.Sound G w.heap) (hG : G.Within G') (hh : w'.heap.Sound G')
    (hw : w.heap.Wider w'.heap) (hi : w'.instances = w.instances) (he : w'.entries = w.entries) :
    Covered ls vs w' :=
  ⟨G', hs.setHeap hh hG hw nofun hi he, fun v hm => (hv v hm).mono hG hw⟩

theorem covered_load {set : Setting} (hlib : set.host.Relays) (hc : Family.Coherent ⟨w, ls⟩)
    (hl : l ∈ ls) (hs : Covered ls vs w) (name : String) :
    (l.load set name).Meets w
      (fun id w' => Covered ls vs w' ∧ l.code? w' = l.code? w ∧
        ∃ i, w'.instances[id]? = some i ∧ l.instance? w' name = some i)
      (fun e w' => Covered ls vs w' ∧
        (ModuleCode.Sealed (l.code? w) → e.isUndefined = false)) := by
  obtain ⟨G, hs, hv⟩ := hs
  refine Act.meets_bind (Act.meets_inquire fun patience => ?_)
  have hc₁ : Family.Coherent ⟨{ w with context := { w.context with patience } }, ls⟩ :=
    hc.keeps_heap (.refl _ _) rfl rfl
  have hs₁ : Loader.Secure ls [] G { w with context := { w.context with patience } } :=
    hs.setHeap hs.heap (.refl _) (.refl _) nofun rfl rfl
  refine ⟨?_, ⟨G, hs₁, hv⟩, fun _ => rfl⟩
  have hlink := Loader.meets_link set hl (l.modules.length + 1) [] name [] _ hc₁ (by simp)
  have hsound := Loader.sound_link hlib hl (l.modules.length + 1) [] name [] _ G hc₁ (by simp) hs₁
  -- what linking adds to the heap makes no scope smaller
  have hwider : ∀ {w' : World}, w.heap.Fills [] w'.heap → w.heap.Wider w'.heap := by
    intro w' f
    exact Heap.wider_of_scopes fun id s hi => ⟨s.vars, f.scopes id s List.not_mem_nil hi, fun _ h => h⟩
  refine (hlink.and hsound).mono ?_ ?_
  · rintro id w' ⟨⟨ha, hh⟩, G', hG, hs'⟩
    have hcode : l.code? w' = l.code? { w with context := { w.context with patience } } :=
      funext fun k => Loader.code?_keeps (hc₁.keyed l hl) ha.keeps
    refine ⟨⟨G', hs', fun v hm => ?_⟩, hcode, hh.instance? ha.coherent hl⟩
    exact (hv v hm).mono hG.within (hwider ha.keeps.heap)
  · rintro e w' ⟨ha, ⟨G', hG, hs'⟩, he⟩
    exact ⟨⟨G', hs', fun v hm => (hv v hm).mono hG.within (hwider ha.keeps.heap)⟩, he⟩

/-- Reading changes nothing but the heap and the patience. -/
theorem meets_read_rest (i : Instance) (set : Setting) (field : String) :
    (i.read set field).Meets w
      (fun _ w' => w'.instances = w.instances ∧ w'.entries = w.entries ∧ w'.cache = w.cache)
      (fun _ w' => w'.instances = w.instances ∧ w'.entries = w.entries ∧ w'.cache = w.cache) := by
  refine Act.meets_bind (Act.meets_inquire fun patience => ⟨?_, rfl, rfl, rfl⟩)
  split
  · exact Act.meets_throw ⟨rfl, rfl, rfl⟩
  · refine Act.meets_bind (Act.meets_evaluate ?_)
    split
    · exact Act.meets_get_bind (Act.meets_pure ⟨rfl, rfl, rfl⟩)
    · exact ⟨rfl, rfl, rfl⟩

/-- The host is given what it reads from an instance; that is sound if the instance is good. -/
theorem covered_read {set : Setting} (hlib : set.host.Relays) (i : Instance) (field : String)
    (good : Prop) (hs : Covered ls vs w)
    (hf : good → ∃ l ∈ ls, ∃ k, ModuleCode.Vouched (l.code? w) k ∧ l.instance? w k = some i) :
    (i.read set field).Meets w
      (fun v w' => Covered ls vs w' ∧ (good → Covered ls (received (.ok v) ++ vs) w'))
      (fun e w' => Covered ls vs w' ∧ (good → e.isUndefined = false)) := by
  obtain ⟨G, hs, hv⟩ := hs
  have hsound := Instance.sound_read hlib i field good hs.heap fun hgood => by
    obtain ⟨l, hl, k, hvouched, hi⟩ := hf hgood
    exact hs.fields l hl k i hvouched hi
  refine (hsound.and (meets_read_rest i set field)).mono ?_ ?_
  · rintro v w' ⟨⟨G', hG, hh, hw, hobj⟩, hi, he, _⟩
    have hcov := Covered.setHeap hs hv hG hh hw hi he
    refine ⟨hcov, fun hgood => ⟨G', hs.setHeap hh hG hw nofun hi he, fun u hu => ?_⟩⟩
    rcases List.mem_append.mp hu with hu | hu
    · cases v with
      | object u' =>
        rw [List.mem_singleton.mp hu]
        exact hobj hgood u' rfl
      | _ => cases hu
    · exact (hv u hu).mono hG hw
  · rintro e w' ⟨⟨⟨G', hG, hh, hw⟩, herr⟩, hi, he, _⟩
    exact ⟨Covered.setHeap hs hv hG hh hw hi he, herr⟩

theorem Storable.sound {v : HostValue} (hv : Storable vs v) {G : Ground} (hgiven : ∀ v ∈ vs, v.Sound G w.heap) :
    v.toValue.Sound G w.heap := by
  cases v with
  | nil => exact .alone rfl
  | data d => exact .alone rfl
  | object u => exact hv.elim .alone (hgiven u)

theorem covered_make {content : Option HostValue} (hc : ∀ v ∈ content, Storable vs v) (hs : Covered ls vs w) :
    Covered ls (.cell w.heap.cells.size :: vs)
      { w with heap := (w.heap.newCell (content.map (·.toValue))).2 } := by
  obtain ⟨G, hsec, hgiven⟩ := hs
  have hcontent : ∀ v ∈ content.map (·.toValue), v.Sound G w.heap := by
    intro v hv
    obtain ⟨u, hu, rfl⟩ := Option.map_eq_some_iff.mp hv
    exact (hc u hu).sound hgiven
  have hheap := hsec.heap.newCell hcontent
  have hwider := ((Heap.Grows.refl (fun _ => False) w.heap).newCell (content.map (·.toValue))).wider
  refine ⟨_, hsec.setHeap hheap (G.within_addCell _) hwider nofun rfl rfl, fun v hv => ?_⟩
  rcases List.mem_cons.mp hv with rfl | hv
  · exact .cell (.inl rfl)
  · exact (hgiven v hv).mono (G.within_addCell _) hwider

theorem covered_write (i : Instance) (field : String) {v : HostValue} (hv : Storable vs v)
    (hs : Covered ls vs w) :
    (i.write field v).Meets w (fun _ w' => Covered ls vs w') (fun _ w' => Covered ls vs w') := by
  have hs' := hs
  obtain ⟨G, hsec, hgiven⟩ := hs'
  unfold Instance.write
  split
  · exact Act.meets_throw hs
  · refine Act.meets_get_bind ?_
    split
    · refine Act.meets_set ?_
      exact Covered.setHeap hsec hgiven (.refl G) (hsec.heap.setCell _ fun _ => hv.sound hgiven)
        (Heap.wider_of_eq rfl) rfl rfl
    · exact Act.meets_throw hs

theorem keepsCache_write (i : Instance) (field : String) (v : HostValue) :
    Loader.Holding (fun w w' => w'.cache = w.cache) (i.write field v) := by
  intro w
  unfold Instance.write
  split
  · exact Act.meets_throw rfl
  · refine Act.meets_get_bind ?_
    split
    · exact Act.meets_set rfl
    · exact Act.meets_throw rfl

theorem linked_vouched (hs : Covered ls vs w) (hl : l ∈ ls) (hc : ModuleCode.Sealed (l.code? w))
    {k : String} {i : Instance} (hi : l.instance? w k = some i) :
    ModuleCode.Vouched (l.code? w) k := by
  obtain ⟨G, hs, _⟩ := hs
  exact hc _ (hs.founded l hl k (Option.isSome_iff_exists.mpr ⟨i, hi⟩))

end

theorem Step.cache {x y : Exchange} (h : Step x y) (hx : x.family.Coherent)
    (hc : x.world.cache.All IsReading) : y.world.cache.All IsReading := by
  cases h with
  | extend hl mods =>
    unfold world
    rw [world_extend (hx.keyed _ hl) mods]
    exact hc
  | @load w _ _ l hl set hlib name =>
    have h := Act.Meets.world (P := fun w' => w'.cache = w.cache)
      ((Loader.kept_cache set).load l name w)
    unfold world
    rw [h]
    exact hc
  | @read w _ _ i set hlib field | @receive w _ _ _ _ _ _ i _ set hlib field =>
    have h := Act.Meets.world (P := fun w' => w'.cache = w.cache)
      ((meets_read_rest i set field).mono (fun _ _ h => h.2.2) fun _ _ h => h.2.2)
    unfold world
    rw [h]
    exact hc
  | @write w _ _ i field v hv =>
    have h := Act.Meets.world (P := fun w' => w'.cache = w.cache) (keepsCache_write i field v w)
    unfold world
    rw [h]
    exact hc
  | make => exact hc
  | other hc' context => exact hc'

theorem sound_step {x y : Exchange} (hs : x.Sound) (h : Step x y) : y.Sound := by
  refine ⟨h.coherent hs.coherent, h.cache hs.coherent hs.cache, ?_⟩
  have hcov : Covered x.family.loaders x.given x.world := hs.secure
  have hcoh := hs.coherent
  cases h with
  | extend hl mods =>
    obtain ⟨G, hsec, hv⟩ := hcov
    refine ⟨G, secure_extend hsec hcoh hl mods, fun v hm => ?_⟩
    unfold world
    rw [world_extend (hcoh.keyed _ hl) mods]
    exact hv v hm
  | load hl hlib name =>
    exact Act.Meets.world ((covered_load hlib hcoh hl hcov name).mono (fun _ _ h => h.1)
      fun _ _ h => h.1)
  | read i hlib field =>
    exact Act.Meets.world ((covered_read hlib i field False hcov False.elim).mono
      (fun _ _ h => h.1) fun _ _ h => h.1)
  | @receive w ls vs l hl hc name i hi set hlib field =>
    change Covered ls vs w at hcov
    have hv := linked_vouched hcov hl hc.sealed hi
    have h := covered_read hlib i field True hcov fun _ => ⟨l, hl, name, hv, hi⟩
    unfold Act.Meets at h
    generalize (i.read set field).run w = p at h ⊢
    obtain ⟨r, w'⟩ := p
    cases r with
    | ok v => exact h.2 trivial
    | error e => exact h.1
  | make hc => exact covered_make hc hcov
  | write i field hv =>
    exact Act.Meets.world (covered_write i field hv hcov)
  | other hc context =>
    obtain ⟨G, hsec, hv⟩ := hcov
    exact ⟨G, hsec.setHeap hsec.heap (.refl G) (.refl _) nofun rfl rfl, hv⟩

theorem sound_start {w : World} (hw : w.cache.All IsReading) : Sound ⟨⟨w, [.empty]⟩, []⟩ where
  coherent := Family.coherent_empty w
  cache := hw
  secure := by
    refine ⟨.empty, ⟨w.heap.sound_empty, nofun, fun l hl k inst _ hk => ?_, fun l hl k hk => ?_⟩, nofun⟩
    · rw [List.mem_singleton.mp hl] at hk
      cases hk
    · rw [List.mem_singleton.mp hl] at hk
      cases hk

theorem sound_steps {x y : Exchange} (hx : x.Sound) (h : Steps x y) : y.Sound := by
  induction h with
  | refl => exact hx
  | tail _ step ih => exact sound_step ih step

theorem loaders_steps {x y : Exchange} (h : Steps x y) : x.family.loaders ⊆ y.family.loaders := by
  induction h with
  | refl => exact List.Subset.refl _
  | tail _ step ih =>
    refine List.Subset.trans ih ?_
    cases step with
    | extend hl mods => exact List.subset_cons_self _ _
    | _ => exact List.Subset.refl _

end Exchange

/-! ## Names are defined -/

/-- Loading a module and reading any of its fields never ends with a name that is not defined. As
nothing catches an error while an expression is evaluated, no such name is met on the way. -/
def Loader.NamesDefined (l : Loader) (w : World) : Prop :=
  ∀ set : Setting, set.host.Relays → ∀ name,
    (l.load set name).Meets w
      (fun id w' => ∃ i, w'.instances[id]? = some i ∧ ∀ field,
        (i.read set field).Meets w' (fun _ _ => True) fun e _ => e.isUndefined = false)
      fun e _ => e.isUndefined = false

namespace Exchange

theorem Sound.defines {x : Exchange} (hx : x.Sound) {l : Loader} (hl : l ∈ x.family.loaders)
    (hc : ModuleCode.Sealed (l.code? x.world)) : l.NamesDefined x.world := by
  intro set hlib name
  refine (covered_load hlib hx.coherent hl hx.secure name).mono ?_ fun _ _ h => h.2 hc
  rintro id w' ⟨hcov, hcode, i, hi, hheld⟩
  refine ⟨i, hi, fun field => ?_⟩
  have hv : ModuleCode.Vouched (l.code? w') name := linked_vouched hcov hl (hcode ▸ hc) hheld
  refine (covered_read hlib i field True hcov fun _ => ⟨l, hl, name, hv, hheld⟩).mono ?_ ?_
  · exact fun _ _ _ => trivial
  · exact fun _ _ h => h.2 trivial

theorem Sound.namesDefined {x : Exchange} (hx : x.Sound) {l : Loader} (hl : l ∈ x.family.loaders)
    (hc : ModuleCode.Checked (l.code? x.world)) : l.NamesDefined x.world :=
  hx.defines hl hc.sealed

/-- Scope soundness. -/
theorem names_defined {w : World} (hw : w.cache.All IsReading) {x : Exchange}
    (hx : Steps ⟨⟨w, [.empty]⟩, []⟩ x) :
    (∀ l ∈ x.family.loaders, ModuleCode.Checked (l.code? x.world) → l.NamesDefined x.world) ∧
    ∀ (ip : Interpreter) (p : Program) (history : History) (loader : Option (Supplied Loader)),
      IsReading p.parsed → (loader = none ∨ loader = some (.ours .empty)) →
      ∀ symbol l w', (ip.run (.ours p) history loader).run x.world =
        (.ok (.accepted (.expression symbol) l), w') → l.NamesDefined w' := by
  have hsound := sound_steps (sound_start hw) hx
  refine ⟨fun l hl hc => hsound.namesDefined hl hc, ?_⟩
  intro ip p history loader hp hloader symbol l w' hrun
  have haccepts := Interpreter.accepts_run ip history hloader hp hsound.cache
  unfold Act.Meets at haccepts
  rw [hrun] at haccepts
  obtain ⟨hc, cache, context, mods, hcache, hmade⟩ := haccepts symbol l rfl
  obtain ⟨⟨w₁, ls⟩, vs⟩ := x
  have hempty : Loader.empty ∈ ls := loaders_steps hx List.mem_cons_self
  -- reading texts and making the loader are steps
  have hnext : Sound ⟨⟨w', l :: ls⟩, vs⟩ := by
    have h₁ := sound_step hsound (.other hcache context)
    have h₂ := sound_step h₁ (.extend hempty mods)
    obtain ⟨rfl, rfl⟩ := Prod.mk.inj hmade
    exact h₂
  exact hnext.namesDefined List.mem_cons_self hc

/-- An expression with names of all kinds: a parameter, a name of its own, and one that is imported,
with and without its module. -/
theorem names_defined_imported :
    ∃ symbol l w', ((⟨⟨[], ".mhs", [("B", "module B where\nx = 1\n")]⟩, ⟨.empty, 10⟩⟩ :
        Interpreter).run
      (.ours ⟨"let k z = x + z in k B.x",
        Fragment.ofText Interpreter.fragmentSource "let k z = x + z in k B.x"⟩)
      ⟨["import B"]⟩ none).run { cache := .disabled } =
        (.ok (.accepted (.expression symbol) l), w') ∧
      (l.code? w' "B").isSome ∧ l.NamesDefined w' := by
  have hall := (names_defined (w := { cache := .disabled }) nofun .refl).2
    ⟨⟨[], ".mhs", [("B", "module B where\nx = 1\n")]⟩, ⟨.empty, 10⟩⟩
    ⟨"let k z = x + z in k B.x",
      Fragment.ofText Interpreter.fragmentSource "let k z = x + z in k B.x"⟩
    ⟨["import B"]⟩ none ⟨_, _, .inl rfl⟩ (.inl rfl)
  have hrun : Interpreter.AcceptedWith (fun kind l w' => kind = .expression
        ⟨Interpreter.scriptName ⟨["import B"]⟩ "let k z = x + z in k B.x", Interpreter.resultField⟩ ∧
        (l.code? w' "B").isSome)
      (((⟨⟨[], ".mhs", [("B", "module B where\nx = 1\n")]⟩, ⟨.empty, 10⟩⟩ : Interpreter).run
        (.ours ⟨"let k z = x + z in k B.x",
          Fragment.ofText Interpreter.fragmentSource "let k z = x + z in k B.x"⟩)
        ⟨["import B"]⟩ none).run { cache := .disabled }) := by
    decide +kernel
  obtain ⟨_, l, w', hr, rfl, hB⟩ := hrun.outcome
  exact ⟨_, l, w', hr, hB, hall _ l w' hr⟩

end Exchange

end LazySession
