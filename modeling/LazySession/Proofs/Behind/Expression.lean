import LazySession.Proofs.Behind.Enlarging
import LazySession.Proofs.Behind.Linking
import LazySession.Proofs.Session.Isolation

/-!
# Loading and reading, then and now

`World.Past.abreast_enlarge`: a world in which things have been loaded and read is ahead of one in which
they have not, also when both get further modules. There, loading an artifact and reading a field come to
the same: `Session.abreast_fetch`.
-/

namespace LazySession

/-! ## What is seen -/

theorem HostValue.Twin.shown_behind {p : Pairing} {h h' : Heap} {v v' : HostValue} (hv : v.Twin p v')
    (hb : h.Behind p h') : v'.shown h' = v.shown h := by
  cases hv with
  | nil => rfl
  | data d => rfl
  | object hv =>
    simp only [HostValue.shown, hv.kind, hb.inspect hv]

namespace Act

variable {x x' : Act HostValue} {w w' : World}

/-- What is seen of what an act comes to. -/
def seen (x : Act HostValue) (w : World) : Except Error Shown :=
  (x.run w).1.map (HostValue.shown (x.run w).2.heap)

theorem seen_congr (h : x'.run w' = x.run w) : x'.seen w' = x.seen w := by
  unfold seen
  rw [h]

theorem seen_error {e : Error} (h : (x.run w).1 = .error e) : x.seen w = .error e := by
  unfold seen
  rw [h]
  rfl

theorem Overflows.congr {α β : Type} {x : Act α} {x' : Act β} {e : Error} (h : x.Overflows w)
    (hx : (x.run w).1 = .error e) (hx' : (x'.run w').1 = .error e) : x'.Overflows w' := by
  obtain ⟨e', he', hl⟩ := h
  obtain rfl := Except.error.inj (he'.symm.trans hx)
  exact ⟨e', hx', hl⟩

theorem Abreast.seen {set : Setting} {l : Loader} {σ : Story} {p : WorldPairing}
    (h : Abreast set l σ p (fun q => HostValue.Twin q.heap) x w x' w') :
    x.Overflows w ∨ x'.seen w' = x.seen w := by
  refine h.imp_right ?_
  rintro ⟨q, -, hr, hb⟩
  unfold Act.seen
  rcases hr.cases with ⟨e, he, he'⟩ | ⟨a, a', ha, ha', haa⟩
  · rw [he, he']
    rfl
  · rw [ha, ha']
    exact congrArg Except.ok (haa.shown_behind hb.heap.behind)

end Act

/-! ## What lasts -/

theorem Loader.Coherent.subset {ls ls' : List Loader} {opened : List ScopeId} {w : World}
    (h : Coherent ls opened w) (hs : ls' ⊆ ls) : Coherent ls' opened w where
  keyed l hl := h.keyed l (hs hl)
  shares l hl l' hl' := h.shares l (hs hl) l' (hs hl')
  linked l hl := h.linked l (hs hl)

namespace World

/-- Modules fit together, nothing is being evaluated, and nobody has called the work off. -/
structure Sound (ls : List Loader) (w : World) : Prop where
  coherent : Loader.Coherent ls [] w
  idle : w.heap.Idle
  calm : w.context = {}

theorem Sound.tail {l : Loader} {ls : List Loader} {w : World} (h : Sound (l :: ls) w) : Sound ls w where
  coherent := h.coherent.subset (List.subset_cons_self _ _)
  idle := h.idle
  calm := h.calm

/-- If nothing is being evaluated, nothing is afterwards, and work that nobody calls off goes on. -/
def Calms (w w' : World) : Prop :=
  (w.heap.Idle → w'.heap.Idle) ∧ (w.context = {} → w'.context = {})

end World

open World in
theorem Loader.kept_calms (set : Setting) : Kept set Calms := by
  have hadds : ∀ {w : World} {h : Heap}, w.heap.Adds h → Calms w { w with heap := h } :=
    fun ha => ⟨ha.idle, id⟩
  refine ⟨⟨fun _ => ⟨id, id⟩, fun h h' => ⟨h'.1 ∘ h.1, h'.2 ∘ h.2⟩, fun w patience hp => ⟨id, fun hw => ?_⟩,
    fun w => hadds (Heap.adds_newModuleScope w.heap),
    fun w scope own i fields => hadds (Heap.adds_importFields scope own i fields w.heap),
    fun w scope defs => hadds (adds_defineAll scope defs w.heap), fun w steps v => ⟨fun hi => ?_, fun hw => ?_⟩⟩,
    fun w id inst => ⟨fun h => h, fun h => h⟩⟩
  · rw [hp (by rw [hw]), hw]
  · exact EvalState.idle_force (s := Act.start steps w) set hi v
  · have hpatience := EvalState.endless_force set (s := Act.start steps w) (v := v) (by simp only [Act.start, hw])
    simp only [Act.finish, hpatience, hw]

open World in
theorem Instance.calms_write (i : Instance) (field : String) (v : HostValue) :
    Loader.Holding Calms (i.write field v) := by
  intro w
  unfold write
  split
  · exact Act.meets_throw ⟨id, id⟩
  · refine Act.meets_get_bind ?_
    split
    · exact Act.meets_set ⟨fun h => h, fun h => h⟩
    · exact Act.meets_throw ⟨id, id⟩

namespace Session

open World

theorem serves_sound (ws : Workshop) {ls : List Loader} {l : Loader} (hl : l ∈ ls) :
    Serves ws l fun w w' => Sound ls w → Sound ls w' ∧ w.Keeps [] w' := by
  have hstep : ∀ {w w' : World}, Calms w w' → (Loader.Coherent ls [] w → Family.Coherent ⟨w', ls⟩ ∧
      Family.Later ⟨w, ls⟩ ⟨w', ls⟩) → Sound ls w → Sound ls w' ∧ w.Keeps [] w' := by
    intro w w' hcalms hcoherent hw
    obtain ⟨hc, hlater⟩ := hcoherent hw.coherent
    exact ⟨⟨hc, hcalms.1 hw.idle, hcalms.2 hw.calm⟩, hlater.world⟩
  have hkept := Loader.kept_calms ws.engine.setting
  refine ⟨fun w h => ⟨h, .refl _ _⟩, fun h h' hw => ⟨(h' (h hw).1).1, (h hw).2.trans (h' (h hw).1).2⟩,
    fun name => ?_, fun i field => ?_, fun i field v => ?_⟩ <;> refine Loader.holding_of_run fun w => hstep ?_ ?_
  · exact (hkept.load l name).world w
  · exact fun hc => Family.coherent_load hc hl ws.engine.setting name
  · exact (hkept.read i field).world w
  · exact fun hc => Family.coherent_read hc i ws.engine.setting field
  · exact (i.calms_write field v).world w
  · exact fun hc => Family.coherent_write hc i field v

/-! ## Reading a field -/

section
variable {ip : Interpreter} {g : Generator} (hlib : ip.setting.host.Natural)
variable {l ran : Loader} {base w w' : World} {S : Set ScopeId} {r : Pairing} {L : List Told} {K : List Laid}
include hlib

theorem records_loadInstance {ls : List Loader} (hl : l ∈ ls) (hran : ran ∈ ls)
    (hmore : ∀ {n id}, l.modules.get? n = some id → ran.modules.get? n = some id)
    (hclosed : ModuleCode.Complete (l.code? base)) (hc : Loader.Coherent ls [] w)
    (hp : w.Past ip.setting l ran base S r L K) (name : String) :
    (loadInstance ⟨ip.engine, g⟩ ran name).Meets w
      (fun i v => ∃ S' q M N, Passes ip.setting l ran base .univ S r L K w v S' q M N ∧
        i.fields.Twin (Value.Held q) i.fields)
      (fun _ v => Passed ip.setting l ran base .univ S r L K w v) := by
  unfold loadInstance
  refine Act.meets_bind ((Loader.records_load hlib hl hran hmore hclosed hc hp name).mono ?_ fun _ _ h => h)
  rintro i v ⟨-, ⟨id, e, hid, he, hlinked⟩, S', q, M, N, hpass⟩
  refine Act.meets_get_bind ?_
  split
  · rename_i inst hinst
    have hheld := Loader.instance?_eq_some.mpr ⟨id, e, i, hid, he, hlinked, hinst⟩
    exact Act.meets_pure ⟨S', q, M, N, hpass, hpass.past.fields name inst hheld⟩
  · exact Act.meets_throw hpass.passed

theorem records_fetch {ls : List Loader} (hl : l ∈ ls) (hran : ran ∈ ls)
    (hmore : ∀ {n id}, l.modules.get? n = some id → ran.modules.get? n = some id)
    (hclosed : ModuleCode.Complete (l.code? base)) (hc : Loader.Coherent ls [] w)
    (hp : w.Past ip.setting l ran base S r L K) (artifact field : String) :
    (fetch ⟨ip.engine, g⟩ ran artifact field).Meets w
      (fun _ v => Passed ip.setting l ran base .univ S r L K w v)
      (fun _ v => Passed ip.setting l ran base .univ S r L K w v) := by
  unfold fetch
  refine Act.meets_bind ((records_loadInstance hlib hl hran hmore hclosed hc hp artifact).mono ?_
    fun _ _ h => h)
  rintro i v ⟨S', q, M, N, hpass, hfields⟩
  refine (Instance.records_read hlib hfields hpass.past field).mono ?_ ?_
  · rintro _ u ⟨_, _, _, _, hpass'⟩
    exact (hpass.trans hpass').passed
  · rintro _ u ⟨_, _, _, _, hpass'⟩
    exact (hpass.trans hpass').passed

variable {l₁ l₂ : Loader} {σ : Story} {p : WorldPairing}

theorem abreast_loadInstance (hl₁ : ∀ {n id}, l.modules.get? n = some id → l₁.modules.get? n = some id)
    (hl₂ : ∀ {n id}, l₂.modules.get? n = some id → σ.Knows id → l.modules.get? n = some id)
    (hl : l₁.Twin p l₂) (hb : w.Abreast ip.setting l σ p w') (name : String) :
    Act.Abreast ip.setting l σ p Instance.Twin (loadInstance ⟨ip.engine, g⟩ l₁ name) w
      (loadInstance ⟨ip.engine, g⟩ l₂ name) w' := by
  unfold loadInstance
  refine Act.abreast_bind (Loader.abreast_load hlib hl₁ hl₂ hl hb name) ?_
  intro q i i' w₁ w₁' _ hi hb₁
  refine Act.abreast_get_bind ?_
  obtain ⟨x, y, hx, hy, hxy⟩ := hb₁.instances hi
  simp only [hx, hy]
  exact Act.abreast_pure hb₁ hxy

theorem abreast_fetch (hl₁ : ∀ {n id}, l.modules.get? n = some id → l₁.modules.get? n = some id)
    (hl₂ : ∀ {n id}, l₂.modules.get? n = some id → σ.Knows id → l.modules.get? n = some id)
    (hl : l₁.Twin p l₂) (hb : w.Abreast ip.setting l σ p w') (artifact field : String) :
    Act.Abreast ip.setting l σ p (fun q => HostValue.Twin q.heap) (fetch ⟨ip.engine, g⟩ l₁ artifact field) w
      (fetch ⟨ip.engine, g⟩ l₂ artifact field) w' := by
  unfold fetch
  refine Act.abreast_bind (abreast_loadInstance hlib hl₁ hl₂ hl hb artifact) ?_
  intro q i i' w₁ w₁' _ hi hb₁
  exact Instance.abreast_read hlib hi hb₁ field

end

end Session

/-! ## Behind, with further modules -/

section
open World
variable {set : Setting} {l ran : Loader} {base v w : World} {S : Set ScopeId} {r : Pairing}
variable {L : List Told} {K : List Laid} {o : Apart} {p : WorldPairing}

theorem Loader.twin_home (hk : l.Keyed w) (hhome : ∀ {n id}, l.modules.get? n = some id → p.entries id id) :
    l.Twin p l :=
  List.forall₂_same.mpr fun _ hx => ⟨rfl, hhome (Table.get?_of_mem hk.nodup hx)⟩

/-- A world that was like an earlier one is behind, also after both have got the same further modules:
the first before what has been done since, the second after it. -/
theorem World.Past.abreast_enlarge (hp : w.Past set l ran base S r L K) (ht : v.Twin o p base)
    (hripens : base.heap.Ripens .univ w.heap) (hkeeps : base.Keeps [] w) (hv : v.heap.Idle)
    (hcalm : v.context = {}) (hcache : Interpreter.Truthful v.cache ∧ Interpreter.Truthful w.cache)
    (hhome : ∀ {n id}, l.modules.get? n = some id → p.entries id id) (hk : l.Keyed w) {u w' : World}
    (hu : l.Keyed u) (mods : List ModuleCode) {cache : Cache Parsed} (hread : Interpreter.Truthful cache)
    (hw' : w' = { w with cache })
    (hentries : ∀ (id : EntryId) e, u.entries.size ≤ id → (l.enlarge mods u).2.entries[id]? = some e →
      v.entries[id]? = some e) :
    ∃ σ q, (l.enlarge mods u).1.Twin q (l.enlarge mods w').1 ∧ v.Abreast set l σ q (l.enlarge mods w').2 ∧
      ∀ {n id}, (l.enlarge mods w').1.modules.get? n = some id → σ.Knows id → l.modules.get? n = some id := by
  subst hw'
  have hb := hp.abreast ht hripens hkeeps hv hcalm hcache hk hhome
  have hfree : ∀ a b, u.entries.size ≤ a → ¬ (p.only l).entries a b := by
    rintro a b hle ⟨-, -, n, hn⟩
    obtain ⟨e, he, -⟩ := hu.get? hn
    exact Nat.not_lt_of_le hle (Array.getElem?_eq_some_iff.mp he).1
  obtain ⟨q, -, hl, hb'⟩ := Loader.abreast_refresh mods (Loader.twin_home hk hb.home)
    (hb.withCache hb.truthful.1 hread) hentries hfree
  have hk' : l.Keyed { w with cache } := ⟨hk.nodup, hk.entry⟩
  refine ⟨_, q, hl, hb', fun {n id} hn hknown => ?_⟩
  refine (Loader.get?_enlarge_cases hk' hn).resolve_right fun hle => ?_
  obtain ⟨e, _, _, he, -⟩ := hb.known hknown
  exact Nat.not_lt_of_le hle (Array.getElem?_eq_some_iff.mp he).1

end

end LazySession
