import LazySession.Proofs.Behind.Runs

/-!
# What has been evaluated before

`Machine.Course`: the way by which an evaluation came to its value. The values of other thunks are
looked at on the way; of their evaluation it does not tell. `Recorded`: thunks that have been
evaluated, last ones first, each by a course that looks only at values that were there before.

`Machine.passes_run`: a run leaves such a record. Every address was made for one thunk at most.
-/

namespace LazySession

/-- A thunk that has been evaluated, and the addresses that were made for it alone. -/
structure Told where
  id : ThunkId
  region : Set Addr

/-- The thunk is one of those told of. -/
def Among (L : List Told) (id : ThunkId) : Prop := ∃ i ∈ L, i.id = id

namespace Heap

/-- The thunk has a value. -/
def Done (h : Heap) (id : ThunkId) : Prop := ∃ v, h.thunkValue? id = some v

/-- The scopes made from `h` to `h'`. -/
def newScopes (h h' : Heap) : Set ScopeId := fun id => .scope id ∈ h.made h'

variable {h h' h'' : Heap}

theorem made_left (hs : h'.SmallerThan h'') : h.made h' ⊆ h.made h'' :=
  fun _ hx => ⟨hs.has hx.1, hx.2⟩

theorem made_right (hs : h.SmallerThan h') : h'.made h'' ⊆ h.made h'' :=
  fun _ hx => ⟨hx.1, fun hh => hx.2 (hs.has hh)⟩

theorem disjoint_made : Disjoint (h.made h') (h'.made h'') :=
  Set.disjoint_left.mpr fun _ hx hx' => hx'.2 hx.1

end Heap

namespace Machine

/-- All that the machine refers to is there, and its scopes are in `U`. -/
def Steady (U : Set ScopeId) (c : Machine) : Prop := ∃ r : Pairing, r.Amid U .univ ∧ c.Like True r c

section
variable (set : Setting) (known : ThunkId → Prop) (S : Set ScopeId) (G : Heap)

/-- The machine came to a value, for which the addresses in a set were made. It took place in earlier
states of the heap `G`, and looked only at values of `known` thunks. The scopes that it was about are
in `S`. -/
inductive Course : Machine → Value → Set Addr → Prop
  | give (v : Value) (s : EvalState) : Course ⟨.give (.ok v), [], s⟩ v ∅
  | own {c d : Machine} {v : Value} {A : Set Addr} {U : Set ScopeId} (hU : U ⊆ S)
    (hc : c.Steady U) (hseek : c.seeks? = none) (hn : c.next set = .going d)
    (hnew : c.state.heap.newScopes d.state.heap ⊆ U) (hG : d.state.heap.Ripens U G)
    (hA : Disjoint (c.state.heap.made d.state.heap) A) (h : Course d v A) :
    Course c v (c.state.heap.made d.state.heap ∪ A)
  | look {c : Machine} {depth : Nat} {id : ThunkId} {u v : Value} {s : EvalState} {A : Set Addr}
    {U : Set ScopeId} (hU : U ⊆ S) (hc : c.Steady U) (hG : c.state.heap.Ripens U G)
    (hseek : c.seeks? = some (depth, id)) (hk : known id) (hu : G.thunkValue? id = some u)
    (hplace : s.place = c.state.place) (h : Course ⟨.give (.ok u), c.frames, s⟩ v A) : Course c v A

end

variable {set : Setting} {known known' : ThunkId → Prop} {S S' : Set ScopeId} {G G' : Heap}
variable {c d : Machine} {v : Value} {A : Set Addr}

theorem Course.mono (h : Course set known S G c v A) (hk : ∀ id, known id → known' id) (hS : S ⊆ S')
    (hG : G.Ripens S G') : Course set known' S' G' c v A := by
  induction h with
  | give v s => exact .give v s
  | own hU hc hseek hn hnew hr hA _ ih =>
    exact .own (hU.trans hS) hc hseek hn hnew (hr.trans (hG.mono hU)) hA ih
  | look hU hc hr hseek hid hu hplace _ ih =>
    exact .look (hU.trans hS) hc (hr.trans (hG.mono hU)) hseek (hk _ hid) (hG.done hu) hplace ih

theorem Course.ne_error (h : Course set known S G c v A) (e : RuntimeError) : c.control ≠ .give (.error e) := by
  induction h with
  | give v s => exact nofun
  | @own c d v A U hU hc hseek hn hnew hr hA _ ih =>
    intro he
    obtain ⟨r, -, hlike⟩ := hc
    obtain ⟨control, frames, s⟩ := c
    obtain rfl := he
    cases frames with
    | nil => cases hn
    | cons f frames =>
      cases hn
      have hf := hlike.plain.1 f List.mem_cons_self
      cases f with
      | thunk id t pos place => cases hf
      | _ => exact ih rfl
  | look hU hc hr hseek hid hu hplace _ ih =>
    intro he
    simp [seeks?, he] at hseek

end Machine

/-- Thunks that have been evaluated, last ones first. Those with `first` had a value before. -/
inductive Recorded (set : Setting) (first : ThunkId → Prop) (S : Set ScopeId) (G : Heap) :
    List Told → Prop
  | nil : Recorded set first S G []
  | cons {L : List Told} {i : Told} {t : Thunk} {e : Expr} {scope : ScopeId} {depth : Nat}
    {s : EvalState} {v : Value} (rest : Recorded set first S G L) (once : ¬ Among L i.id)
    (apart : ∀ j ∈ L, Disjoint j.region i.region) (new : ∀ id, first id → .thunk id ∉ i.region)
    (ht : G.thunks[i.id]? = some { t with state := .done v }) (hcode : t.code = some (e, scope))
    (hsource : s.place.source = t.source) (hv : t.Accepts v)
    (hc : Machine.Course set (fun id => first id ∨ Among L id) S G ⟨.eval depth e scope, [], s⟩ v
      i.region) : Recorded set first S G (i :: L)

theorem Recorded.mono {set : Setting} {first : ThunkId → Prop} {S S' : Set ScopeId} {G G' : Heap}
    {L : List Told} (h : Recorded set first S G L) (hS : S ⊆ S') (hG : G.Ripens S G') :
    Recorded set first S' G' L := by
  induction h with
  | nil => exact .nil
  | @cons L i t e scope depth s v _ once apart new ht hcode hsource hv hc ih =>
    refine .cons ih once apart new ?_ hcode hsource hv (hc.mono (fun _ h => h) hS hG)
    have hvalue : G.thunkValue? i.id = some v := Heap.thunkValue?_eq_some.mpr ⟨_, ht, rfl⟩
    obtain ⟨t', ht', hs'⟩ := Heap.thunkValue?_eq_some.mp (hG.done hvalue)
    obtain ⟨state, hstate⟩ := hG.thunk ht
    obtain rfl := Option.some.inj (ht'.symm.trans hstate)
    obtain rfl : state = .done v := hs'
    exact ht'

theorem Recorded.done {set : Setting} {first : ThunkId → Prop} {S : Set ScopeId} {G : Heap}
    {L : List Told} (h : Recorded set first S G L) {id : ThunkId} (hid : Among L id) : G.Done id := by
  obtain ⟨i, hi, rfl⟩ := hid
  induction h with
  | nil => cases hi
  | cons _ _ _ _ ht _ _ _ _ ih =>
    rcases List.mem_cons.mp hi with rfl | hi
    · exact ⟨_, Heap.thunkValue?_eq_some.mpr ⟨_, ht, rfl⟩⟩
    · exact ih hi

/-! ## States of the heap since the record was begun -/

namespace Heap

/-- The heap since `base`: `r` is what is there to be referred to, with scopes in `S`, and `L` tells of
the thunks that have been evaluated. -/
structure Past (h : Heap) (set : Setting) (base : Heap) (S : Set ScopeId) (r : Pairing) (L : List Told) :
    Prop where
  since : base.SmallerThan h
  diagonal : r.Diagonal
  steady : h.Behind r h
  settled : r.Amid S S
  bounded : ∀ id ∈ S, id < h.scopes.size
  record : Recorded set base.Done S h L
  covers : ∀ {id v}, h.thunkValue? id = some v → base.Done id ∨ Among L id
  regions : ∀ i ∈ L, i.region ⊆ base.made h

variable {set : Setting} {base h h' h'' : Heap} {S S' S'' : Set ScopeId} {r q q' : Pairing}
variable {L M N : List Told}

theorem mem_newScopes {id : ScopeId} :
    id ∈ h.newScopes h' ↔ id < h'.scopes.size ∧ ¬ id < h.scopes.size := Iff.rfl

/-- New things have been made, and no more. -/
theorem Past.own (hp : h.Past set base S r L) (ha : h.Adds h') (hg : h.Ripens .univ h')
    (hq : q.Diagonal) (hr : r.Extends q h h) (ht : h'.idle.Twin nothing q h'.idle) :
    h'.Past set base (S ∪ h.newScopes h') q L where
  since := hp.since.trans hg.smallerThan
  diagonal := hq
  steady := by
    refine ⟨ht, fun {a b v} hab hv => ?_⟩
    have hv' := ha.thunkValue?.mp hv
    have hlt := (Array.getElem?_eq_some_iff.mp (thunkValue?_eq_some.mp hv').choose_spec.1).1
    obtain ⟨v', hb, htwin⟩ := hp.steady.done ((hr.thunks hab).resolve_right fun hn => by omega) hv'
    exact ⟨v', hg.done hb, htwin.mono hr.within⟩
  settled {a b} hab := by
    have hlt := ht.scopes.lt hab
    rw [scopes_idle] at hlt
    rcases hr.scopes hab with hab' | ⟨ha', hb'⟩
    · exact ⟨.inl (hp.settled hab').1, .inl (hp.settled hab').2⟩
    · exact ⟨.inr ⟨hlt.1, Nat.not_lt_of_le ha'⟩, .inr ⟨hlt.2, Nat.not_lt_of_le hb'⟩⟩
  bounded id hid := by
    rcases hid with hid | hid
    · exact Nat.lt_of_lt_of_le (hp.bounded id hid) hg.idle.size
    · exact (mem_newScopes.mp hid).1
  record := hp.record.mono Set.subset_union_left (hg.mono (Set.subset_univ S))
  covers hv := hp.covers (ha.thunkValue?.mp hv)
  regions i hi := (hp.regions i hi).trans (made_left hg.smallerThan)

theorem Past.restate (hp : h.Past set base S r L) (hidle : h'.idle = h.idle)
    (hv : ∀ {id v}, h'.thunkValue? id = some v ↔ h.thunkValue? id = some v) :
    h'.Past set base S r L := by
  have hscopes : h'.idle.scopes = h.idle.scopes := by rw [hidle]
  rw [scopes_idle, scopes_idle] at hscopes
  have hripens : h.Ripens S h' := ⟨hidle ▸ .refl _ _, hv.mpr⟩
  refine ⟨hp.since.trans hripens.smallerThan, hp.diagonal,
    ⟨by rw [hidle]; exact hp.steady.idle, fun hab hu => ?_⟩, hp.settled, ?_,
    hp.record.mono Set.Subset.rfl hripens, fun hu => hp.covers (hv.mp hu), ?_⟩
  · obtain ⟨v', hb, htwin⟩ := hp.steady.done hab (hv.mp hu)
    exact ⟨v', hv.mpr hb, htwin⟩
  · rw [hscopes]
    exact hp.bounded
  · exact fun i hi => (hp.regions i hi).trans (made_left hripens.smallerThan)

theorem Past.setThunk (hp : h.Past set base S r L) {id : ThunkId} (hn : h.thunkValue? id = none)
    {state : ThunkState} (hs : ∀ v, state ≠ .done v) : (h.setThunk id state).Past set base S r L := by
  refine hp.restate (idle_setThunk h id state) fun {i v} => ?_
  by_cases hi : i = id
  · subst hi
    refine iff_of_false (fun hv => ?_) (by simp [hn])
    obtain ⟨t, ht, hd⟩ := thunkValue?_eq_some.mp hv
    simp only [Heap.setThunk, Array.getElem?_modify, if_true] at ht
    obtain ⟨t', -, rfl⟩ := Option.map_eq_some_iff.mp ht
    exact hs v hd
  · rw [thunkValue?_setThunk_ne hi]

/-- One more thunk has been evaluated. -/
theorem Past.tell (hp : h.Past set base S r L) {id : ThunkId} {t : Thunk} {state : ThunkState}
    (ht : h.thunks[id]? = some { t with state }) (hn : h.thunkValue? id = none) {e : Expr}
    {scope : ScopeId} (hcode : t.code = some (e, scope)) {s : EvalState}
    (hsource : s.place.source = t.source) {v : Value} (hv : t.Accepts v) (hvr : v.Twin r v) {depth : Nat}
    {A : Set Addr} (hA : A ⊆ base.made h) (hapart : ∀ i ∈ L, Disjoint i.region A)
    (hc : Machine.Course set (fun i => base.Done i ∨ Among L i) S h ⟨.eval depth e scope, [], s⟩ v A) :
    (h.setThunk id (.done v)).Past set base S r (⟨id, A⟩ :: L) := by
  have hripens : h.Ripens S (h.setThunk id (.done v)) := ripens_setThunk S hn _
  have hself := Machine.getElem?_setThunk_self ht (.done v)
  refine ⟨hp.since.trans hripens.smallerThan, hp.diagonal,
    ⟨by rw [idle_setThunk]; exact hp.steady.idle, fun {a b u} hab hu => ?_⟩, hp.settled,
    hp.bounded, ?_, fun {i u} hu => ?_, fun i hi => ?_⟩
  · obtain rfl := hp.diagonal.thunks hab
    by_cases ha : a = id
    · subst ha
      obtain rfl : v = u := by
        have hu' := hu
        rw [thunkValue?_setThunk_self ht] at hu'
        cases hu'
        rfl
      exact ⟨v, hu, hvr⟩
    · rw [thunkValue?_setThunk_ne ha] at hu ⊢
      exact hp.steady.done hab hu
  · refine .cons (hp.record.mono Set.Subset.rfl hripens) (fun hid => ?_) hapart (fun i hi hmem => ?_)
      hself hcode hsource hv (hc.mono (fun _ h => h) Set.Subset.rfl hripens)
    · obtain ⟨u, hu⟩ := hp.record.done hid
      rw [hn] at hu
      cases hu
    · obtain ⟨u, hu⟩ := hi
      obtain ⟨t', ht', -⟩ := thunkValue?_eq_some.mp hu
      exact (hA hmem).2 (Array.getElem?_eq_some_iff.mp ht').1
  · by_cases hi : i = id
    · subst hi
      exact .inr ⟨_, List.mem_cons_self, rfl⟩
    · rw [thunkValue?_setThunk_ne hi] at hu
      exact (hp.covers hu).imp_right fun ⟨j, hj, he⟩ => ⟨j, List.mem_cons_of_mem _ hj, he⟩
  · refine Set.Subset.trans ?_ (made_left hripens.smallerThan)
    rcases List.mem_cons.mp hi with rfl | hi
    · exact hA
    · exact hp.regions i hi

/-- From `h` to `h'`, the thunks in `M` have been evaluated. -/
structure Passes (set : Setting) (base : Heap) (S : Set ScopeId) (r : Pairing) (L : List Told)
    (h h' : Heap) (S' : Set ScopeId) (q : Pairing) (M : List Told) : Prop where
  past : h'.Past set base S' q (M ++ L)
  ripens : h.Ripens .univ h'
  within : r.Within q
  settled : S ⊆ S'
  new : S' ⊆ S ∪ h.newScopes h'
  regions : ∀ i ∈ M, i.region ⊆ h.made h'

theorem Passes.refl (hp : h.Past set base S r L) : Passes set base S r L h h S r [] :=
  ⟨hp, .refl _ _, .refl _, Set.Subset.rfl, Set.subset_union_left, List.forall_mem_nil _⟩

theorem newScopes_left (hs : h'.SmallerThan h'') : h.newScopes h' ⊆ h.newScopes h'' :=
  fun _ hx => made_left hs hx

theorem newScopes_right (hs : h.SmallerThan h') : h'.newScopes h'' ⊆ h.newScopes h'' :=
  fun _ hx => made_right hs hx

theorem Passes.trans (hh : Passes set base S r L h h' S' q M)
    (hh' : Passes set base S' q (M ++ L) h' h'' S'' q' N) :
    Passes set base S r L h h'' S'' q' (N ++ M) where
  past := by
    rw [List.append_assoc]
    exact hh'.past
  ripens := hh.ripens.trans hh'.ripens
  within := hh.within.trans hh'.within
  settled := hh.settled.trans hh'.settled
  new := by
    refine hh'.new.trans (Set.union_subset (hh.new.trans ?_) ?_)
    · exact Set.union_subset_union_right S (newScopes_left hh'.ripens.smallerThan)
    · exact (newScopes_right hh.ripens.smallerThan).trans Set.subset_union_right
  regions i hi := by
    rcases List.mem_append.mp hi with hi | hi
    · exact (hh'.regions i hi).trans (made_right hh.ripens.smallerThan)
    · exact (hh.regions i hi).trans (made_left hh'.ripens.smallerThan)

theorem Passes.own (hp : h.Past set base S r L) (ha : h.Adds h') (hg : h.Ripens .univ h')
    (hq : q.Diagonal) (hr : r.Extends q h h) (ht : h'.idle.Twin nothing q h'.idle) :
    Passes set base S r L h h' (S ∪ h.newScopes h') q [] :=
  ⟨hp.own ha hg hq hr ht, hg, hr.within, Set.subset_union_left, Set.Subset.rfl, List.forall_mem_nil _⟩

theorem Passes.setThunk (hp : h.Past set base S r L) {id : ThunkId} (hn : h.thunkValue? id = none)
    {state : ThunkState} (hs : ∀ v, state ≠ .done v) :
    Passes set base S r L h (h.setThunk id state) S r [] :=
  ⟨hp.setThunk hn hs, ripens_setThunk _ hn _, .refl r, Set.Subset.rfl, Set.subset_union_left,
    List.forall_mem_nil _⟩

end Heap

/-! ## Runs -/

theorem Pairing.Extends.diag {r q : Pairing} {h : Heap} (hr : r.Diagonal) (hq : r.Extends q h h) :
    r.Extends q.diag h h where
  within := hr.within_diag hq.within
  thunks := by
    rintro a _ ⟨rfl, c, hc⟩
    exact (hq.thunks hc).imp (fun hrc => by rwa [← hr.thunks hrc] at hrc) fun hn => ⟨hn.1, hn.1⟩
  cells := by
    rintro a _ ⟨rfl, c, hc⟩
    exact (hq.cells hc).imp (fun hrc => by rwa [← hr.cells hrc] at hrc) fun hn => ⟨hn.1, hn.1⟩
  scopes := by
    rintro a _ ⟨rfl, c, hc⟩
    exact (hq.scopes hc).imp (fun hrc => by rwa [← hr.scopes hrc] at hrc) fun hn => ⟨hn.1, hn.1⟩

namespace Machine

variable {set : Setting} {base : Heap} {S : Set ScopeId} {r : Pairing} {L : List Told} {c d : Machine}

theorem Steady.mono {U V : Set ScopeId} (h : c.Steady U) (hUV : U ⊆ V) : c.Steady V := by
  obtain ⟨r, hr, hc⟩ := h
  exact ⟨r, fun hab => ⟨hUV (hr hab).1, trivial⟩, hc⟩

theorem Like.steady (hc : c.Like True r c) (hr : r.Amid S S) : c.Steady S :=
  ⟨r, fun hab => ⟨(hr hab).1, trivial⟩, hc⟩

/-- The run has left a record of what it has evaluated, and the way to its value if it has one. -/
def Passes (set : Setting) (base : Heap) (S : Set ScopeId) (r : Pairing) (L : List Told) (c : Machine)
    (x : Except RuntimeError Value × EvalState) : Prop :=
  ∃ S' q M, Heap.Passes set base S r L c.state.heap x.2.heap S' q M ∧ ResultLike True q x.1 x.1 ∧
    ∀ v, x.1 = .ok v → ∃ A ⊆ c.state.heap.made x.2.heap, (∀ i ∈ M, Disjoint i.region A) ∧
      Course set (fun i => base.Done i ∨ Among (M ++ L) i) S' x.2.heap c v A

theorem passes_finish (hp : c.state.heap.Past set base S r L) {x : Except RuntimeError Value}
    (hc : c = ⟨.give x, [], c.state⟩) (hx : ResultLike True r x x) : Passes set base S r L c (x, c.state) := by
  refine ⟨S, r, [], .refl hp, hx, fun v hv => ⟨∅, Set.empty_subset _, List.forall_mem_nil _, ?_⟩⟩
  obtain rfl : x = .ok v := hv
  rw [hc]
  exact .give v c.state

theorem passes_own (hlib : set.host.Natural) (hc : c.Like True r c)
    (hp : c.state.heap.Past set base S r L) (hseek : c.seeks? = none) (hn : c.next set = .going d)
    {x : Except RuntimeError Value × EvalState}
    (ih : ∀ {S r L}, d.Like True r d → d.state.heap.Past set base S r L → Passes set base S r L d x) :
    Passes set base S r L c x := by
  obtain ⟨hx, -⟩ | ⟨d', hn', q, hq, hd⟩ := like_next hlib hc hseek hn (.inl trivial)
  · exact absurd trivial hx
  obtain rfl : d = d' := by
    rw [hn] at hn'
    cases hn'
    rfl
  have hadds := hc.plain.1.adds hd.plain.1 hn
  have hripens := hc.plain.1.ripens hd.plain.1 hn .univ
  have hown := Heap.Passes.own hp hadds hripens q.diagonal_diag (hq.diag hp.diagonal) hd.diag.state.heap
  obtain ⟨S', q', M, hpass, hresult, hcourse⟩ := ih hd.diag hown.past
  have hsize := hpass.ripens.smallerThan
  refine ⟨S', q', M ++ [], hown.trans hpass, hresult, fun v hv => ?_⟩
  rw [List.append_nil]
  obtain ⟨A, hA, hapart, hway⟩ := hcourse v hv
  have hdisjoint : Disjoint (c.state.heap.made d.state.heap) A :=
    Heap.disjoint_made.mono_right hA
  refine ⟨_, Set.union_subset (Heap.made_left hsize)
    (hA.trans (Heap.made_right hripens.smallerThan)), fun i hi => ?_, ?_⟩
  · exact Disjoint.union_right (Heap.disjoint_made.symm.mono_left (hpass.regions i hi)) (hapart i hi)
  · exact .own hpass.settled ((hc.steady hp.settled).mono Set.subset_union_left) hseek hn
      Set.subset_union_right (hpass.ripens.mono (Set.subset_univ _)) hdisjoint hway

theorem like_seeks_self (hc : c.Like True r c) {depth : Nat} {id : ThunkId}
    (hseek : c.seeks? = some (depth, id)) : ∃ b, r.thunks id b := by
  obtain ⟨hx, -⟩ | ⟨d', a, ha, hab, -⟩ := like_seeks hc hseek
  · exact absurd trivial hx
  · rw [hseek] at ha
    cases ha
    exact ⟨_, hab⟩

theorem like_tick {exact : Prop} {p : Pairing} {s s' : EvalState} (hs : s.Like exact p s')
    {control control' : Control} (hc : control.Like exact p control') {frames frames' : List Frame}
    (hf : List.Forall₂ (Frame.Like exact p) frames frames') :
    Like exact p ⟨control, frames, s.tick.2⟩ ⟨control', frames', s'.tick.2⟩ :=
  ⟨hc, hf, hs.tick.2.2⟩

theorem passes_now (hc : c.Like True r c) (hp : c.state.heap.Past set base S r L) {depth : Nat}
    {id : ThunkId} (hseek : c.seeks? = some (depth, id)) {y : Except RuntimeError Value}
    (hdemand : c.state.tick.2.demand (.thunk id) = .now y)
    {x : Except RuntimeError Value × EvalState} (hx : ∀ e, y = .error e → ∃ e, x.1 = .error e)
    (ih : ∀ {S r L}, Like True r ⟨.give y, c.frames, c.state.tick.2⟩ ⟨.give y, c.frames, c.state.tick.2⟩ →
      c.state.tick.2.heap.Past set base S r L → Passes set base S r L ⟨.give y, c.frames, c.state.tick.2⟩ x) :
    Passes set base S r L c x := by
  obtain ⟨b, hab⟩ := like_seeks_self hc hseek
  have hheap := heap_tick c.state
  have hplace : c.state.tick.2.place = c.state.place := by
    obtain ⟨patience, htick, -⟩ := tick_eq c.state
    rw [htick]
  obtain ⟨t, ht⟩ : ∃ t, c.state.tick.2.heap.thunks[id]? = some t := by
    have hlt := (hp.steady.idle.thunks.lt hab).1
    rw [Heap.size_thunks_idle] at hlt
    exact ⟨_, by rw [hheap]; exact Array.getElem?_eq_getElem hlt⟩
  rcases EvalState.demand_now ht hdemand with ⟨u, hu, rfl⟩ | ⟨e, rfl⟩
  · rw [hheap] at hu
    obtain ⟨u', hu', htwin⟩ := hp.steady.done hab hu
    obtain rfl := hp.diagonal.thunks hab
    obtain rfl := Option.some.inj (hu.symm.trans hu')
    obtain ⟨S', q, M, hpass, hresult, hcourse⟩ :=
      ih (like_tick hc.state (.give (.ok htwin)) hc.frames) (by rw [hheap]; exact hp)
    have hpass' : Heap.Passes set base S r L c.state.heap x.2.heap S' q M := hheap ▸ hpass
    refine ⟨S', q, M, hpass', hresult, fun v hv => ?_⟩
    obtain ⟨A, hA, hapart, hway⟩ := hcourse v hv
    refine ⟨A, hheap ▸ hA, hapart, .look hpass'.settled (hc.steady hp.settled)
      (hpass'.ripens.mono (Set.subset_univ _)) hseek ?_ (hpass'.ripens.done hu) hplace hway⟩
    exact (hp.covers hu).imp_right fun ⟨i, hi, he⟩ => ⟨i, List.mem_append_right _ hi, he⟩
  · obtain ⟨S', q, M, hpass, hresult, -⟩ :=
      ih (like_tick hc.state (.give (.error fun _ => rfl)) hc.frames) (by rw [hheap]; exact hp)
    obtain ⟨e', he'⟩ := hx e rfl
    refine ⟨S', q, M, hheap ▸ hpass, hresult, fun v hv => ?_⟩
    rw [he'] at hv
    cases hv

/-- A thunk has been entered and left again. If this gave a value, the thunk has it now. -/
theorem passes_thunk {s : EvalState} (hs : s.Like True r s) (hp : s.heap.Past set base S r L)
    {depth : Nat} {id : ThunkId} (hab : r.thunks id id) {t : Thunk} {e : Expr} {scope : ScopeId}
    (hdemand : s.demand (.thunk id) = .code id t e scope) {y z : Except RuntimeError Value × EvalState}
    (hy : Rests ⟨.eval depth e scope, [], s.startThunk id t⟩ y.2)
    (hz : z = y.2.finishThunk id t e.pos s.place y.1)
    (ih : Like True r ⟨.eval depth e scope, [], s.startThunk id t⟩
        ⟨.eval depth e scope, [], s.startThunk id t⟩ → (s.startThunk id t).heap.Past set base S r L →
      Passes set base S r L ⟨.eval depth e scope, [], s.startThunk id t⟩ y) :
    ∃ S' q M, Heap.Passes set base S r L s.heap z.2.heap S' q M ∧ ResultLike True q z.1 z.1 ∧
      z.2.place = s.place ∧ z.2.patience = .endless ∧
      ∀ v, z.1 = .ok v → z.2.heap.thunkValue? id = some v ∧ Among M id := by
  obtain ⟨ht, hpending⟩ := EvalState.demand_pending hdemand
  obtain ⟨-, -, hcode⟩ := EvalState.demand_code hdemand
  have hundone : s.heap.thunkValue? id = none := Heap.thunkValue?_of_state ht (by simp [hpending])
  obtain ⟨scope', hcode', hinner⟩ := like_startThunk hs (d := depth) (fun _ => rfl) hab ht ht hcode
  obtain rfl : scope' = scope := by
    rw [hcode] at hcode'
    cases hcode'
    rfl
  have henter := Heap.Passes.setThunk hp hundone (nofun : ∀ v, ThunkState.forcing ≠ .done v)
  obtain ⟨S₁, q₁, M₁, hpass₁, hresult₁, hcourse₁⟩ := ih hinner henter.past
  have hforced := hy.forced ht
  have hstart : s.heap.SmallerThan (s.startThunk id t).heap := henter.ripens.smallerThan
  rcases y.2.finishThunk_cases id t e.pos s.place y.1 with ⟨v, hv, hacc, hfinish⟩ | ⟨e', hfinish, -⟩
  -- the thunk has its value now, and the way to it is recorded
  · rw [hz, hfinish]
    obtain ⟨hripens, -⟩ := hy.thunk ht hpending (nofun : ThunkState.done v ≠ .forcing)
    obtain ⟨A, hA, hapart, hway⟩ := hcourse₁ v hv
    rw [hv] at hresult₁
    cases hresult₁ with
    | ok hvr =>
      obtain ⟨state, hthunk⟩ := hpass₁.ripens.thunk (Machine.getElem?_setThunk_self ht .forcing)
      have hsize₂ : y.2.heap.SmallerThan (y.2.heap.setThunk id (.done v)) :=
        (Heap.ripens_setThunk S hforced.thunkValue? _).smallerThan
      have hmade : (s.startThunk id t).heap.made y.2.heap ⊆
          s.heap.made (y.2.heap.setThunk id (.done v)) :=
        (Heap.made_right hstart).trans (Heap.made_left hsize₂)
      refine ⟨S₁, q₁, ⟨id, A⟩ :: M₁, ⟨?_, hripens, hpass₁.within, hpass₁.settled, ?_, fun i hi => ?_⟩,
        .ok hvr, rfl, hy.endless, fun u hu => ?_⟩
      · refine hpass₁.past.tell (t := t) hthunk hforced.thunkValue? hcode rfl hacc hvr ?_ ?_ hway
        · exact hA.trans (Heap.made_right henter.past.since)
        · intro i hi
          rcases List.mem_append.mp hi with hi | hi
          · exact hapart i hi
          · exact (Heap.disjoint_made.mono_left (henter.past.regions i hi)).mono_right hA
      · exact hpass₁.new.trans (Set.union_subset_union_right S fun _ hid => hmade hid)
      · rcases List.mem_cons.mp hi with rfl | hi
        · exact hA.trans hmade
        · exact (hpass₁.regions i hi).trans hmade
      · obtain rfl : v = u := by cases hu; rfl
        exact ⟨(Heap.thunkValue?_setThunk_self hthunk).mpr rfl, _, List.mem_cons_self, rfl⟩
  · rw [hz, hfinish]
    have hleave := Heap.Passes.setThunk hpass₁.past hforced.thunkValue?
      (nofun : ∀ v, ThunkState.pending ≠ .done v)
    exact ⟨_, _, _, henter.trans (hpass₁.trans hleave), .error fun _ => rfl, rfl, hy.endless, nofun⟩

/-- What waits for the thunk goes on. -/
theorem passes_code (hc : c.Like True r c) (hp : c.state.heap.Past set base S r L) {depth : Nat}
    {id : ThunkId} (hseek : c.seeks? = some (depth, id)) {t : Thunk} {e : Expr} {scope : ScopeId}
    (hdemand : c.state.tick.2.demand (.thunk id) = .code id t e scope)
    {x y z : Except RuntimeError Value × EvalState}
    (hy : Rests ⟨.eval depth e scope, [], c.state.tick.2.startThunk id t⟩ y.2)
    (hz : z = y.2.finishThunk id t e.pos c.state.tick.2.place y.1)
    (hx : ∀ e, z.1 = .error e → ∃ e, x.1 = .error e)
    (ihy : ∀ {S r L}, Like True r ⟨.eval depth e scope, [], c.state.tick.2.startThunk id t⟩
        ⟨.eval depth e scope, [], c.state.tick.2.startThunk id t⟩ →
      (c.state.tick.2.startThunk id t).heap.Past set base S r L →
      Passes set base S r L ⟨.eval depth e scope, [], c.state.tick.2.startThunk id t⟩ y)
    (ihz : ∀ {S r L}, Like True r ⟨.give z.1, c.frames, z.2⟩ ⟨.give z.1, c.frames, z.2⟩ →
      z.2.heap.Past set base S r L → Passes set base S r L ⟨.give z.1, c.frames, z.2⟩ x) :
    Passes set base S r L c x := by
  obtain ⟨b, hab⟩ := like_seeks_self hc hseek
  obtain rfl := hp.diagonal.thunks hab
  have hplace : c.state.tick.2.place = c.state.place := by
    obtain ⟨patience, htick, -⟩ := tick_eq c.state
    rw [htick]
  obtain ⟨S₂, q₂, M₂, hpass₂, hresult₂, hplace₂, hendless₂, hvalue⟩ :=
    passes_thunk hc.state.tick.2.2 (by rw [heap_tick]; exact hp) hab hdemand hy hz ihy
  rw [heap_tick] at hpass₂
  have hlike : Like True q₂ ⟨.give z.1, c.frames, z.2⟩ ⟨.give z.1, c.frames, z.2⟩ :=
    ⟨.give hresult₂, framesLike_mono hc.frames hpass₂.within, hpass₂.past.steady.idle, .refl _,
      hendless₂, hendless₂⟩
  obtain ⟨S₃, q₃, M₃, hpass₃, hresult₃, hcourse₃⟩ := ihz hlike hpass₂.past
  refine ⟨S₃, q₃, M₃ ++ M₂, hpass₂.trans hpass₃, hresult₃, fun v hv => ?_⟩
  obtain ⟨A, hA, hapart, hway⟩ := hcourse₃ v hv
  cases hz₁ : z.1 with
  | error e =>
    obtain ⟨e', he'⟩ := hx e hz₁
    rw [he'] at hv
    cases hv
  | ok u =>
    obtain ⟨hu, i, hi, he⟩ := hvalue u hz₁
    rw [hz₁] at hway
    refine ⟨A, hA.trans (Heap.made_right hpass₂.ripens.smallerThan), fun j hj => ?_, ?_⟩
    · rcases List.mem_append.mp hj with hj | hj
      · exact hapart j hj
      · exact (Heap.disjoint_made.mono_left (hpass₂.regions j hj)).mono_right hA
    · refine .look (hpass₂.settled.trans hpass₃.settled) (hc.steady hp.settled)
        ((hpass₂.ripens.trans hpass₃.ripens).mono (Set.subset_univ _)) hseek
        (.inr ⟨i, by simp [hi], he⟩) (hpass₃.ripens.done hu) (hplace₂.trans hplace) ?_
      rwa [List.append_assoc]

theorem passes_run (hlib : set.host.Natural) (c : Machine) (he : c.state.patience = .endless) :
    ∀ {S : Set ScopeId} {r : Pairing} {L : List Told}, c.Like True r c →
      c.state.heap.Past set base S r L → Passes set base S r L c (run set c) := by
  refine run_induct set (P := fun c => ∀ {S : Set ScopeId} {r : Pairing} {L : List Told},
    c.Like True r c → c.state.heap.Past set base S r L → Passes set base S r L c (run set c))
    ?_ ?_ ?_ ?_ c he
  · intro x s S r L hc hp
    rw [run_of_finished (next_finishes x s)]
    refine passes_finish hp rfl ?_
    cases hc.control with | give hx => exact hx
  · intro c d _ hseek hn hrun ih S r L hc hp
    rw [hrun]
    exact passes_own hlib hc hp hseek hn ih
  · intro c depth id y _ hseek hdemand hrun ih S r L hc hp
    rw [hrun]
    exact passes_now hc hp hseek hdemand (fun e hy => ⟨e, by rw [hy]; exact run_error _ _ _⟩) ih
  · rintro c depth id t e scope y z _ hseek hdemand rfl rfl hrun ihy ihz S r L hc hp
    have hs := hc.state.tick.2.2
    rw [hrun]
    exact passes_code hc hp hseek hdemand (rests_run set _ hs.endless.1 (List.forall_mem_nil _)) rfl
      (fun e hz => ⟨e, by rw [hz]; exact run_error _ _ _⟩) ihy ihz

/-- Demanding a value leaves a record, too. A thunk that was demanded with success has a value. -/
theorem passes_demand (hlib : set.host.Natural) {s : EvalState} (hs : s.Like True r s)
    (hp : s.heap.Past set base S r L) {v : Value} (hv : v.Held r v) (depth : Nat) :
    ∃ S' q M, Heap.Passes set base S r L s.heap (run set (demand depth v [] s)).2.heap S' q M ∧
      ResultLike True q (run set (demand depth v [] s)).1 (run set (demand depth v [] s)).1 ∧
      ∀ id u, v = .thunk id → (run set (demand depth v [] s)).1 = .ok u →
        (run set (demand depth v [] s)).2.heap.Done id := by
  cases hv with
  | value hv =>
    have hnow : s.demand v = .now (.ok v) := by
      cases v with
      | thunk id => exact absurd rfl (hv.not_thunk.1 id)
      | _ => rfl
    simp only [demand, hnow]
    rw [run_of_finished (next_finishes _ _)]
    exact ⟨S, r, [], .refl hp, .ok hv, fun id _ he => absurd he (hv.not_thunk.1 id)⟩
  | @thunk id _ hab =>
    cases hd : s.demand (.thunk id) with
    | now x =>
      obtain ⟨t, ht⟩ : ∃ t, s.heap.thunks[id]? = some t := by
        have hlt := (hp.steady.idle.thunks.lt hab).1
        rw [Heap.size_thunks_idle] at hlt
        exact ⟨_, Array.getElem?_eq_getElem hlt⟩
      simp only [demand, hd]
      rw [run_of_finished (next_finishes _ _)]
      rcases EvalState.demand_now ht hd with ⟨u, hu, rfl⟩ | ⟨e, rfl⟩
      · obtain ⟨u', hu', htwin⟩ := hp.steady.done hab hu
        obtain rfl := Option.some.inj (hu.symm.trans hu')
        refine ⟨S, r, [], .refl hp, .ok htwin, ?_⟩
        rintro _ _ ⟨⟩ _
        exact ⟨u, hu⟩
      · refine ⟨S, r, [], .refl hp, .error fun _ => rfl, ?_⟩
        rintro _ _ _ ⟨⟩
    | code i t e scope =>
      obtain ⟨⟨⟩, -⟩ := EvalState.demand_code hd
      rw [run_demand_code hd]
      obtain ⟨S', q, M, hpass, hresult, -, -, hvalue⟩ := passes_thunk hs hp hab hd
        (rests_run set _ hs.endless.1 (List.forall_mem_nil _)) rfl fun hc hp' =>
          passes_run hlib _ hs.endless.1 hc hp'
      refine ⟨S', q, M, hpass, hresult, ?_⟩
      rintro _ u ⟨⟩ hu
      exact ⟨u, (hvalue u hu).1⟩

end Machine

end LazySession
