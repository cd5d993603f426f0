import LazySession.Proofs.Behind.Record

/-!
# Evaluating again what has been evaluated

In a heap that is behind, a thunk is demanded that has a value in the other heap. The way by which the
other heap came to that value is gone again, in recorded order, and ends in a twin of the value unless
it is too deep: `Recorded.catches`.
-/

namespace LazySession

/-- The addresses made for thunks that are told of. -/
def regions (L : List Told) : Set Addr := {x | ∃ i ∈ L, x ∈ i.region}

namespace Heap

/-- What is known of the thunks with a value in the other heap: those with `first` have one here, too,
if they have a partner. For the others, there is a value here or nothing that was made for them has a
partner. None of them is being evaluated. -/
structure Informed (first : ThunkId → Prop) (L : List Told) (p : Pairing) (h : Heap) : Prop where
  first : ∀ {a b}, p.thunks a b → first b → h.Done a
  told : ∀ i ∈ L, (∃ a, p.thunks a i.id ∧ h.Done a) ∨ Disjoint i.region p.seen
  forcing : ∀ a, h.Forcing a → ∃ b, p.thunks a b ∧ ¬ Among L b

variable {first : ThunkId → Prop} {L : List Told} {p q : Pairing} {h h' g : Heap} {S : Set ScopeId}

theorem Ripens.thunkDone (hr : h.Ripens S h') {id : ThunkId} (hd : h.Done id) : h'.Done id :=
  hd.imp fun _ hv => hr.done hv

/-- What has been paired since was not made for them. -/
theorem Informed.mono (hi : h.Informed first L p) (hr : h.Ripens S h')
    (hf : ∀ id, h'.Forcing id ↔ h.Forcing id) {X : Set Addr} (hg : p.Gains q g X)
    (hfirst : ∀ id, first id → .thunk id ∉ X) (hL : ∀ i ∈ L, Disjoint i.region X)
    (hu : OneToOne q.thunks) : h'.Informed first L q where
  first {a b} hab hb := by
    obtain ⟨a', ha'⟩ | hx := hg.seen (show .thunk b ∈ q.seen from ⟨a, hab⟩)
    · obtain rfl := (hu (hg.within.thunks ha') hab).mpr rfl
      exact hr.thunkDone (hi.first ha' hb)
    · exact absurd hx (hfirst b hb)
  told i hm := by
    rcases hi.told i hm with ⟨a, hab, hd⟩ | hd
    · exact .inl ⟨a, hg.within.thunks hab, hr.thunkDone hd⟩
    · exact .inr (Disjoint.mono_right hg.seen (Disjoint.union_right hd (hL i hm)))
  forcing a ha := by
    obtain ⟨b, hab, hb⟩ := hi.forcing a ((hf a).mp ha)
    exact ⟨b, hg.within.thunks hab, hb⟩

variable {a b : ThunkId} {i : Told}

theorem Informed.tail (hi : h.Informed first (i :: L) p) : h.Informed first L p where
  first := hi.first
  told j hj := hi.told j (List.mem_cons_of_mem _ hj)
  forcing a ha := by
    obtain ⟨b, hab, hb⟩ := hi.forcing a ha
    exact ⟨b, hab, fun ⟨j, hj, he⟩ => hb ⟨j, List.mem_cons_of_mem _ hj, he⟩⟩

theorem Informed.enter (hi : h.Informed first (i :: L) p) (hab : p.thunks a i.id) (hn : h.thunkValue? a = none)
    (hL : ¬ Among L i.id) : (h.setThunk a .forcing).Informed first L p where
  first hab' hb := (ripens_setThunk .univ hn .forcing).thunkDone (hi.first hab' hb)
  told j hj := (hi.tail.told j hj).imp_left fun ⟨c, hc, hd⟩ =>
    ⟨c, hc, (ripens_setThunk .univ hn .forcing).thunkDone hd⟩
  forcing c hc := by
    by_cases hca : c = a
    · exact ⟨i.id, hca ▸ hab, hL⟩
    · exact hi.tail.forcing c ((forcing_setThunk_ne hca).mp hc)

theorem Behind.enter (hb : h.Behind p g) {state : ThunkState} (hn : h.thunkValue? a = none)
    (hs : ∀ v, state ≠ .done v) : (h.setThunk a state).Behind p g where
  idle := by
    rw [idle_setThunk]
    exact hb.idle
  done {c d v} hcd hv := by
    by_cases hca : c = a
    · subst hca
      obtain ⟨t, ht, hd⟩ := thunkValue?_eq_some.mp hv
      simp only [Heap.setThunk, Array.getElem?_modify, if_true] at ht
      obtain ⟨t', -, rfl⟩ := Option.map_eq_some_iff.mp ht
      exact absurd hd (hs v)
    · rw [thunkValue?_setThunk_ne hca] at hv
      exact hb.done hcd hv

theorem Behind.leave (hb : h.Behind p g) (hab : p.thunks a b) {u v : Value} (hu : u.Twin p v)
    (hv : g.thunkValue? b = some v) : (h.setThunk a (.done u)).Behind p g where
  idle := by
    rw [idle_setThunk]
    exact hb.idle
  done {c d w} hcd hw := by
    by_cases hca : c = a
    · subst hca
      obtain rfl := (hb.idle.thunks.unique hab hcd).mp rfl
      obtain ⟨t, ht, hd⟩ := thunkValue?_eq_some.mp hw
      simp only [Heap.setThunk, Array.getElem?_modify, if_true] at ht
      obtain ⟨t', -, rfl⟩ := Option.map_eq_some_iff.mp ht
      cases hd
      exact ⟨v, hv, hu⟩
    · rw [thunkValue?_setThunk_ne hca] at hw
      exact hb.done hcd hw

end Heap

namespace Machine

/-- The first machine does what the second once did. The heap `G` is a later state of the second. -/
structure Trails (p : Pairing) (G : Heap) (c c' : Machine) : Prop where
  control : c.control.Like False p c'.control
  frames : List.Forall₂ (Frame.Like False p) c.frames c'.frames
  source : c'.state.place.source = c.state.place.source
  endless : c.state.patience = .endless
  heap : c.state.heap.Behind p G

/-- A run has ended for want of depth. -/
def Overflows (set : Setting) (x : Except RuntimeError Value × EvalState) : Prop :=
  ∃ e, x.1 = .error e ∧ e.fault = .overflow set.limit

/-- A run has come to a value which is known, and what it has made is paired with addresses in `X`. -/
structure Caught (first : ThunkId → Prop) (L : List Told) (p : Pairing) (G : Heap) (X : Set Addr)
    (v : Value) (s : EvalState) (x : Except RuntimeError Value × EvalState) (q : Pairing) (u : Value) :
    Prop where
  value : x.1 = .ok u
  twin : u.Twin q v
  gains : p.Gains q s.heap X
  heap : x.2.heap.Behind q G
  informed : x.2.heap.Informed first L q
  ripens : s.heap.Ripens .univ x.2.heap
  forcing : ∀ id, x.2.heap.Forcing id ↔ s.heap.Forcing id
  place : x.2.place = s.place
  endless : x.2.patience = .endless

variable {set : Setting} {first : ThunkId → Prop} {L : List Told} {p q r : Pairing} {G : Heap}
variable {S U : Set ScopeId} {c c' d : Machine} {v : Value} {A : Set Addr}

theorem Trails.like (h : c.Trails p G c') (hr : r.Amid U .univ) (hc : c'.Like True r c')
    (hG : c'.state.heap.Ripens U G) : c.Like False (p.upto r) c' where
  control := h.control.upto hc.control
  frames := forall₂_upto (R := Frame.Like False p) (S := Frame.Like True r)
    (fun _ _ _ hf hg => hf.upto hg) h.frames hc.frames
  state := ⟨h.heap.idle.upto hc.state.heap hr hG.idle, ⟨h.source, False.elim⟩, h.endless,
    hc.state.endless.1⟩

theorem overflows_eval (set : Setting) (e : Expr) (scope : ScopeId) (frames : List Frame) (s : EvalState) :
    Overflows set (run set ⟨.eval 0 e scope, frames, s⟩) := by
  have hn : next set ⟨.eval 0 e scope, frames, s⟩ = .going (error e.pos (.overflow set.limit) frames s) := rfl
  rw [run_of_going hn]
  exact ⟨_, run_error .., rfl⟩

theorem run_demand (set : Setting) (depth : Nat) (v : Value) (frames : List Frame) (s : EvalState) :
    run set (demand depth v frames s) =
      run set ⟨.give (run set (demand depth v [] s)).1, frames, (run set (demand depth v [] s)).2⟩ :=
  Task.run_start set (.force v) depth frames s

/-! ## The way to a value -/

/-- Whatever is demanded that is known is found again. -/
def Catches (set : Setting) (first : ThunkId → Prop) (L : List Told) (G : Heap) : Prop :=
  ∀ {b : ThunkId}, first b ∨ Among L b → ∀ {p : Pairing} {s : EvalState} {a : ThunkId} (depth : Nat),
    s.patience = .endless → s.heap.Behind p G → s.heap.Informed first L p → p.thunks a b →
      Overflows set (run set (demand depth (.thunk a) [] s)) ∨ ∃ v q u, G.thunkValue? b = some v ∧
        Caught first L p G (regions L) v s (run set (demand depth (.thunk a) [] s)) q u

theorem trails_own (hlib : set.host.Natural) (hc : c.Trails p G c') (hsteady : c'.Steady U)
    (hseek : c'.seeks? = none) (hn : c'.next set = .going d) (hd : ∀ e, d.control ≠ .give (.error e))
    (hnew : c'.state.heap.newScopes d.state.heap ⊆ U) (hG : d.state.heap.Ripens U G)
    (hdisjoint : Disjoint (c'.state.heap.made d.state.heap) p.seen) :
    Overflows set (run set c) ∨ ∃ c₁ q, c.next set = .going c₁ ∧ c₁.Trails q G d ∧
      p.Gains q c.state.heap (c'.state.heap.made d.state.heap) ∧ c.state.heap.Adds c₁.state.heap ∧
      c.state.heap.Ripens .univ c₁.state.heap := by
  obtain ⟨r, hr, hlike⟩ := hsteady
  have hplain := plain_next hlike.plain.1 hseek hn
  have hG' := (hlike.plain.1.ripens hplain hn U).trans hG
  have hcc := hc.like hr hlike hG'
  obtain ⟨-, e, scope, hzero⟩ | ⟨c₁, hn₁, q, hq, hcd⟩ := like_next hlib hcc hseek hn (.inr hd)
  · obtain ⟨control, frames, s⟩ := c
    obtain rfl := hzero
    exact .inl (overflows_eval set e scope frames s)
  -- a pair that is new stands for something that this step has made
  · have hmade : ∀ x ∈ q.seen, x ∈ (p.upto r).seen ∨ x ∈ c'.state.heap.made d.state.heap := by
      intro x hx
      cases x with
      | thunk b =>
        obtain ⟨a, hab⟩ := hx
        have hlt := (hcd.state.heap.thunks.lt hab).2
        rw [Heap.size_thunks_idle] at hlt
        exact (hq.thunks hab).imp (fun h => ⟨a, h⟩) fun h => ⟨hlt, Nat.not_lt_of_le h.2⟩
      | cell b =>
        obtain ⟨a, hab⟩ := hx
        exact (hq.cells hab).imp (fun h => ⟨a, h⟩) fun h =>
          ⟨(hcd.state.heap.cells.lt hab).2, Nat.not_lt_of_le h.2⟩
      | scope b =>
        obtain ⟨a, hab⟩ := hx
        exact (hq.scopes hab).imp (fun h => ⟨a, h⟩) fun h =>
          ⟨(hcd.state.heap.scopes.lt hab).2, Nat.not_lt_of_le h.2⟩
    have hseen : q.seen ⊆ p.seen ∪ c'.state.heap.made d.state.heap := fun x hx =>
      (hmade x hx).imp_left fun h => Pairing.within_upto.seen h
    have hfresh : ∀ x ∈ c'.state.heap.made d.state.heap, x ∉ p.seen := fun x hx hx' =>
      Set.disjoint_left.mp hdisjoint hx hx'
    have hscopes : q.Amid .univ U := by
      intro a b hab
      refine ⟨trivial, ?_⟩
      rcases hq.scopes hab with h | h
      · obtain ⟨-, e, hbe⟩ := h
        exact (hr hbe).1
      · exact hnew ⟨(hcd.state.heap.scopes.lt hab).2, Nat.not_lt_of_le h.2⟩
    have hpair : Heap.Fresh p q c.state.heap := by
      refine ⟨fun {a b} hab => ?_, fun {a b} hab => ?_, fun {a b} hab => ?_⟩
      · have hlt := (hcd.state.heap.thunks.lt hab).2
        rw [Heap.size_thunks_idle] at hlt
        exact (hq.thunks hab).imp And.left fun h => ⟨h.1, hfresh _ ⟨hlt, Nat.not_lt_of_le h.2⟩⟩
      · exact (hq.cells hab).imp And.left fun h =>
          ⟨h.1, hfresh _ ⟨(hcd.state.heap.cells.lt hab).2, Nat.not_lt_of_le h.2⟩⟩
      · exact (hq.scopes hab).imp And.left fun h =>
          ⟨fun b' hab' => Nat.not_lt_of_le h.1 (hc.heap.idle.scopes.lt hab').1,
            hfresh _ ⟨(hcd.state.heap.scopes.lt hab).2, Nat.not_lt_of_le h.2⟩⟩
    have hgrows := grows_next (.refl Heap.anyThunk _) hn₁ (fun _ _ => trivial) fun _ _ => trivial
    have hadds := hcc.plain.1.adds hcd.plain.1 hn₁
    have hripens := hadds.ripens hgrows
    -- the pairs of the step join the earlier ones, as what they stand for is new on both sides
    have hjoin := hc.heap.join hcd.state.heap (Heap.amid_univ p) hscopes hripens hadds.thunkValue?.mp hG hpair
    refine .inr ⟨c₁, p.join q, hn₁, ?_, ⟨Pairing.within_join_left, ?_, fun hab => ?_⟩, hadds, hripens⟩
    · exact ⟨hcd.control.mono Pairing.within_join_right, framesLike_mono hcd.frames Pairing.within_join_right,
        hcd.state.place.source, hcd.state.endless.1, hjoin⟩
    · rw [Pairing.seen_join]
      exact Set.union_subset Set.subset_union_left hseen
    · exact hab.elim .inl fun hab => (hq.scopes hab).imp And.left And.left

/-- The way to a value is gone again. -/
theorem catches_course (hlib : set.host.Natural) (hcatch : Catches set first L G) (hA : ∀ i ∈ L, Disjoint i.region A)
    (hfirst : ∀ id, first id → .thunk id ∉ A)
    (hway : Course set (fun id => first id ∨ Among L id) S G c' v A) :
    ∀ {p : Pairing} {c : Machine}, c.Trails p G c' → c.state.heap.Informed first L p → Disjoint A p.seen →
      Overflows set (run set c) ∨ ∃ q u, (run set c).1 = .ok u ∧ u.Twin q v ∧
        p.Gains q c.state.heap (A ∪ regions L) ∧ (run set c).2.heap.Behind q G ∧
        (run set c).2.heap.Informed first L q := by
  induction hway with
  | give v s =>
    intro p c hc hi _
    obtain ⟨control, frames, s₀⟩ := c
    obtain ⟨hcontrol, hframes, -, -, hheap⟩ := hc
    cases hframes
    cases hcontrol with
    | give hx =>
      cases hx with
      | @ok u _ hu =>
        rw [run_of_finished (next_finishes _ _)]
        exact .inr ⟨p, u, rfl, hu, .refl _ _ _, hheap, hi⟩
  | @own c' d v A U hU hsteady hseek hn hnew hG hdisjoint hway ih =>
    intro p c hc hi hAp
    obtain ⟨hmade, hrest⟩ := Set.disjoint_union_left.mp hAp
    rcases trails_own hlib hc hsteady hseek hn hway.ne_error hnew hG hmade with hover |
      ⟨c₁, q, hn₁, hc₁, hq, hadds, hripens⟩
    · exact .inl hover
    have hfirst' : (∀ id, first id → .thunk id ∉ c'.state.heap.made d.state.heap) ∧
        ∀ id, first id → .thunk id ∉ A :=
      ⟨fun id h hx => hfirst id h (.inl hx), fun id h hx => hfirst id h (.inr hx)⟩
    have hi₁ := hi.mono hripens hadds.forcing hq hfirst'.1
      (fun i hm => (hA i hm).mono_right Set.subset_union_left) hc₁.heap.idle.thunks.unique
    rw [run_of_going hn₁]
    refine (ih (fun i hm => (hA i hm).mono_right Set.subset_union_right) hfirst'.2 hc₁ hi₁ ?_).imp_right ?_
    · exact (Disjoint.union_right hrest hdisjoint.symm).mono_right hq.seen
    · rintro ⟨q', u, hu, htwin, hq', hheap, hi'⟩
      refine ⟨q', u, hu, htwin, ?_, hheap, hi'⟩
      refine Pairing.Gains.trans (hq.mono ?_) (hq'.mono ?_) hripens.smallerThan
      · exact Set.subset_union_left.trans Set.subset_union_left
      · exact Set.union_subset_union_left _ Set.subset_union_right
  | @look c' depth id u v s A U hU hsteady hG hseek hk hu hplace hway ih =>
    intro p c hc hi hAp
    obtain ⟨r, hr, hlike⟩ := hsteady
    have hcc := hc.like hr hlike hG
    obtain ⟨-, e, scope, hzero⟩ | ⟨depth₀, a, ha, hab, -⟩ := like_seeks hcc hseek
    · obtain ⟨control, frames, s⟩ := c
      obtain rfl := hzero
      exact .inl (overflows_eval set e scope frames s)
    obtain ⟨patience, htick, hpatience⟩ := tick_eq c.state
    have hendless := hpatience hc.endless
    have hheap := heap_tick c.state
    have hplace₀ : c.state.tick.2.place = c.state.place := by rw [htick]
    rw [run_of_going (next_seeks ha hc.endless), run_demand]
    -- what the known run has looked up, this run evaluates itself
    have hcaught := hcatch hk (s := c.state.tick.2) depth₀ (by rw [htick]; exact hendless.1)
      (by rw [hheap]; exact hc.heap) (by rw [hheap]; exact hi) hab.1
    generalize run set (demand depth₀ (.thunk a) [] c.state.tick.2) = y at hcaught ⊢
    rcases hcaught with ⟨e, he, hover⟩ | ⟨v', q, u₀, hv', hcaught⟩
    · rw [he]
      exact .inl ⟨e, run_error .., hover⟩
    obtain rfl := Option.some.inj (hu.symm.trans hv')
    rw [hcaught.value]
    have htrail : Trails q G ⟨.give (.ok u₀), c.frames, y.2⟩ ⟨.give (.ok u), c'.frames, s⟩ :=
      ⟨.give (.ok hcaught.twin), framesLike_mono hc.frames hcaught.gains.within,
        by rw [hplace, hcaught.place, hplace₀, hc.source], hcaught.endless, hcaught.heap⟩
    refine (ih hA hfirst htrail hcaught.informed ?_).imp_right ?_
    · refine Disjoint.mono_right hcaught.gains.seen (Disjoint.union_right hAp ?_)
      exact Set.disjoint_left.mpr fun x hx ⟨i, hm, hx'⟩ => Set.disjoint_left.mp (hA i hm) hx' hx
    · rintro ⟨q', u', hu', htwin, hq', hheap', hi'⟩
      refine ⟨q', u', hu', htwin, ?_, hheap', hi'⟩
      exact Pairing.Gains.trans (hheap ▸ hcaught.gains.mono Set.subset_union_right) hq'
        (hheap ▸ hcaught.ripens.smallerThan)

/-! ## One thunk after the other -/

variable {s : EvalState} {a b : ThunkId} {depth : Nat}

theorem caught_done (he : s.patience = .endless) (hb : s.heap.Behind p G) (hi : s.heap.Informed first L p)
    (hab : p.thunks a b) (hd : s.heap.Done a) : ∃ v q u, G.thunkValue? b = some v ∧
      Caught first L p G (regions L) v s (run set (demand depth (.thunk a) [] s)) q u := by
  obtain ⟨u, hu⟩ := hd
  obtain ⟨v, hv, htwin⟩ := hb.done hab hu
  obtain ⟨t, ht, hs⟩ := Heap.thunkValue?_eq_some.mp hu
  have hdemand : s.demand (.thunk a) = .now (.ok u) := by
    simp [EvalState.demand, ht, hs]
  refine ⟨v, p, u, hv, ?_⟩
  simp only [demand, hdemand]
  rw [run_of_finished (next_finishes _ _)]
  exact ⟨rfl, htwin, .refl _ _ _, hb, hi, .refl _ _, fun _ => Iff.rfl, rfl, he⟩

theorem Caught.cons {i : Told} {v : Value} {x : Except RuntimeError Value × EvalState} {u : Value}
    (h : Caught first L p G (regions L) v s x q u) (hi : s.heap.Informed first (i :: L) p)
    (hapart : ∀ j ∈ L, Disjoint j.region i.region) :
    Caught first (i :: L) p G (regions (i :: L)) v s x q u where
  value := h.value
  twin := h.twin
  gains := h.gains.mono fun _ ⟨j, hj, hx⟩ => ⟨j, List.mem_cons_of_mem _ hj, hx⟩
  heap := h.heap
  informed := by
    refine ⟨h.informed.first, fun j hj => ?_, fun a ha => ?_⟩
    · rcases List.mem_cons.mp hj with rfl | hj
      · rcases hi.told j List.mem_cons_self with ⟨a, hab, hd⟩ | hd
        · exact .inl ⟨a, h.gains.within.thunks hab, h.ripens.thunkDone hd⟩
        · refine .inr (Disjoint.mono_right h.gains.seen (Disjoint.union_right hd ?_))
          exact Set.disjoint_left.mpr fun x hx ⟨k, hk, hx'⟩ => Set.disjoint_left.mp (hapart k hk) hx' hx
      · exact h.informed.told j hj
    · obtain ⟨b, hab, hb⟩ := hi.forcing a ((h.forcing a).mp ha)
      exact ⟨b, h.gains.within.thunks hab, hb⟩
  ripens := h.ripens
  forcing := h.forcing
  place := h.place
  endless := h.endless

end Machine

open Machine in
/-- **What has been evaluated in one heap can be evaluated in a heap behind it.** The outcome is a twin
of the value known, or there is not enough depth. -/
theorem Recorded.catches {set : Setting} (hlib : set.host.Natural) {first : ThunkId → Prop}
    {S : Set ScopeId} {G : Heap} {L : List Told} (h : Recorded set first S G L) :
    Catches set first L G := by
  induction h with
  | nil =>
    intro b hb p s a depth he hheap hi hab
    rcases hb with hb | ⟨i, hi, -⟩
    · exact .inr (caught_done he hheap hi hab (hi.first hab hb))
    · cases hi
  | @cons L i t e scope depthᵣ sᵣ v hrest honce hapart hnew ht hcode hsource hv hway ih =>
    intro b hb p s a depth he hheap hi hab
    obtain ⟨tₐ, hta⟩ : ∃ t, s.heap.thunks[a]? = some t := by
      have hlt := (hheap.idle.thunks.lt hab).1
      rw [Heap.size_thunks_idle] at hlt
      exact ⟨_, Array.getElem?_eq_getElem hlt⟩
    -- only a pending thunk is evaluated: one that is being forced cannot be among the first ones
    cases hstate : tₐ.state with
    | done u => exact .inr (caught_done he hheap hi hab ⟨u, Heap.thunkValue?_eq_some.mpr ⟨tₐ, hta, hstate⟩⟩)
    | forcing =>
      obtain ⟨b', hab', hb'⟩ := hi.forcing a ⟨tₐ, hta, hstate⟩
      obtain rfl := (hheap.idle.thunks.unique hab hab').mp rfl
      obtain ⟨u, hu⟩ := hi.first hab (hb.resolve_right hb')
      obtain ⟨t', ht', hd⟩ := Heap.thunkValue?_eq_some.mp hu
      obtain rfl := Option.some.inj (hta.symm.trans ht')
      rw [hstate] at hd
      cases hd
    | pending =>
      have hundone : s.heap.thunkValue? a = none := Heap.thunkValue?_of_state hta (by simp [hstate])
      rcases hb with hb | hb
      · obtain ⟨u, hu⟩ := hi.first hab hb
        rw [hundone] at hu
        cases hu
      obtain ⟨j, hj, rfl⟩ := hb
      rcases List.mem_cons.mp hj with rfl | hj
      · -- the thunk is the last one that was evaluated
        obtain ⟨x, y, hx, hy, hxy⟩ := hheap.idle.thunks.related hab
        rw [Heap.getElem?_idle, hta] at hx
        rw [Heap.getElem?_idle, ht] at hy
        cases hx
        cases hy
        have hcodes := hxy.code
        simp only [hcode] at hcodes
        generalize hc : tₐ.code = code at hcodes
        cases hcodes with
        | @some c _ hscope =>
        obtain ⟨e', scopeₐ⟩ := c
        obtain ⟨rfl, hscope⟩ := hscope
        have hdemand : s.demand (.thunk a) = .code a tₐ e scopeₐ := by
          simp [EvalState.demand, hta, hstate, hc]
        have hinformed := hi.enter hab hundone honce
        have hforce : ∀ v, ThunkState.forcing ≠ .done v := by simp
        -- its evaluation trails the one that is recorded
        have htrail : Trails p G ⟨.eval depth e scopeₐ, [], s.startThunk a tₐ⟩
            ⟨.eval depthᵣ e scope, [], sᵣ⟩ :=
          ⟨.eval False.elim e hscope, .nil, hsource.trans hxy.source, he, hheap.enter hundone hforce⟩
        have hseen : Disjoint j.region p.seen := by
          refine (hi.told j List.mem_cons_self).resolve_left ?_
          rintro ⟨a', hab', u, hu⟩
          obtain rfl := (hheap.idle.thunks.unique hab hab').mpr rfl
          rw [hundone] at hu
          cases hu
        have hrests := rests_run set ⟨.eval depth e scopeₐ, [], s.startThunk a tₐ⟩ he
          (List.forall_mem_nil _)
        have hcourse := catches_course hlib ih hapart hnew hway htrail hinformed hseen
        rw [run_demand_code hdemand]
        generalize run set ⟨.eval depth e scopeₐ, [], s.startThunk a tₐ⟩ = y at hcourse hrests ⊢
        -- that runs out of depth, or comes to a twin, which is then what the thunk holds
        rcases hcourse with ⟨e', he', hover⟩ | ⟨q, u, hu, htwin, hq, hheap', hi'⟩
        · rcases y.2.finishThunk_cases a tₐ e.pos s.place y.1 with ⟨u, hu, -, -⟩ | ⟨e'', hfinish, hwhy⟩
          · rw [he'] at hu
            cases hu
          · refine .inl ⟨e', ?_, hover⟩
            rw [hfinish]
            obtain hwhy | ⟨u, hu, -⟩ := hwhy
            · exact hwhy.symm.trans he'
            · rw [he'] at hu
              cases hu
        · have haccepts : tₐ.Accepts u := fun want hw => by
            rw [← htwin.conforms]
            exact hv want (hxy.want.trans hw)
          rcases y.2.finishThunk_cases a tₐ e.pos s.place y.1 with ⟨u', hu', -, hfinish⟩ | ⟨e', -, hwhy⟩
          · obtain rfl : u = u' := by
              rw [hu] at hu'
              cases hu'
              rfl
            rw [hfinish]
            have hleft : ThunkState.done u ≠ .forcing := by simp
            obtain ⟨hripens, hforcing⟩ := hrests.thunk hta hstate hleft
            obtain ⟨tₐ', hta', -⟩ := hrests.forced hta
            have hvalue : G.thunkValue? j.id = some v := Heap.thunkValue?_eq_some.mpr ⟨_, ht, rfl⟩
            have hself : (y.2.heap.setThunk a (.done u)).Done a :=
              ⟨u, (Heap.thunkValue?_setThunk_self hta').mpr rfl⟩
            have hkeep := Heap.ripens_setThunk S (hrests.forced hta).thunkValue? (.done u)
            have hsize := (Heap.ripens_setThunk S hundone .forcing).smallerThan
            refine .inr ⟨v, q, u, hvalue, rfl, htwin, ?_,
              hheap'.leave (hq.within.thunks hab) htwin hvalue, ⟨fun hcd hd => hkeep.thunkDone (hi'.first hcd hd),
              fun k hk => ?_, fun c hc => ?_⟩, hripens, hforcing, rfl, hrests.endless⟩
            · refine Pairing.Gains.trans (.refl p _ _) (hq.mono ?_) hsize
              refine Set.union_subset (fun x hx => ⟨j, List.mem_cons_self, hx⟩) ?_
              rintro x ⟨k, hk, hx⟩
              exact ⟨k, List.mem_cons_of_mem _ hk, hx⟩
            · rcases List.mem_cons.mp hk with rfl | hk
              · exact .inl ⟨a, hq.within.thunks hab, hself⟩
              · refine (hi'.told k hk).imp_left ?_
                rintro ⟨c, hc, hd⟩
                exact ⟨c, hc, hkeep.thunkDone hd⟩
            · obtain ⟨b, hcb, hb⟩ := hi.forcing c ((hforcing c).mp hc)
              exact ⟨b, hq.within.thunks hcb, hb⟩
          · obtain hwhy | ⟨u', hu', hno⟩ := hwhy
            · rw [hu] at hwhy
              cases hwhy
            · obtain rfl : u = u' := by
                rw [hu] at hu'
                cases hu'
                rfl
              exact absurd haccepts hno
      -- the thunk was evaluated before the last one
      · obtain ⟨e', he', hover⟩ | ⟨v', q, u, hv', hcaught⟩ := ih (.inr ⟨j, hj, rfl⟩) depth he hheap hi.tail hab
        · exact .inl ⟨e', he', hover⟩
        · exact .inr ⟨v', q, u, hv', hcaught.cons hi hapart⟩

end LazySession
