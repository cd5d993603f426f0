import LazySession.Proofs.Behind.Replay

/-!
# Two runs of the same work

Two machines do the same work, of which the second has done more before: there is a record of what it
has evaluated. The two come to the same, unless there is not enough depth for the first:
`Machine.abreast_run`. Where the second has a value at hand that the first has not, the first goes the
way by which the second came to it.
-/

namespace LazySession

namespace Heap

/-- The first heap is behind the second. `L` tells of what has a value only in the second. -/
structure Abreast (h : Heap) (set : Setting) (first : ThunkId → Prop) (S : Set ScopeId) (L : List Told)
    (p : Pairing) (g : Heap) : Prop where
  behind : h.Behind p g
  informed : h.Informed first L p
  record : Recorded set first S g L
  early : ∀ b, first b → g.Done b
  there : ∀ i ∈ L, i.region ⊆ g.has
  forcing : ∀ {a b}, p.thunks a b → (h.Forcing a ↔ g.Forcing b)
  partner : ∀ b, g.Forcing b → ∃ a, p.thunks a b
  known : ∀ {b}, g.Done b → first b ∨ Among L b ∨ ∃ a, p.thunks a b ∧ h.Done a

variable {set : Setting} {first : ThunkId → Prop} {S : Set ScopeId} {L : List Told} {p q : Pairing}
variable {h h' g g' : Heap} {a b : ThunkId}

theorem Forcing.not_done (hf : h.Forcing a) : ¬ h.Done a := fun ⟨v, hv⟩ => by
  rw [hf.thunkValue?] at hv
  cases hv

theorem Forcing.mem (hf : h.Forcing a) : .thunk a ∈ h.has := by
  obtain ⟨t, ht, -⟩ := hf
  exact (Array.getElem?_eq_some_iff.mp ht).1

theorem Done.mem (hd : h.Done a) : .thunk a ∈ h.has := by
  obtain ⟨v, hv⟩ := hd
  obtain ⟨t, ht, -⟩ := thunkValue?_eq_some.mp hv
  exact (Array.getElem?_eq_some_iff.mp ht).1

/-- Both heaps have more, and what has been paired is new to both. -/
theorem Abreast.own (hb : h.Abreast set first S L p g) (ha : h.Adds h') (ha' : g.Adds g')
    {T : Set ScopeId} (hr : h.Ripens T h') (hr' : g.Ripens S g') (hq : p.Extends q h g)
    (ht : h'.idle.Twin nothing q g'.idle) :
    h'.Abreast set first S L q g' ∧ p.Gains q h (g.made g') := by
  have hseen : q.seen ⊆ p.seen ∪ g.made g' := by
    rintro (b | b | b) ⟨a, hab⟩
    · have hlt := (ht.thunks.lt hab).2
      rw [size_thunks_idle] at hlt
      exact (hq.thunks hab).imp (fun h => ⟨a, h⟩) fun h => ⟨hlt, Nat.not_lt_of_le h.2⟩
    · exact (hq.cells hab).imp (fun h => ⟨a, h⟩) fun h => ⟨(ht.cells.lt hab).2, Nat.not_lt_of_le h.2⟩
    · exact (hq.scopes hab).imp (fun h => ⟨a, h⟩) fun h => ⟨(ht.scopes.lt hab).2, Nat.not_lt_of_le h.2⟩
  have hgains : p.Gains q h (g.made g') :=
    ⟨hq.within, hseen, fun hab => (hq.scopes hab).imp_right And.left⟩
  -- a thunk that was there has no new partner
  have hold {a b : ThunkId} (hab : q.thunks a b) (hm : .thunk a ∈ h.has ∨ .thunk b ∈ g.has) :
      p.thunks a b := (hq.thunks hab).resolve_right fun hn =>
    hm.elim (fun hm => Nat.not_lt_of_le hn.1 hm) fun hm => Nat.not_lt_of_le hn.2 hm
  refine ⟨⟨⟨ht, fun {a b v} hab hv => ?_⟩, ?_, ?_, fun b hb' => hr'.thunkDone (hb.early b hb'), fun i hi => ?_,
    fun {a b} hab => ?_, fun b hf => ?_, fun {b} hd => ?_⟩, hgains⟩
  · have hv' := ha.thunkValue?.mp hv
    obtain ⟨v', hb', htwin⟩ := hb.behind.done (hold hab (.inl (Done.mem ⟨v, hv'⟩))) hv'
    exact ⟨v', hr'.done hb', htwin.mono hq.within⟩
  · refine hb.informed.mono hr ha.forcing hgains (fun b hb' hx => hx.2 (hb.early b hb').mem)
      (fun i hi => Set.disjoint_left.mpr fun x hx hx' => hx'.2 (hb.there i hi hx)) ht.thunks.unique
  · exact hb.record.mono Set.Subset.rfl hr'
  · exact (hb.there i hi).trans hr'.smallerThan.has
  · rw [ha.forcing, ha'.forcing]
    constructor
    · exact fun hf => (hb.forcing (hold hab (.inl hf.mem))).mp hf
    · exact fun hf => (hb.forcing (hold hab (.inr hf.mem))).mpr hf
  · obtain ⟨a, hab⟩ := hb.partner b ((ha'.forcing b).mp hf)
    exact ⟨a, hq.within.thunks hab⟩
  · obtain ⟨v, hv⟩ := hd
    rcases hb.known ⟨v, ha'.thunkValue?.mp hv⟩ with h | h | ⟨a, hab, hd⟩
    · exact .inl h
    · exact .inr (.inl h)
    · exact .inr (.inr ⟨a, hq.within.thunks hab, hr.thunkDone hd⟩)

/-- The first heap has caught up. -/
theorem Abreast.catch (hb : h.Abreast set first S L p g) (hbehind : h'.Behind q g)
    (hi : h'.Informed first L q) (hw : p.Within q) {T : Set ScopeId} (hr : h.Ripens T h')
    (hf : ∀ id, h'.Forcing id ↔ h.Forcing id) : h'.Abreast set first S L q g where
  behind := hbehind
  informed := hi
  record := hb.record
  early := hb.early
  there := hb.there
  forcing {a b} hab := by
    rw [hf]
    constructor
    · intro hfa
      obtain ⟨b', hab', -⟩ := hb.informed.forcing a hfa
      obtain rfl := (hbehind.idle.thunks.unique hab (hw.thunks hab')).mp rfl
      exact (hb.forcing hab').mp hfa
    · intro hfb
      obtain ⟨a', hab'⟩ := hb.partner b hfb
      obtain rfl := (hbehind.idle.thunks.unique hab (hw.thunks hab')).mpr rfl
      exact (hb.forcing hab').mpr hfb
  partner b hfb := (hb.partner b hfb).imp fun _ h => hw.thunks h
  known hd := (hb.known hd).imp_right (.imp_right fun ⟨a, hab, hd⟩ => ⟨a, hw.thunks hab, hr.thunkDone hd⟩)

theorem Abreast.undone (hb : h.Abreast set first S L p g) (hab : p.thunks a b) (hn : ¬ g.Done b) :
    ¬ h.Done a := fun ⟨v, hv⟩ => by
  obtain ⟨v', hv', -⟩ := hb.behind.done hab hv
  exact hn ⟨v', hv'⟩

theorem thunkValue?_eq_none : h.thunkValue? a = none ↔ ¬ h.Done a := by
  rw [Option.eq_none_iff_forall_ne_some]
  exact ⟨fun hn ⟨v, hv⟩ => hn v hv, fun hn v hv => hn ⟨v, hv⟩⟩

theorem Abreast.setThunk (hb : h.Abreast set first S L p g) (hab : p.thunks a b) (hn : ¬ g.Done b)
    {s s' : ThunkState} (hs : s.Twin p s') : (h.setThunk a s).Abreast set first S L p (g.setThunk b s') := by
  have hna := thunkValue?_eq_none.mpr (hb.undone hab hn)
  have hnb := thunkValue?_eq_none.mpr hn
  have hr := ripens_setThunk .univ hna s
  have hr' := ripens_setThunk .univ hnb s'
  have hlt := hb.behind.idle.thunks.lt hab
  rw [size_thunks_idle, size_thunks_idle] at hlt
  obtain ⟨t, ht⟩ : ∃ t, h.thunks[a]? = some t := ⟨_, Array.getElem?_eq_getElem hlt.1⟩
  obtain ⟨t', ht'⟩ : ∃ t, g.thunks[b]? = some t := ⟨_, Array.getElem?_eq_getElem hlt.2⟩
  have hiff {c d : ThunkId} (hcd : p.thunks c d) : c = a ↔ d = b := hb.behind.idle.thunks.unique hcd hab
  refine ⟨⟨?_, fun {c d v} hcd hv => ?_⟩, ⟨fun hcd hd => hr.thunkDone (hb.informed.first hcd hd), fun i hi => ?_,
    fun c hc => ?_⟩, hb.record.mono Set.Subset.rfl (hr'.mono (Set.subset_univ S)),
    fun d hd => hr'.thunkDone (hb.early d hd), fun i hi => (hb.there i hi).trans hr'.smallerThan.has,
    fun {c d} hcd => ?_, fun d hd => ?_, fun {d} hd => ?_⟩
  · rw [idle_setThunk, idle_setThunk]
    exact hb.behind.idle
  · by_cases hca : c = a
    · subst hca
      obtain rfl := (hiff hcd).mp rfl
      obtain rfl := (thunkValue?_setThunk_self ht).mp hv
      cases hs with | done hvv => exact ⟨_, (thunkValue?_setThunk_self ht').mpr rfl, hvv⟩
    · rw [thunkValue?_setThunk_ne hca] at hv
      obtain ⟨v', hv', htwin⟩ := hb.behind.done hcd hv
      exact ⟨v', hr'.done hv', htwin⟩
  · exact (hb.informed.told i hi).imp_left fun ⟨c, hc, hd⟩ => ⟨c, hc, hr.thunkDone hd⟩
  · by_cases hca : c = a
    · subst hca
      exact ⟨b, hab, fun hm => hn (hb.record.done hm)⟩
    · exact hb.informed.forcing c ((forcing_setThunk_ne hca).mp hc)
  · by_cases hca : c = a
    · subst hca
      obtain rfl := (hiff hcd).mp rfl
      rw [forcing_setThunk_self ht, forcing_setThunk_self ht']
      cases hs <;> simp
    · rw [forcing_setThunk_ne hca, forcing_setThunk_ne fun hd => hca ((hiff hcd).mpr hd)]
      exact hb.forcing hcd
  · by_cases hdb : d = b
    · exact ⟨a, hdb ▸ hab⟩
    · exact hb.partner d ((forcing_setThunk_ne hdb).mp hd)
  · obtain ⟨v, hv⟩ := hd
    by_cases hdb : d = b
    · subst hdb
      obtain rfl := (thunkValue?_setThunk_self ht').mp hv
      cases hs with
      | @done u _ hvv => exact .inr (.inr ⟨a, hab, u, (thunkValue?_setThunk_self ht).mpr rfl⟩)
    · rw [thunkValue?_setThunk_ne hdb] at hv
      exact (hb.known ⟨v, hv⟩).imp_right (.imp_right fun ⟨c, hc, hd⟩ => ⟨c, hc, hr.thunkDone hd⟩)

end Heap

namespace EvalState

variable {exact : Prop} {p q : Pairing} {s s' : EvalState} {a b : ThunkId}

theorem Like.thunk (hs : s.Like exact p s') (hab : p.thunks a b) : ∃ t t', s.heap.thunks[a]? = some t ∧
    s'.heap.thunks[b]? = some t' ∧ t'.name = t.name ∧ t'.source = t.source ∧ t'.want = t.want ∧
    Option.Rel (fun c c' => c'.1 = c.1 ∧ p.scopes c.2 c'.2) t.code t'.code := by
  obtain ⟨x, y, hx, hy, hxy⟩ := hs.heap.thunks.related hab
  rw [Heap.getElem?_idle] at hx hy
  obtain ⟨t, ht, rfl⟩ := Option.map_eq_some_iff.mp hx
  obtain ⟨t', ht', rfl⟩ := Option.map_eq_some_iff.mp hy
  exact ⟨t, t', ht, ht', hxy.name, hxy.source, hxy.want, hxy.code⟩

/-- A thunk that has no value is demanded in vain on both sides. -/
theorem Like.demand_error (hs : s.Like True p s') (hab : p.thunks a b)
    (hf : s.heap.Forcing a ↔ s'.heap.Forcing b) (hn : ¬ s.heap.Done a) (hn' : ¬ s'.heap.Done b)
    {e : RuntimeError} (hd : s'.demand (.thunk b) = .now (.error e)) :
    s.demand (.thunk a) = .now (.error e) := by
  obtain ⟨t, t', ht, ht', hname, -, -, hcode⟩ := hs.thunk hab
  have hplace := hs.place.same trivial
  obtain ⟨name, code, source, want, state⟩ := t
  obtain ⟨name', code', source', want', state'⟩ := t'
  obtain rfl : name' = name := hname
  simp only at hcode
  have hforcing : state = .forcing ↔ state' = .forcing := by
    constructor
    · rintro rfl
      obtain ⟨u, hu, hs⟩ := hf.mp ⟨_, ht, rfl⟩
      obtain rfl := Option.some.inj (ht'.symm.trans hu)
      exact hs
    · rintro rfl
      obtain ⟨u, hu, hs⟩ := hf.mpr ⟨_, ht', rfl⟩
      obtain rfl := Option.some.inj (ht.symm.trans hu)
      exact hs
  simp only [demand, ht'] at hd
  cases state with
  | done v => exact absurd ⟨v, Heap.thunkValue?_eq_some.mpr ⟨_, ht, rfl⟩⟩ hn
  | pending =>
    cases state' with
    | done v => exact absurd ⟨v, Heap.thunkValue?_eq_some.mpr ⟨_, ht', rfl⟩⟩ hn'
    | forcing => cases hforcing.mpr rfl
    | pending =>
      cases hcode with
      | none =>
        simp only [demand, ht]
        rw [← hd, EvalState.error, EvalState.error, hplace]
      | some hc => cases hd
  | forcing =>
    obtain rfl := hforcing.mp rfl
    cases hcode with
    | none =>
      simp only [demand, ht]
      rw [← hd, EvalState.error, EvalState.error, hplace]
    | @some c c' hc =>
      obtain ⟨e', scope⟩ := c
      obtain ⟨e'', scope'⟩ := c'
      obtain ⟨rfl, -⟩ := hc
      simp only [demand, ht]
      rw [← hd]
      simp only [EvalState.error, hplace]

/-- Thunks that stand for one another are left in the same way. -/
theorem Like.finishThunk (s s' : EvalState) (t t' : Thunk) (hname : t'.name = t.name)
    (hsource : t'.source = t.source) (hwant : t'.want = t.want) (pos : Pos) (place : Place)
    {x x' : Except RuntimeError Value} (hx : ResultLike True q x x') :
    ResultLike True q (s.finishThunk a t pos place x).1 (s'.finishThunk b t' pos place x').1 ∧
      ∃ st st', st.Twin q st' ∧ st ≠ .forcing ∧
        (s.finishThunk a t pos place x).2 = { s with place, heap := s.heap.setThunk a st } ∧
        (s'.finishThunk b t' pos place x').2 = { s' with place, heap := s'.heap.setThunk b st' } := by
  have hpending : ThunkState.pending ≠ .forcing := by simp
  have hdone : ∀ v, ThunkState.done v ≠ .forcing := by simp
  cases hx with
  | error he =>
    exact ⟨.error he, .pending, .pending, .pending, hpending, rfl, rfl⟩
  | @ok v v' hv =>
    simp only [EvalState.finishThunk, EvalState.leave, hwant, hv.typeName, hname, hsource]
    cases t.want with
    | none => exact ⟨.ok hv, .done v, .done v', .done hv, hdone v, rfl, rfl⟩
    | some want =>
      simp only [hv.conforms]
      split
      · exact ⟨.ok hv, .done v, .done v', .done hv, hdone v, rfl, rfl⟩
      · exact ⟨.error fun _ => rfl, .pending, .pending, .pending, hpending, rfl, rfl⟩

end EvalState

namespace Machine

variable {set : Setting} {first : ThunkId → Prop} {S : Set ScopeId} {L : List Told} {p q : Pairing}
variable {c c' d d' : Machine} {x x' : Except RuntimeError Value × EvalState}

/-- Two runs have come to the same, or the first has not had enough depth. -/
def Follows (set : Setting) (first : ThunkId → Prop) (S : Set ScopeId) (L : List Told) (p : Pairing)
    (h g : Heap) (x x' : Except RuntimeError Value × EvalState) : Prop :=
  Overflows set x ∨ ∃ q, ResultLike True q x.1 x'.1 ∧ p.Gains q h (regions L ∪ g.made x'.2.heap) ∧
    x.2.heap.Abreast set first S L q x'.2.heap

theorem Follows.after {h h' g g' : Heap} (hf : Follows set first S L q h' g' x x')
    (hp : p.Gains q h (regions L ∪ g.made g')) (hh : h.SmallerThan h') (hg : g.SmallerThan g')
    (hg' : g'.SmallerThan x'.2.heap) : Follows set first S L p h g x x' := by
  refine hf.imp_right fun ⟨q', hx, hq, hb⟩ => ⟨q', hx, Pairing.Gains.trans (hp.mono ?_) (hq.mono ?_) hh, hb⟩
  · exact Set.union_subset_union_right _ (Heap.made_left hg')
  · exact Set.union_subset_union_right _ (Heap.made_right hg)

theorem overflows_give {y : Except RuntimeError Value × EvalState} (hy : Overflows set y)
    (frames : List Frame) : Overflows set (run set ⟨.give y.1, frames, y.2⟩) := by
  obtain ⟨e, he, hover⟩ := hy
  rw [he]
  exact ⟨e, run_error .., hover⟩

theorem rests_demand (set : Setting) (depth : Nat) (v : Value) {s : EvalState}
    (he : s.patience = .endless) : Rests ⟨.give (.ok v), [], s⟩ (run set (demand depth v [] s)).2 := by
  cases hd : s.demand v with
  | now r =>
    simp only [demand, hd]
    rw [run_of_finished (next_finishes _ _)]
    exact ⟨.refl _ _, fun _ => Iff.rfl, rfl, he⟩
  | code id t e scope =>
    obtain ⟨rfl, -⟩ := EvalState.demand_code hd
    obtain ⟨ht, hp⟩ := EvalState.demand_pending hd
    rw [run_demand_code hd]
    have hy := rests_run set ⟨.eval depth e scope, [], s.startThunk id t⟩ he (List.forall_mem_nil _)
    generalize run set ⟨.eval depth e scope, [], s.startThunk id t⟩ = y at hy ⊢
    obtain ⟨state, hs, hz⟩ := y.2.finishThunk_state id t e.pos s.place y.1
    obtain ⟨hripens, hforcing⟩ := hy.thunk ht hp hs
    rw [hz]
    exact ⟨hripens, hforcing, rfl, hy.endless⟩

/-! ## Demanding thunks that stand for one another -/

section
variable {s s' : EvalState} {a b : ThunkId} {depth : Nat}

/-- The second thunk has its value. -/
theorem follows_done (hlib : set.host.Natural) (hs : s.Like True p s')
    (hb : s.heap.Abreast set first S L p s'.heap) (hab : p.thunks a b) (hd : s'.heap.Done b) :
    Follows set first S L p s.heap s'.heap (run set (demand depth (.thunk a) [] s))
      (run set (demand depth (.thunk b) [] s')) := by
  have hleft : Overflows set (run set (demand depth (.thunk a) [] s)) ∨ ∃ v q u,
      s'.heap.thunkValue? b = some v ∧ Caught first L p s'.heap (regions L) v s
        (run set (demand depth (.thunk a) [] s)) q u := by
    rcases hb.known hd with h | h | ⟨a', hab', hd'⟩
    · exact hb.record.catches hlib (.inl h) depth hs.endless.1 hb.behind hb.informed hab
    · exact hb.record.catches hlib (.inr h) depth hs.endless.1 hb.behind hb.informed hab
    · obtain rfl := (hb.behind.idle.thunks.unique hab hab').mpr rfl
      exact .inr (caught_done hs.endless.1 hb.behind hb.informed hab hd')
  refine hleft.imp_right ?_
  rintro ⟨v, q, u, hv, hc⟩
  have hright : run set (demand depth (.thunk b) [] s') = (.ok v, s') := by
    obtain ⟨t, ht, hstate⟩ := Heap.thunkValue?_eq_some.mp hv
    have hdemand : s'.demand (.thunk b) = .now (.ok v) := by simp [EvalState.demand, ht, hstate]
    simp only [demand, hdemand]
    exact run_of_finished (next_finishes _ _)
  rw [hright]
  refine ⟨q, ?_, hc.gains.mono Set.subset_union_left,
    hb.catch hc.heap hc.informed hc.gains.within hc.ripens hc.forcing⟩
  rw [hc.value]
  exact .ok hc.twin

/-- The second thunk is evaluated, and so is the first. -/
theorem follows_code (hs : s.Like True p s') (hb : s.heap.Abreast set first S L p s'.heap)
    (hab : p.thunks a b) {t' : Thunk} {e : Expr} {scope' : ScopeId}
    (hd : s'.demand (.thunk b) = .code b t' e scope')
    (ih : ∀ {p c}, c.Like True p ⟨.eval depth e scope', [], s'.startThunk b t'⟩ →
      c.state.heap.Abreast set first S L p (s'.startThunk b t').heap →
      Follows set first S L p c.state.heap (s'.startThunk b t').heap (run set c)
        (run set ⟨.eval depth e scope', [], s'.startThunk b t'⟩)) :
    Follows set first S L p s.heap s'.heap (run set (demand depth (.thunk a) [] s))
      (run set (demand depth (.thunk b) [] s')) := by
  obtain ⟨ht', hpending'⟩ := EvalState.demand_pending hd
  obtain ⟨-, -, hcode'⟩ := EvalState.demand_code hd
  obtain ⟨t, t₁, ht, ht₁, hname, hsource, hwant, -⟩ := hs.thunk hab
  obtain rfl := Option.some.inj (ht'.symm.trans ht₁)
  obtain ⟨scope, hcode, hlike⟩ := like_startThunk hs (d := depth) (fun _ => rfl) hab ht ht' hcode'
  have hundone : ¬ s'.heap.Done b := Heap.thunkValue?_eq_none.mp
    (Heap.thunkValue?_of_state ht' (by simp [hpending']))
  have hpending : t.state = .pending := by
    cases hstate : t.state with
    | pending => rfl
    | done v =>
      exact absurd ⟨v, Heap.thunkValue?_eq_some.mpr ⟨t, ht, hstate⟩⟩ (hb.undone hab hundone)
    | forcing =>
      obtain ⟨t'', ht'', hf⟩ := (hb.forcing hab).mp ⟨t, ht, hstate⟩
      obtain rfl := Option.some.inj (ht'.symm.trans ht'')
      rw [hpending'] at hf
      cases hf
  have hdemand : s.demand (.thunk a) = .code a t e scope := by
    simp [EvalState.demand, ht, hpending, hcode]
  have hinner := ih hlike (hb.setThunk hab hundone .forcing)
  have hforced := (rests_run set ⟨.eval depth e scope', [], s'.startThunk b t'⟩ hs.endless.2
    (List.forall_mem_nil _)).forced ht'
  have hripens := (rests_run set ⟨.eval depth e scope', [], s'.startThunk b t'⟩ hs.endless.2
    (List.forall_mem_nil _)).ripens
  rw [run_demand_code hdemand, run_demand_code hd, hs.place.same trivial]
  generalize run set ⟨.eval depth e scope, [], s.startThunk a t⟩ = y at hinner ⊢
  generalize run set ⟨.eval depth e scope', [], s'.startThunk b t'⟩ = y' at hinner hforced hripens ⊢
  rcases hinner with ⟨e', he', hover⟩ | ⟨q, hx, hq, hb'⟩
  · rw [he']
    exact .inl ⟨e', rfl, hover⟩
  · obtain ⟨hz, st, st', hst, -, hleave, hleave'⟩ :=
      EvalState.Like.finishThunk (a := a) (b := b) y.2 y'.2 t t' hname hsource hwant e.pos s.place hx
    have hsize := (Heap.ripens_setThunk .univ (Heap.thunkValue?_eq_none.mpr (hb.undone hab hundone))
      .forcing).smallerThan
    refine .inr ⟨q, hz, Pairing.Gains.trans (.refl p _ _) (hq.mono (Set.union_subset_union_right _ ?_)) hsize, ?_⟩
    · rw [hleave']
      refine (Heap.made_right ?_).trans (Heap.made_left ?_)
      · exact (Heap.ripens_setThunk .univ (Heap.thunkValue?_eq_none.mpr hundone) .forcing).smallerThan
      · exact (Heap.ripens_setThunk .univ hforced.thunkValue? st').smallerThan
    · rw [hleave, hleave']
      exact hb'.setThunk (hq.within.thunks hab) hforced.not_done hst

theorem follows_demand (hlib : set.host.Natural) (hs : s.Like True p s') (depth : Nat)
    (hb : s.heap.Abreast set first S L p s'.heap) (hab : p.thunks a b)
    (ih : ∀ {t e scope}, s'.demand (.thunk b) = .code b t e scope → ∀ {p c},
      c.Like True p ⟨.eval depth e scope, [], s'.startThunk b t⟩ →
      c.state.heap.Abreast set first S L p (s'.startThunk b t).heap →
      Follows set first S L p c.state.heap (s'.startThunk b t).heap (run set c)
        (run set ⟨.eval depth e scope, [], s'.startThunk b t⟩)) :
    Follows set first S L p s.heap s'.heap (run set (demand depth (.thunk a) [] s))
      (run set (demand depth (.thunk b) [] s')) := by
  by_cases hdone : s'.heap.Done b
  · exact follows_done hlib hs hb hab hdone
  · cases hd : s'.demand (.thunk b) with
    | code id t e scope =>
      obtain ⟨hid, -⟩ := EvalState.demand_code hd
      cases hid
      exact follows_code hs hb hab hd (ih hd)
    | now r =>
      obtain ⟨t, t', ht, ht', -⟩ := hs.thunk hab
      rcases EvalState.demand_now ht' hd with ⟨v, hv, -⟩ | ⟨e, rfl⟩
      · exact absurd ⟨v, hv⟩ hdone
      · have hleft := hs.demand_error hab (hb.forcing hab) (hb.undone hab hdone) hdone hd
        simp only [demand, hd, hleft]
        rw [run_of_finished (next_finishes _ _), run_of_finished (next_finishes _ _)]
        exact .inr ⟨p, .error fun _ => rfl, .refl _ _ _, hb⟩

end

/-! ## Runs -/

/-- What waits for a demanded value goes on with it. -/
theorem Follows.give {s s' : EvalState} {y y' : Except RuntimeError Value × EvalState}
    (h : Follows set first S L p s.heap s'.heap y y') (hs : s.Like True p s')
    {v v' : Value} (hy : Rests ⟨.give (.ok v), [], s⟩ y.2) (hy' : Rests ⟨.give (.ok v'), [], s'⟩ y'.2)
    {frames frames' : List Frame} (hf : List.Forall₂ (Frame.Like True p) frames frames')
    (hplain : ∀ f ∈ frames', f.thunk? = none)
    (ih : ∀ {p c}, c.Like True p ⟨.give y'.1, frames', y'.2⟩ →
      c.state.heap.Abreast set first S L p y'.2.heap →
      Follows set first S L p c.state.heap y'.2.heap (run set c) (run set ⟨.give y'.1, frames', y'.2⟩)) :
    Follows set first S L p s.heap s'.heap (run set ⟨.give y.1, frames, y.2⟩)
      (run set ⟨.give y'.1, frames', y'.2⟩) := by
  rcases h with hover | ⟨q, hx, hq, hb⟩
  · exact .inl (overflows_give hover frames)
  · have hplace : y'.2.place = y.2.place := by
      rw [hy'.place, hy.place]
      exact hs.place.same trivial
    have hlike : Like True q ⟨.give y.1, frames, y.2⟩ ⟨.give y'.1, frames', y'.2⟩ :=
      ⟨.give hx, framesLike_mono hf hq.within, hb.behind.idle, ⟨by rw [hplace], fun _ => hplace⟩, hy.endless,
        hy'.endless⟩
    exact (ih hlike hb).after hq hy.ripens.smallerThan hy'.ripens.smallerThan
      (rests_run set ⟨.give y'.1, frames', y'.2⟩ hy'.endless hplain).ripens.smallerThan

/-- **Two runs of the same work come to the same**, or there is not enough depth for the first. -/
theorem abreast_run (hlib : set.host.Natural) (c' : Machine) (he : c'.state.patience = .endless) :
    ∀ {p : Pairing} {c : Machine}, c.Like True p c' → c.state.heap.Abreast set first S L p c'.state.heap →
      Follows set first S L p c.state.heap c'.state.heap (run set c) (run set c') := by
  refine run_induct set (P := fun c' => ∀ {p : Pairing} {c : Machine}, c.Like True p c' →
    c.state.heap.Abreast set first S L p c'.state.heap →
    Follows set first S L p c.state.heap c'.state.heap (run set c) (run set c')) ?_ ?_ ?_ ?_ c' he
  -- the run is at its end
  · intro r s p c hc hb
    obtain ⟨control, frames, s₀⟩ := c
    obtain ⟨hcontrol, hframes, -⟩ := hc
    cases hframes
    cases hcontrol with
    | give hx =>
      rw [run_of_finished (next_finishes _ _), run_of_finished (next_finishes _ _)]
      exact .inr ⟨p, hx, .refl _ _ _, hb⟩
  -- a step of its own
  · intro c' d' he' hseek hn' hrun' ih p c hc hb
    obtain ⟨hx, -⟩ | ⟨d, hn, q, hq, hd⟩ := like_next hlib hc hseek hn' (.inl trivial)
    · exact absurd trivial hx
    have hripens' := hc.plain.2.ripens hd.plain.2 hn' .univ
    have hripens := hc.plain.1.ripens hd.plain.1 hn .univ
    obtain ⟨hb', hgains⟩ := hb.own (hc.plain.1.adds hd.plain.1 hn) (hc.plain.2.adds hd.plain.2 hn')
      hripens (hripens'.mono (Set.subset_univ S)) hq hd.state.heap
    rw [run_of_going hn, hrun']
    refine (ih hd hb').after (hgains.mono Set.subset_union_right) hripens.smallerThan hripens'.smallerThan ?_
    exact (rests_run set d' (endless_next hn' he') hd.plain.2).ripens.smallerThan
  -- a thunk that gives its outcome at once
  · intro c' depth' id r he' hseek hdemand hrun' ih p c hc hb
    obtain ⟨hx, -⟩ | ⟨depth, a, ha, hab, hdepth⟩ := like_seeks hc hseek
    · exact absurd trivial hx
    obtain rfl := hdepth trivial
    have hs := hc.state.tick.2.2
    have hright : run set (demand depth' (.thunk id) [] c'.state.tick.2) = (r, c'.state.tick.2) := by
      simp only [demand, hdemand]
      exact run_of_finished (next_finishes _ _)
    have hfollows := follows_demand hlib hs depth'
      (by rw [heap_tick, heap_tick]; exact hb) hab fun hcode => by
        rw [hdemand] at hcode
        cases hcode
    rw [run_of_going (next_seeks ha hc.state.endless.1), run_demand, hrun']
    have hgive := hfollows.give hs (rests_demand set _ _ hs.endless.1) (rests_demand set _ _ hs.endless.2)
      hc.frames hc.plain.2 (by rw [hright]; exact ih)
    rw [hright, heap_tick, heap_tick] at hgive
    exact hgive
  -- a thunk that has to be evaluated
  · rintro c' depth' id t e scope y z he' hseek hdemand rfl rfl hrun' ihy ihz p c hc hb
    obtain ⟨hx, -⟩ | ⟨depth, a, ha, hab, hdepth⟩ := like_seeks hc hseek
    · exact absurd trivial hx
    obtain rfl := hdepth trivial
    have hs := hc.state.tick.2.2
    have hright : run set (demand depth' (.thunk id) [] c'.state.tick.2) = _ := run_demand_code hdemand
    have hfollows := follows_demand hlib hs depth'
      (by rw [heap_tick, heap_tick]; exact hb) hab fun hcode => by
        rw [hdemand] at hcode
        cases hcode
        exact ihy
    rw [run_of_going (next_seeks ha hc.state.endless.1), run_demand, hrun']
    have hgive := hfollows.give hs (rests_demand set _ _ hs.endless.1) (rests_demand set _ _ hs.endless.2)
      hc.frames hc.plain.2 (by rw [hright]; exact ihz)
    rw [hright, heap_tick, heap_tick] at hgive
    exact hgive

theorem abreast_demand (hlib : set.host.Natural) {s s' : EvalState} (hs : s.Like True p s')
    (hb : s.heap.Abreast set first S L p s'.heap) {v v' : Value} (hv : v.Held p v') (depth : Nat) :
    Follows set first S L p s.heap s'.heap (run set (demand depth v [] s)) (run set (demand depth v' [] s')) := by
  cases hv with
  | value hv =>
    have hnow : ∀ {s : EvalState} {v : Value}, (∀ id, v ≠ .thunk id) → s.demand v = .now (.ok v) := by
      intro s v hne
      cases v with
      | thunk id => exact absurd rfl (hne id)
      | _ => rfl
    simp only [demand, hnow hv.not_thunk.1, hnow hv.not_thunk.2]
    rw [run_of_finished (next_finishes _ _), run_of_finished (next_finishes _ _)]
    exact .inr ⟨p, .ok hv, .refl _ _ _, hb⟩
  | thunk hab =>
    refine follows_demand hlib hs depth hb hab ?_
    intro t e scope _ p c hc hb'
    exact abreast_run hlib _ hs.endless.2 hc hb'

end Machine

end LazySession
