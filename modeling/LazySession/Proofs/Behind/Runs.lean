import LazySession.Proofs.Behind.Step
import LazySession.Proofs.Eval.Nesting
import LazySession.Proofs.Eval.Patience

/-!
# Runs taken apart at the thunks they go into

A run with endless patience makes steps of its own until a thunk is demanded. A thunk that has not
been evaluated is evaluated in a run of its own, and the run goes on with what that comes to:
`Machine.run_induct`. At the end everything is as it was but for what has been evaluated, and what was
made: `Machine.rests_run`.
-/

namespace LazySession

namespace Heap

variable {h : Heap} {id : ThunkId} {state : ThunkState}

theorem thunkValue?_setThunk_ne {i : ThunkId} (hne : i ≠ id) :
    (h.setThunk id state).thunkValue? i = h.thunkValue? i := by
  unfold thunkValue?
  rw [Machine.getElem?_setThunk_ne hne]

theorem thunkValue?_setThunk_self {t : Thunk} (ht : h.thunks[id]? = some t) {v : Value} :
    (h.setThunk id state).thunkValue? id = some v ↔ state = .done v := by
  rw [thunkValue?_eq_some]
  simp [Machine.getElem?_setThunk_self ht]

theorem thunkValue?_of_state {t : Thunk} (ht : h.thunks[id]? = some t) (hs : ∀ v, t.state ≠ .done v) :
    h.thunkValue? id = none := by
  refine Option.eq_none_iff_forall_ne_some.mpr fun v hv => ?_
  obtain ⟨t', ht', hs'⟩ := thunkValue?_eq_some.mp hv
  obtain rfl := Option.some.inj (ht.symm.trans ht')
  exact hs v hs'

theorem Forcing.thunkValue? (hf : h.Forcing id) : h.thunkValue? id = none := by
  obtain ⟨t, ht, hs⟩ := hf
  exact thunkValue?_of_state ht (by simp [hs])

theorem forcing_setThunk_ne {i : ThunkId} (hne : i ≠ id) :
    (h.setThunk id state).Forcing i ↔ h.Forcing i := by
  unfold Forcing
  rw [Machine.getElem?_setThunk_ne hne]

theorem forcing_setThunk_self {t : Thunk} (ht : h.thunks[id]? = some t) :
    (h.setThunk id state).Forcing id ↔ state = .forcing := by
  simp [Forcing, Machine.getElem?_setThunk_self ht]

theorem ripens_setThunk (S : Set ScopeId) (hn : h.thunkValue? id = none) (state : ThunkState) :
    h.Ripens S (h.setThunk id state) where
  idle := by
    rw [idle_setThunk]
    exact .refl _ _
  done {i v} hv := by
    rw [thunkValue?_setThunk_ne]
    · exact hv
    · rintro rfl
      rw [hn] at hv
      cases hv

theorem ripens_of_grows {U : ThunkId → Prop} {h' : Heap} (ha : h.Adds h') (hg : h.Grows U h')
    (S : Set ScopeId) : h.Ripens S h' :=
  (ha.ripens hg).mono (Set.subset_univ S)

end Heap

namespace EvalState

variable {s : EvalState} {id : ThunkId} {t : Thunk}

/-- A thunk is left with a value that it accepts, or pending. -/
theorem finishThunk_cases (s : EvalState) (id : ThunkId) (t : Thunk) (pos : Pos) (place : Place)
    (r : Except RuntimeError Value) :
    (∃ v, r = .ok v ∧ t.Accepts v ∧ s.finishThunk id t pos place r =
      (.ok v, { s with place, heap := s.heap.setThunk id (.done v) })) ∨
    ∃ e, s.finishThunk id t pos place r =
      (.error e, { s with place, heap := s.heap.setThunk id .pending }) ∧
      (r = .error e ∨ ∃ v, r = .ok v ∧ ¬ t.Accepts v) := by
  cases r with
  | error e => exact .inr ⟨e, rfl, .inl rfl⟩
  | ok v =>
    cases hw : t.want with
    | none =>
      refine .inl ⟨v, rfl, by simp [Thunk.Accepts, hw], ?_⟩
      simp only [finishThunk, leave, hw]
    | some want =>
      by_cases hv : v.conforms want = true
      · refine .inl ⟨v, rfl, by simp [Thunk.Accepts, hw, hv], ?_⟩
        simp only [finishThunk, leave, hw, hv, if_true]
      · refine .inr ⟨⟨⟨t.source, place.trace⟩, pos, .wrongType t.name want v.typeName, none⟩, ?_,
          .inr ⟨v, rfl, fun ha => hv (ha want hw)⟩⟩
        simp only [finishThunk, leave, hw, hv, Bool.false_eq_true, if_false]

theorem finishThunk_state (s : EvalState) (id : ThunkId) (t : Thunk) (pos : Pos) (place : Place)
    (r : Except RuntimeError Value) : ∃ state, state ≠ .forcing ∧
      (s.finishThunk id t pos place r).2 = { s with place, heap := s.heap.setThunk id state } := by
  rcases s.finishThunk_cases id t pos place r with ⟨v, -, -, hz⟩ | ⟨e, hz, -⟩
  · exact ⟨.done v, nofun, by rw [hz]⟩
  · exact ⟨.pending, nofun, by rw [hz]⟩

theorem demand_now {r : Except RuntimeError Value} (ht : s.heap.thunks[id]? = some t)
    (hd : s.demand (.thunk id) = .now r) :
    (∃ u, s.heap.thunkValue? id = some u ∧ r = .ok u) ∨ ∃ e, r = .error e := by
  obtain ⟨name, code, source, want, state⟩ := t
  simp only [demand, ht] at hd
  cases state with
  | done u =>
    cases hd
    exact .inl ⟨u, Heap.thunkValue?_eq_some.mpr ⟨_, ht, rfl⟩, rfl⟩
  | pending =>
    cases code with
    | none => exact .inr ⟨_, (Demand.now.inj hd).symm⟩
    | some c => cases hd
  | forcing => cases code <;> exact .inr ⟨_, (Demand.now.inj hd).symm⟩

theorem demand_pending {i : ThunkId} {e : Expr} {scope : ScopeId}
    (hd : s.demand (.thunk i) = .code id t e scope) :
    s.heap.thunks[id]? = some t ∧ t.state = .pending := by
  rcases s.demand_cases (.thunk i) with ⟨_, _, _, _, _, ht, hp, -, hd'⟩ | hd' | ⟨_, _, -, -, hd'⟩ |
    ⟨_, _, hd', -⟩ <;> rw [hd] at hd' <;> cases hd'
  exact ⟨ht, hp⟩

end EvalState

namespace Machine

variable {set : Setting} {c d : Machine}

/-! ## The induction -/

theorem next_seeks {depth : Nat} {id : ThunkId} (h : c.seeks? = some (depth, id))
    (he : c.state.patience = .endless) :
    c.next set = .going (demand depth (.thunk id) c.frames c.state.tick.2) := by
  obtain ⟨control, frames, s⟩ := c
  obtain ⟨patience, htick, hs⟩ := tick_eq s
  have hstop : s.tick.1 = false := (hs he).2
  unfold seeks? at h
  split at h
  · rename_i hcontrol
    obtain rfl := hcontrol
    split at h
    · rename_i hx
      cases h
      simp [next, evaluate, hstop, node, heap_tick, hx]
    · cases h
  · rename_i hcontrol
    obtain rfl := hcontrol
    split at h
    · rename_i hx
      cases h
      simp [next, evaluate, hstop, node, heap_tick, hx]
    · cases h
  · cases h

/-- A run takes no fewer steps with frames behind it. -/
theorem within_under {frames : List Frame} {x : Except RuntimeError Value × EvalState} {n : Nat} :
    ∀ {c : Machine}, within (next set) n (c.under frames) = some x →
      (∃ m ≤ n, within (next set) m c = some (run set c)) ∧
        ∃ m ≤ n, within (next set) m ⟨.give (run set c).1, frames, (run set c).2⟩ = some x := by
  induction n with
  | zero => exact fun h => nomatch h
  | succ n ih =>
    intro c h
    cases hn : c.next set with
    | finished r s =>
      obtain ⟨control, fs, s'⟩ := c
      have hc : control = .give r ∧ fs = [] ∧ s' = s := by
        rcases control with _ | _ | (_ | _) <;> rcases fs with _ | _ <;> cases hn <;> exact ⟨rfl, rfl, rfl⟩
      obtain ⟨rfl, rfl, rfl⟩ := hc
      rw [run_of_finished hn]
      exact ⟨⟨1, by omega, by simp [within, hn]⟩, n + 1, le_rfl, h⟩
    | going d =>
      rw [run_of_going hn]
      simp only [within, next_under hn] at h
      obtain ⟨⟨m, hm, hd⟩, k, hk, hrest⟩ := ih h
      exact ⟨⟨m + 1, by omega, within_of_going hn hd⟩, k, by omega, hrest⟩

/-- A run makes a step, demands a thunk that is not pending, or evaluates one and goes on. Whatever has
`P` if the runs that come of this have it, has it. -/
theorem run_induct (set : Setting) {P : Machine → Prop}
    (finish : ∀ r s, P ⟨.give r, [], s⟩)
    (own : ∀ {c d}, c.state.patience = .endless → c.seeks? = none → c.next set = .going d →
      run set c = run set d → P d → P c)
    (now : ∀ {c depth id r}, c.state.patience = .endless → c.seeks? = some (depth, id) →
      c.state.tick.2.demand (.thunk id) = .now r →
      run set c = run set ⟨.give r, c.frames, c.state.tick.2⟩ →
      P ⟨.give r, c.frames, c.state.tick.2⟩ → P c)
    (code : ∀ {c depth id t e scope y z}, c.state.patience = .endless →
      c.seeks? = some (depth, id) → c.state.tick.2.demand (.thunk id) = .code id t e scope →
      y = run set ⟨.eval depth e scope, [], c.state.tick.2.startThunk id t⟩ →
      z = y.2.finishThunk id t e.pos c.state.tick.2.place y.1 →
      run set c = run set ⟨.give z.1, c.frames, z.2⟩ →
      P ⟨.eval depth e scope, [], c.state.tick.2.startThunk id t⟩ → P ⟨.give z.1, c.frames, z.2⟩ → P c)
    (c : Machine) (hc : c.state.patience = .endless) : P c := by
  obtain ⟨n, hn⟩ := within_run set c
  induction n using Nat.strongRecOn generalizing c with
  | ind n ih =>
    cases n with
    | zero => cases hn
    | succ n =>
      cases hnext : c.next set with
      | finished r s =>
        obtain ⟨control, frames, s'⟩ := c
        rcases control with _ | _ | (_ | _) <;> rcases frames with _ | _ <;> cases hnext <;> exact finish _ _
      | going d =>
        simp only [within, hnext] at hn
        have hd := endless_next hnext hc
        have hrun := run_of_going hnext
        rw [hrun] at hn
        cases hseek : c.seeks? with
        | none => exact own hc hseek hnext hrun (ih n (Nat.lt_succ_self n) d hd hn)
        | some x =>
          obtain ⟨depth, id⟩ := x
          rw [next_seeks hseek hc, Progress.going.injEq] at hnext
          subst hnext
          cases hdemand : c.state.tick.2.demand (.thunk id) with
          | now r =>
            simp only [demand, hdemand] at hn hd hrun
            exact now hc hseek hdemand hrun (ih n (Nat.lt_succ_self n) _ hd hn)
          | code i t e scope =>
            obtain ⟨heq, -⟩ := EvalState.demand_code hdemand
            obtain rfl : id = i := by cases heq; rfl
            simp only [demand, hdemand] at hn hd hrun
            have hunder : (⟨.eval depth e scope, .thunk id t e.pos c.state.tick.2.place :: c.frames,
                c.state.tick.2.startThunk id t⟩ : Machine) =
              under ⟨.eval depth e scope, [], c.state.tick.2.startThunk id t⟩
                (.thunk id t e.pos c.state.tick.2.place :: c.frames) := rfl
            rw [hunder, run_under] at hrun
            rw [hunder, run_under] at hn
            obtain ⟨⟨m, hm, hinner⟩, k, hk, hrest⟩ := within_under hn
            have hy := ih m (by omega) _ hd hinner
            generalize hyeq : run set ⟨.eval depth e scope, [], c.state.tick.2.startThunk id t⟩ = y at *
            have hyend : y.2.patience = .endless := by
              rw [← hyeq]
              exact run_keeps (P := fun c => c.state.patience = .endless)
                (fun _ _ h hn => endless_next hn h) _ hd
            -- the frame of the thunk takes the result
            have hstep : next set ⟨.give y.1, .thunk id t e.pos c.state.tick.2.place :: c.frames, y.2⟩ =
                .going ⟨.give (y.2.finishThunk id t e.pos c.state.tick.2.place y.1).1, c.frames,
                  (y.2.finishThunk id t e.pos c.state.tick.2.place y.1).2⟩ := by
              cases y.1 <;> rfl
            cases k with
            | zero => cases hrest
            | succ k =>
              rw [run_of_going hstep] at hrest hrun
              simp only [within, hstep] at hrest
              refine code hc hseek hdemand hyeq.symm rfl hrun hy (ih k (by omega) _ ?_ hrest)
              exact (EvalState.patience_finishThunk ..).trans hyend

/-! ## What a run leaves as it was -/

/-- Nothing waits for the value of a thunk. -/
def Plain (c : Machine) : Prop := ∀ f ∈ c.frames, f.thunk? = none

theorem like_thunk? {exact : Prop} {p : Pairing} {f f' : Frame} (h : f.Like exact p f') :
    f.thunk? = none ∧ f'.thunk? = none := by
  cases h <;> exact ⟨rfl, rfl⟩

theorem Like.plain {exact : Prop} {p : Pairing} {c c' : Machine} (h : c.Like exact p c') :
    c.Plain ∧ c'.Plain := by
  have hf := h.frames
  unfold Plain
  generalize c.frames = fs at hf ⊢
  generalize c'.frames = fs' at hf ⊢
  induction hf with
  | nil => exact ⟨List.forall_mem_nil _, List.forall_mem_nil _⟩
  | cons hf _ ih =>
    exact ⟨List.forall_mem_cons.mpr ⟨(like_thunk? hf).1, ih.1⟩,
      List.forall_mem_cons.mpr ⟨(like_thunk? hf).2, ih.2⟩⟩

section
variable {frames : List Frame} {s : EvalState}

theorem plain_cons {control : Control} {f : Frame} (hf : f.thunk? = none)
    (h : ∀ f ∈ frames, f.thunk? = none) : Plain ⟨control, f :: frames, s⟩ :=
  List.forall_mem_cons.mpr ⟨hf, h⟩

variable (h : ∀ f ∈ frames, f.thunk? = none)
include h

theorem plain_demand (depth : Nat) {v : Value} (hv : ∀ id, v ≠ .thunk id) :
    Plain (demand depth v frames s) := by
  cases v with
  | thunk id => exact absurd rfl (hv id)
  | _ => exact h

theorem plain_node (depth : Nat) (e : Expr) (scope : ScopeId)
    (hseek : seeks? ⟨.eval (depth + 1) e scope, frames, s⟩ = none) :
    Plain (node depth e scope frames s) := by
  cases e with
  | var p name | qualified p mod name =>
    simp only [node]
    split
    · rename_i v hv
      refine plain_demand h depth ?_
      rintro id rfl
      simp [seeks?, hv] at hseek
    · exact h
  | app fn args | binary p op l r | negate p x | cond p test yes no => exact plain_cons rfl h
  | _ => exact h

theorem plain_arguments (depth : Nat) (pos : Pos) (fn : Value) (before : List Value)
    (after : List Expr) (scope : ScopeId) :
    Plain (arguments depth pos fn before after scope frames s) := by
  cases after with
  | nil => exact h
  | cons a as => exact plain_cons rfl h

theorem plain_resume {f : Frame} (hf : f.thunk? = none) (v : Value) : Plain (resume f v frames s) := by
  cases f with
  | function depth pos args scope => apply plain_arguments h
  | argument depth pos fn before after scope => apply plain_arguments h
  | left depth pos op right scope =>
    simp only [resume]
    split
    · split
      · exact h
      · exact h
      · exact plain_cons rfl h
    · exact plain_cons rfl h
  | right depth pos op left =>
    simp only [resume, operate]
    split
    · exact h
    · split <;> exact h
  | negate pos | test depth pos yes no scope =>
    simp only [resume]
    split <;> exact h
  | thunk id t pos place => cases hf
  | body depth pos place others => cases others <;> exact h

theorem plain_unwind {f : Frame} (hf : f.thunk? = none) (e : RuntimeError) :
    Plain (unwind f e frames s) := by
  cases f with
  | thunk id t pos place => cases hf
  | _ => exact h

end

theorem plain_next (hc : c.Plain) (hseek : c.seeks? = none) (hn : c.next set = .going d) : d.Plain := by
  obtain ⟨control, frames, s⟩ := c
  cases control with
  | eval depth e scope =>
    cases hn
    cases depth with
    | zero => exact hc
    | succ depth =>
      simp only [evaluate]
      split
      · exact hc
      · refine plain_node hc depth e scope ?_
        rw [← hseek]
        cases e <;> simp only [seeks?, heap_tick]
  | apply depth pos fn args =>
    rw [next_apply] at hn
    cases hn
    cases (Applied.round set.host pos fn args s).1 with
    | enter c scope others => exact plain_cons rfl hc
    | _ => exact hc
  | give r =>
    cases frames with
    | nil => cases r <;> cases hn
    | cons f frames =>
      have hf : f.thunk? = none := hc f List.mem_cons_self
      have hfs : ∀ g ∈ frames, g.thunk? = none := fun g hg => hc g (List.mem_cons_of_mem f hg)
      cases r with
      | ok v => cases hn; exact plain_resume hfs hf v
      | error e => cases hn; exact plain_unwind hfs hf e

theorem Plain.adds (hc : c.Plain) (hd : d.Plain) (hn : c.next set = .going d) :
    c.state.heap.Adds d.state.heap := by
  cases shift_next hn with
  | stay _ _ hheap => exact hheap
  | call _ hheap => exact .of_eq hheap
  | back _ _ hheap => exact .of_eq hheap
  | into hopen _ _ _ =>
    have hmem := List.mem_of_mem_filter (hopen ▸ List.mem_cons_self : _ ∈ d.opened)
    cases hd _ hmem
  | out hframes _ _ _ => cases hc _ (hframes ▸ List.mem_cons_self)

theorem Plain.ripens (hc : c.Plain) (hd : d.Plain) (hn : c.next set = .going d) (S : Set ScopeId) :
    c.state.heap.Ripens S d.state.heap := by
  refine Heap.ripens_of_grows (U := Heap.anyThunk) (hc.adds hd hn) ?_ S
  exact grows_next (.refl _ _) hn (fun _ _ => trivial) fun _ _ => trivial

/-- What a run has evaluated and made is there, and all else is as it was. -/
structure Rests (c : Machine) (s : EvalState) : Prop where
  ripens : c.state.heap.Ripens .univ s.heap
  forcing : ∀ id, s.heap.Forcing id ↔ c.state.heap.Forcing id
  place : s.place = c.home
  endless : s.patience = .endless

theorem Rests.forced {s s' : EvalState} {id : ThunkId} {t : Thunk} {depth : Nat} {e : Expr}
    {scope : ScopeId} (hr : Rests ⟨.eval depth e scope, [], s.startThunk id t⟩ s')
    (ht : s.heap.thunks[id]? = some t) : s'.heap.Forcing id := by
  rw [hr.forcing]
  exact (Heap.forcing_setThunk_self ht).mpr rfl

/-- After a thunk has been entered and left, all else is as it was. -/
theorem Rests.thunk {s s' : EvalState} {id : ThunkId} {t : Thunk} {depth : Nat} {e : Expr}
    {scope : ScopeId} (hr : Rests ⟨.eval depth e scope, [], s.startThunk id t⟩ s')
    (ht : s.heap.thunks[id]? = some t) (hp : t.state = .pending) {state : ThunkState}
    (hs : state ≠ .forcing) : s.heap.Ripens .univ (s'.heap.setThunk id state) ∧
      ∀ i, (s'.heap.setThunk id state).Forcing i ↔ s.heap.Forcing i := by
  have hnone : s.heap.thunkValue? id = none := Heap.thunkValue?_of_state ht (by simp [hp])
  have hforced := hr.forced ht
  refine ⟨?_, fun i => ?_⟩
  · exact ((Heap.ripens_setThunk _ hnone .forcing).trans hr.ripens).trans
      (Heap.ripens_setThunk _ hforced.thunkValue? state)
  · by_cases hi : i = id
    · subst hi
      obtain ⟨t', ht', -⟩ := hforced
      rw [Heap.forcing_setThunk_self ht']
      refine iff_of_false hs ?_
      rintro ⟨t'', ht'', hf⟩
      obtain rfl := Option.some.inj (ht.symm.trans ht'')
      rw [hp] at hf
      cases hf
    · rw [Heap.forcing_setThunk_ne hi, hr.forcing i]
      exact Heap.forcing_setThunk_ne hi

/-- A thunk that is evaluated is left when the run of its expression is over. -/
theorem run_demand_code {depth : Nat} {s : EvalState} {id : ThunkId} {t : Thunk} {e : Expr}
    {scope : ScopeId} (hd : s.demand v = .code id t e scope) : run set (demand depth v [] s) =
      (run set ⟨.eval depth e scope, [], s.startThunk id t⟩).2.finishThunk id t e.pos s.place
        (run set ⟨.eval depth e scope, [], s.startThunk id t⟩).1 := by
  have hunder : demand depth v [] s =
      under ⟨.eval depth e scope, [], s.startThunk id t⟩ [.thunk id t e.pos s.place] := by
    simp only [demand, hd]
    rfl
  rw [hunder, run_under]
  generalize run set ⟨.eval depth e scope, [], s.startThunk id t⟩ = y
  have hstep : next set ⟨.give y.1, [.thunk id t e.pos s.place], y.2⟩ =
      .going ⟨.give (y.2.finishThunk id t e.pos s.place y.1).1, [],
        (y.2.finishThunk id t e.pos s.place y.1).2⟩ := by
    cases y.1 <;> rfl
  rw [run_of_going hstep, run_of_finished (next_finishes _ _)]

theorem rests_run (set : Setting) (c : Machine) (he : c.state.patience = .endless) (hc : c.Plain) :
    c.Rests (run set c).2 := by
  refine run_induct set (P := fun c => c.state.patience = .endless → c.Plain → c.Rests (run set c).2)
    ?_ ?_ ?_ ?_ c he he hc
  · intro r s he _
    rw [run_of_finished (next_finishes r s)]
    exact ⟨.refl _ _, fun _ => Iff.rfl, rfl, he⟩
  · intro c d _ hseek hn hrun ih he hc
    have hd := plain_next hc hseek hn
    have hrest := ih (endless_next hn he) hd
    rw [hrun]
    exact ⟨(hc.ripens hd hn _).trans hrest.ripens,
      fun id => (hrest.forcing id).trans ((hc.adds hd hn).forcing id),
      hrest.place.trans (home_shift (shift_next hn)), hrest.endless⟩
  · intro c depth id r _ hseek _ hrun ih he hc
    obtain ⟨patience, htick, hp⟩ := tick_eq c.state
    have hrest := ih (by rw [htick]; exact (hp he).1) hc
    have hheap := heap_tick c.state
    have hhome : home ⟨.give r, c.frames, c.state.tick.2⟩ = c.home := by rw [htick]; rfl
    rw [hrun]
    exact ⟨hheap ▸ hrest.ripens, fun id => by rw [hrest.forcing id, hheap], hrest.place.trans hhome,
      hrest.endless⟩
  · rintro c depth id t e scope y z _ hseek hdemand rfl rfl hrun ihy ihz he hc
    obtain ⟨patience, htick, hpatience⟩ := tick_eq c.state
    have hendless : c.state.tick.2.patience = .endless := by rw [htick]; exact (hpatience he).1
    have hplace : c.state.tick.2.place = c.state.place := by rw [htick]
    obtain ⟨ht, hp⟩ := EvalState.demand_pending hdemand
    have hy := ihy hendless (List.forall_mem_nil _)
    generalize run set ⟨.eval depth e scope, [], c.state.tick.2.startThunk id t⟩ = y at *
    obtain ⟨state, hs, hz⟩ := y.2.finishThunk_state id t e.pos c.state.tick.2.place y.1
    obtain ⟨hripens, hforcing⟩ := hy.thunk ht hp hs
    generalize y.2.finishThunk id t e.pos c.state.tick.2.place y.1 = z at *
    obtain ⟨r, s⟩ := z
    obtain rfl := hz
    have hrest := ihz hy.endless hc
    rw [heap_tick] at hripens hforcing
    rw [hrun]
    refine ⟨hripens.trans hrest.ripens, fun i => (hrest.forcing i).trans (hforcing i), ?_, hrest.endless⟩
    rw [hrest.place]
    simp only [home, opened, hplace]

end Machine

end LazySession
