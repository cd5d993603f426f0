import LazySession.Eval.Run
import LazySession.Proofs.Eval.Primitive

/-!
# Evaluation only adds to the heap

A step of the machine makes new scopes, thunks and cells. It changes nothing that was there but the
state of one thunk: `Machine.grows_next`. The scopes of closures and of thunks therefore hold for
ever what they were made with.
-/

namespace LazySession

namespace Machine

variable {set : Setting} {P : Machine → Prop}

theorem run_keeps (step : ∀ c c', P c → c.next set = .going c' → P c') (c : Machine) (h : P c) :
    P ⟨.give (run set c).1, [], (run set c).2⟩ := by
  induction c using (wellFounded set).induction with
  | _ c ih =>
    cases hc : c.next set with
    | going c' =>
      rw [run_of_going hc]
      exact ih c' hc (step c c' h hc)
    | finished r s =>
      rw [run_of_finished hc]
      -- only a result without frames is an end
      obtain ⟨control, frames, s'⟩ := c
      rcases control with _ | _ | (_ | _) <;> rcases frames with _ | _ <;> cases hc <;> exact h

end Machine

namespace Heap

/-- `h'` has everything that `h` has. Only thunks with `T` may be in another state. -/
structure Grows (T : ThunkId → Prop) (h h' : Heap) : Prop where
  scopes : ∀ (id : ScopeId) (s : Scope), h.scopes[id]? = some s → h'.scopes[id]? = some s
  thunks : ∀ (id : ThunkId) (t : Thunk), h.thunks[id]? = some t →
    ∃ state, h'.thunks[id]? = some { t with state } ∧ (¬ T id → state = t.state)
  cells : ∀ (id : CellId) (c : Option Value), h.cells[id]? = some c → h'.cells[id]? = some c

/-- Any thunk. -/
def anyThunk : ThunkId → Prop := fun _ => True

namespace Grows

variable {T : ThunkId → Prop} {h h' h'' : Heap}

theorem refl (T : ThunkId → Prop) (h : Heap) : h.Grows T h where
  scopes _ _ hs := hs
  thunks _ t ht := ⟨t.state, ht, fun _ => rfl⟩
  cells _ _ hc := hc

theorem trans (g : h.Grows T h') (g' : h'.Grows T h'') : h.Grows T h'' where
  scopes id s hs := g'.scopes id s (g.scopes id s hs)
  thunks id t ht := by
    obtain ⟨state, ht', hT⟩ := g.thunks id t ht
    obtain ⟨state', ht'', hT'⟩ := g'.thunks id _ ht'
    exact ⟨state', ht'', fun hn => (hT' hn).trans (hT hn)⟩
  cells id c hc := g'.cells id c (g.cells id c hc)

theorem scopes_size (g : h.Grows T h') : h.scopes.size ≤ h'.scopes.size := by
  refine Nat.le_of_not_lt fun hlt => ?_
  have hs := g.scopes _ _ (Array.getElem?_eq_getElem hlt)
  exact Nat.lt_irrefl _ (Array.getElem?_eq_some_iff.mp hs).1

theorem thunks_size (g : h.Grows T h') : h.thunks.size ≤ h'.thunks.size := by
  refine Nat.le_of_not_lt fun hlt => ?_
  obtain ⟨_, ht, _⟩ := g.thunks _ _ (Array.getElem?_eq_getElem hlt)
  exact Nat.lt_irrefl _ (Array.getElem?_eq_some_iff.mp ht).1

theorem newScope (g : h.Grows T h') (vars : Table Value) (outer : Option ScopeId) :
    h.Grows T (h'.newScope vars outer).2 where
  scopes id s hs := by
    have := g.scopes id s hs
    simp only [Heap.newScope, Array.getElem?_push]
    rw [if_neg]
    · exact this
    · have := (Array.getElem?_eq_some_iff.mp this).1
      omega
  thunks := g.thunks
  cells := g.cells

theorem newThunk (g : h.Grows T h') (t : Thunk) : h.Grows T (h'.newThunk t).2 where
  scopes := g.scopes
  thunks id t ht := by
    obtain ⟨state, this, hT⟩ := g.thunks id t ht
    refine ⟨state, ?_, hT⟩
    simp only [Heap.newThunk, Array.getElem?_push]
    rw [if_neg]
    · exact this
    · have := (Array.getElem?_eq_some_iff.mp this).1
      omega
  cells := g.cells

theorem setThunk (g : h.Grows T h') {id : ThunkId} (hid : T id) (state : ThunkState) :
    h.Grows T (h'.setThunk id state) where
  scopes := g.scopes
  thunks i t ht := by
    obtain ⟨st, this, hT⟩ := g.thunks i t ht
    by_cases hi : id = i
    · exact ⟨state, by simp [Heap.setThunk, Array.getElem?_modify, hi, this],
        fun hn => absurd (hi ▸ hid) hn⟩
    · exact ⟨st, by simp [Heap.setThunk, Array.getElem?_modify, hi, this], hT⟩
  cells := g.cells

theorem setVar (g : h.Grows T h') {id : ScopeId} (hid : h.scopes.size ≤ id) (name : String)
    (v : Value) : h.Grows T (h'.setVar id name v) where
  scopes i s hs := by
    have hi : i < h.scopes.size := (Array.getElem?_eq_some_iff.mp hs).1
    have hne : ¬ id = i := fun he => Nat.not_le_of_lt hi (he ▸ hid)
    simp [Heap.setVar, Array.getElem?_modify, hne, g.scopes i s hs]
  thunks := g.thunks
  cells := g.cells

theorem newCell (g : h.Grows T h') (v : Option Value) : h.Grows T (h'.newCell v).2 where
  scopes := g.scopes
  thunks := g.thunks
  cells id c hc := by
    have := g.cells id c hc
    simp only [Heap.newCell, Array.getElem?_push]
    rw [if_neg]
    · exact this
    · have := (Array.getElem?_eq_some_iff.mp this).1
      omega

theorem newBinding (g : h.Grows T h') (b : Binding) (scope : ScopeId) (source : String)
    (want : Option BaseType) : h.Grows T (h'.newBinding b scope source want).2 := by
  unfold Heap.newBinding
  split
  · exact g
  · exact g.newThunk _

theorem newBindings {scope : ScopeId} (hs : h.scopes.size ≤ scope) (source : String)
    (bs : List Binding) : ∀ {h' : Heap}, h.Grows T h' → h.Grows T (h'.newBindings bs scope source) := by
  induction bs with
  | nil => exact fun g => g
  | cons b bs ih => exact fun g => ih ((g.newBinding b scope source none).setVar hs _ _)

end Grows

end Heap

/-! ## Steps -/

section
variable {T : ThunkId → Prop} {h : Heap} {set : Setting}

theorem Builtin.grows_call {h' h'' : Heap} (g : h.Grows T h') {b : Builtin} {args : List Value}
    {v : Value} (hc : b.call h' args = .ok (v, h'')) : h.Grows T h'' := by
  obtain ⟨a, _, _, _, rfl⟩ | ⟨_, _, _, _, rfl⟩ | ⟨_, rfl⟩ := Builtin.call_cases hc
  · exact g.newCell _
  · exact g
  · exact g

theorem Applied.grows_round {s : EvalState} (g : h.Grows T s.heap) (lib : HostLibrary) (pos : Pos)
    (fn : Value) (args : List Value) : h.Grows T (round lib pos fn args s).2.heap := by
  unfold round
  split
  · exact g
  · rename_i f before _
    simp only
    split
    · exact g
    · cases f with
      | closure c =>
        simp only [call]
        split
        · exact g
        · exact g.newScope _ _
      | builtin b =>
        simp only [call]
        split
        · exact g
        · rename_i hc
          exact Builtin.grows_call g hc
      | host d =>
        simp only [call]
        split <;> exact g

theorem EvalState.grows_tick {s : EvalState} (g : h.Grows T s.heap) : h.Grows T s.tick.2.heap := by
  unfold tick
  simp only
  split <;> exact g

theorem EvalState.grows_finishThunk {s : EvalState} (g : h.Grows T s.heap) {id : ThunkId}
    (hid : T id) (t : Thunk) (pos : Pos) (place : Place) (r : Except RuntimeError Value) :
    h.Grows T (s.finishThunk id t pos place r).2.heap := by
  cases r with
  | error e => exact g.setThunk hid _
  | ok v =>
    simp only [finishThunk]
    split
    · exact g.setThunk hid _
    · split <;> exact g.setThunk hid _

/-- The thunk that a frame comes back from. -/
def Frame.thunk? : Frame → Option ThunkId
  | .thunk id _ _ _ => some id
  | _ => none

namespace Machine

/-- The thunks that are being evaluated. -/
def held (c : Machine) : List ThunkId := c.frames.filterMap Frame.thunk?

theorem grows_demand {s : EvalState} (g : h.Grows T s.heap) {depth : Nat} {v : Value}
    {frames : List Frame} (hT : ∀ id ∈ (demand depth v frames s).held, T id) :
    h.Grows T (demand depth v frames s).state.heap := by
  unfold demand at *
  split
  · exact g
  · rename_i id t e scope hd
    simp only [hd] at hT
    exact g.setThunk (hT id (List.mem_cons_self ..)) _

theorem grows_arguments {s : EvalState} (g : h.Grows T s.heap) (depth : Nat) (pos : Pos)
    (fn : Value) (before : List Value) (after : List Expr) (scope : ScopeId)
    (frames : List Frame) :
    h.Grows T (arguments depth pos fn before after scope frames s).state.heap := by
  cases after <;> exact g

theorem grows_operate {s : EvalState} (g : h.Grows T s.heap) (depth : Nat) (pos : Pos)
    (op : Operator) (l r : Value) (frames : List Frame) :
    h.Grows T (operate depth pos op l r frames s).state.heap := by
  unfold operate
  split
  · exact g
  · split <;> exact g

theorem grows_node {s : EvalState} (g : h.Grows T s.heap) {depth : Nat} {e : Expr}
    {scope : ScopeId} {frames : List Frame}
    (hT : ∀ id ∈ (node depth e scope frames s).held, T id) :
    h.Grows T (node depth e scope frames s).state.heap := by
  cases e with
  | var p name | qualified p mod name =>
    unfold node at hT ⊢
    simp only at hT ⊢
    split
    · rename_i v hv
      simp only [hv] at hT
      exact grows_demand g hT
    · exact g
  | operator p op => exact g.newScope _ _
  | letIn p binds body =>
    -- the names come into a scope that is new
    exact (g.newScope _ _).newBindings g.scopes_size _ _
  | _ => exact g

theorem grows_resume {s : EvalState} (g : h.Grows T s.heap) {f : Frame}
    (hT : ∀ id, f.thunk? = some id → T id) (v : Value) (frames : List Frame) :
    h.Grows T (resume f v frames s).state.heap := by
  cases f with
  | function depth pos args scope => exact grows_arguments g _ _ _ _ _ _ _
  | argument depth pos fn before after scope => exact grows_arguments g _ _ _ _ _ _ _
  | left depth pos op right scope =>
    simp only [resume]
    split
    · split <;> exact g
    · exact g
  | right depth pos op left => exact grows_operate g _ _ _ _ _ _
  | negate pos => simp only [resume]; split <;> exact g
  | test depth pos yes no scope => simp only [resume]; split <;> exact g
  | thunk id t pos place =>
    simp only [resume]
    exact EvalState.grows_finishThunk g (hT id rfl) _ _ _ _
  | body depth pos place others => cases others <;> exact g

theorem grows_unwind {s : EvalState} (g : h.Grows T s.heap) {f : Frame}
    (hT : ∀ id, f.thunk? = some id → T id) (e : RuntimeError) (frames : List Frame) :
    h.Grows T (unwind f e frames s).state.heap := by
  cases f with
  | thunk id t pos place =>
    simp only [unwind]
    exact EvalState.grows_finishThunk g (hT id rfl) _ _ _ _
  | _ => exact g

theorem grows_next {c c' : Machine} (g : h.Grows T c.state.heap) (hn : c.next set = .going c')
    (hc : ∀ id ∈ c.held, T id) (hc' : ∀ id ∈ c'.held, T id) : h.Grows T c'.state.heap := by
  obtain ⟨control, frames, s⟩ := c
  cases control with
  | eval depth e scope =>
    cases hn
    cases depth with
    | zero => exact g
    | succ depth =>
      simp only [evaluate] at hc' ⊢
      split at hc' <;> rename_i ht <;> simp only [ht]
      · exact EvalState.grows_tick g
      · exact grows_node (EvalState.grows_tick g) hc'
  | apply depth pos fn args =>
    rw [next_apply] at hn
    cases hn
    have g' := Applied.grows_round g set.host pos fn args
    generalize Applied.round set.host pos fn args s = p at g'
    obtain ⟨a, s'⟩ := p
    cases a <;> exact g'
  | give r =>
    cases frames with
    | nil => cases r <;> cases hn
    | cons f frames =>
      have hf : ∀ id, f.thunk? = some id → T id :=
        fun id hid => hc id (List.mem_filterMap.mpr ⟨f, List.mem_cons_self, hid⟩)
      cases r with
      | ok v => cases hn; exact grows_resume g hf _ _
      | error e => cases hn; exact grows_unwind g hf _ _

theorem grows_run (set : Setting) (c : Machine) :
    c.state.heap.Grows Heap.anyThunk (run set c).2.heap :=
  run_keeps (P := fun c' => c.state.heap.Grows Heap.anyThunk c'.state.heap)
    (fun _ _ g hn => grows_next g hn (fun _ _ => trivial) fun _ _ => trivial) c (.refl _ _)

end Machine

theorem EvalState.grows_force (set : Setting) (s : EvalState) (v : Value) :
    s.heap.Grows Heap.anyThunk (s.force set v).2.heap :=
  (Machine.grows_demand (.refl _ _) fun _ _ => trivial).trans (Machine.grows_run _ _)

end

end LazySession
