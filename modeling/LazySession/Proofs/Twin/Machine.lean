import LazySession.Eval.Run
import LazySession.Proofs.Twin.Calls

/-!
# Machines in step

`Machine.Twin o p c c'`: two machines are at the same point of the same work, in heaps that are
twins. `Machine.twin_next`: so they are after one step, with more addresses paired if the step has
made something. `Machine.twin_run`: two runs come to the same.
-/

namespace LazySession

/-! ## States -/

namespace EvalState

variable {o : Outside} {p : Pairing} {s s' : EvalState}

theorem Twin.tick (h : s.Twin o p s') : s'.tick.1 = s.tick.1 ∧ s.tick.2.Twin o p s'.tick.2 := by
  obtain ⟨heap, same⟩ := h
  obtain ⟨heap', patience, steps, place⟩ := s'
  cases same
  unfold EvalState.tick
  simp only
  split
  · exact ⟨rfl, heap, rfl⟩
  · exact ⟨rfl, heap, rfl⟩

theorem Twin.enter (h : s.Twin o p s') (source name : String) :
    (s.enter source name).Twin o p (s'.enter source name) :=
  ⟨h.heap, by rw [h.same]; rfl⟩

theorem Twin.leave (h : s.Twin o p s') (place : Place) : (s.leave place).Twin o p (s'.leave place) :=
  ⟨h.heap, by rw [h.same]; rfl⟩

end EvalState

/-- What a frame remembers of a thunk is the same. -/
structure Thunk.Alike (t t' : Thunk) : Prop where
  name : t'.name = t.name
  source : t'.source = t.source
  want : t'.want = t.want

theorem Thunk.Twin.alike {p : Pairing} {t t' : Thunk} (h : t.Twin p t') : t.Alike t' :=
  ⟨h.name, h.source, h.want⟩

/-- What it takes to get at a value: twins, or the code of thunks that are paired. -/
inductive Demand.Twin (p : Pairing) : Demand → Demand → Prop
  | now {r r' : Except RuntimeError Value} (h : Agrees (Value.Twin p) r r') :
    Twin p (.now r) (.now r')
  | code {a b : ThunkId} {t t' : Thunk} {x y : ScopeId} (hab : p.thunks a b) (ht : t.Alike t')
    (e : Expr) (hxy : p.scopes x y) : Twin p (.code a t e x) (.code b t' e y)

namespace EvalState

variable {o : Outside} {p : Pairing} {s s' : EvalState}

theorem Twin.demand (h : s.Twin o p s') {v v' : Value} (hv : v.Held p v') :
    (s.demand v).Twin p (s'.demand v') := by
  cases hv with
  | value hv =>
    have hnow : ∀ {s : EvalState} {v : Value}, (∀ id, v ≠ .thunk id) → s.demand v = .now (.ok v) := by
      intro s v hne
      cases v with
      | thunk id => exact absurd rfl (hne id)
      | _ => rfl
    rw [hnow hv.not_thunk.1, hnow hv.not_thunk.2]
    exact .now (.ok hv)
  | thunk hab =>
    obtain ⟨t, t', ht, ht', htwin⟩ := h.heap.thunks.related hab
    simp only [EvalState.demand, ht, ht']
    have hstate := htwin.state
    generalize t.state = st at hstate ⊢
    generalize t'.state = st' at hstate ⊢
    rcases rel_cases htwin.code with ⟨hc, hc'⟩ | ⟨⟨e, x⟩, ⟨e', y⟩, hc, hc', rfl, hxy⟩
    · simp only [hc, hc', htwin.name, h.error]
      cases hstate with
      | pending => exact .now (.error _)
      | forcing => exact .now (.error _)
      | done hv => exact .now (.ok hv)
    · simp only [hc, hc', htwin.name, h.error]
      cases hstate with
      | pending => exact .code hab htwin.alike e' hxy
      | forcing => exact .now (.error _)
      | done hv => exact .now (.ok hv)

theorem Twin.startThunk (h : s.Twin o p s') {a b : ThunkId} (hab : p.thunks a b) {t t' : Thunk}
    (ht : t.Alike t') : (s.startThunk a t).Twin o p (s'.startThunk b t') := by
  unfold EvalState.startThunk
  rw [ht.source, ht.name]
  exact (h.enter t.source t.name).withHeap (h.heap.setThunk hab .forcing)

theorem Twin.finishThunk (h : s.Twin o p s') {a b : ThunkId} (hab : p.thunks a b) {t t' : Thunk}
    (ht : t.Alike t') (pos : Pos) (place : Place) {r r' : Except RuntimeError Value}
    (hr : Agrees (Value.Twin p) r r') :
    Agrees (Value.Twin p) (s.finishThunk a t pos place r).1 (s'.finishThunk b t' pos place r').1 ∧
      (s.finishThunk a t pos place r).2.Twin o p (s'.finishThunk b t' pos place r').2 := by
  have hback : ∀ {st st' : ThunkState}, st.Twin p st' →
      Twin o p { s.leave place with heap := (s.leave place).heap.setThunk a st }
        { s'.leave place with heap := (s'.leave place).heap.setThunk b st' } :=
    fun hst => (h.leave place).withHeap (h.heap.setThunk hab hst)
  cases hr with
  | error e => exact ⟨.error e, hback .pending⟩
  | @ok v v' hv =>
    simp only [EvalState.finishThunk, ht.want, ht.source, ht.name]
    cases t.want with
    | none => exact ⟨.ok hv, hback (.done hv)⟩
    | some want =>
      simp only [hv.conforms, hv.typeName]
      split
      · exact ⟨.ok hv, hback (.done hv)⟩
      · exact ⟨.error _, hback .pending⟩

end EvalState

/-! ## Machines -/

inductive Frame.Twin (p : Pairing) : Frame → Frame → Prop
  | function (depth : Nat) (pos : Pos) (args : List Expr) {a b : ScopeId} (hab : p.scopes a b) :
    Twin p (.function depth pos args a) (.function depth pos args b)
  | argument (depth : Nat) (pos : Pos) {fn fn' : Value} (hf : fn.Twin p fn')
    {before before' : List Value} (hb : Value.Twins p before before') (after : List Expr)
    {a b : ScopeId} (hab : p.scopes a b) :
    Twin p (.argument depth pos fn before after a) (.argument depth pos fn' before' after b)
  | left (depth : Nat) (pos : Pos) (op : Operator) (right : Expr) {a b : ScopeId}
    (hab : p.scopes a b) : Twin p (.left depth pos op right a) (.left depth pos op right b)
  | right (depth : Nat) (pos : Pos) (op : Operator) {l l' : Value} (hl : l.Twin p l') :
    Twin p (.right depth pos op l) (.right depth pos op l')
  | negate (pos : Pos) : Twin p (.negate pos) (.negate pos)
  | test (depth : Nat) (pos : Pos) (yes no : Expr) {a b : ScopeId} (hab : p.scopes a b) :
    Twin p (.test depth pos yes no a) (.test depth pos yes no b)
  | thunk {a b : ThunkId} (hab : p.thunks a b) {t t' : Thunk} (ht : t.Alike t') (pos : Pos)
    (place : Place) : Twin p (.thunk a t pos place) (.thunk b t' pos place)
  | body (depth : Nat) (pos : Pos) (place : Place) {others others' : List Value}
    (ho : Value.Twins p others others') :
    Twin p (.body depth pos place others) (.body depth pos place others')

inductive Control.Twin (p : Pairing) : Control → Control → Prop
  | eval (depth : Nat) (e : Expr) {a b : ScopeId} (hab : p.scopes a b) :
    Twin p (.eval depth e a) (.eval depth e b)
  | apply (depth : Nat) (pos : Pos) {fn fn' : Value} (hf : fn.Twin p fn') {args args' : List Value}
    (ha : Value.Twins p args args') : Twin p (.apply depth pos fn args) (.apply depth pos fn' args')
  | give {r r' : Except RuntimeError Value} (hr : Agrees (Value.Twin p) r r') :
    Twin p (.give r) (.give r')

abbrev Frame.Twins (p : Pairing) : List Frame → List Frame → Prop := List.Forall₂ (Frame.Twin p)

theorem Frame.Twin.mono {p q : Pairing} {f f' : Frame} (h : f.Twin p f') (hw : p.Within q) :
    f.Twin q f' := by
  cases h with
  | function depth pos args hab => exact .function depth pos args (hw.scopes hab)
  | argument depth pos hf hb after hab =>
    exact .argument depth pos (hf.mono hw) (hb.mono hw) after (hw.scopes hab)
  | left depth pos op right hab => exact .left depth pos op right (hw.scopes hab)
  | right depth pos op hl => exact .right depth pos op (hl.mono hw)
  | negate pos => exact .negate pos
  | test depth pos yes no hab => exact .test depth pos yes no (hw.scopes hab)
  | thunk hab ht pos place => exact .thunk (hw.thunks hab) ht pos place
  | body depth pos place ho => exact .body depth pos place (ho.mono hw)

theorem Frame.Twins.mono {p q : Pairing} {fs fs' : List Frame} (h : Twins p fs fs')
    (hw : p.Within q) : Twins q fs fs' :=
  h.imp fun _ _ hf => hf.mono hw

structure Machine.Twin (o : Outside) (p : Pairing) (c c' : Machine) : Prop where
  control : c.control.Twin p c'.control
  frames : Frame.Twins p c.frames c'.frames
  state : c.state.Twin o p c'.state

namespace Machine

variable {o : Outside} {p q : Pairing} {frames frames' : List Frame} {s s' : EvalState}

/-- The machines are twins for a pairing that has more than `p`. -/
def Together (o : Outside) (p : Pairing) (c c' : Machine) : Prop := ∃ q, p.Within q ∧ c.Twin o q c'

theorem Twin.together {c c' : Machine} (h : c.Twin o p c') : Together o p c c' := ⟨p, .refl p, h⟩

section
variable (hf : Frame.Twins p frames frames') (hs : s.Twin o p s')
include hf hs

theorem twin_value {v v' : Value} (hv : v.Twin p v') :
    (value v frames s).Twin o p (value v' frames' s') :=
  ⟨.give (.ok hv), hf, hs⟩

theorem twin_error (pos : Pos) (fault : RuntimeFault) :
    (error pos fault frames s).Twin o p (error pos fault frames' s') := by
  refine ⟨?_, hf, hs⟩
  simp only [error, hs.error]
  exact .give (.error _)

theorem twin_demand (depth : Nat) {v v' : Value} (hv : v.Held p v') :
    (demand depth v frames s).Twin o p (demand depth v' frames' s') := by
  unfold demand
  have hd := hs.demand hv
  generalize s.demand v = d at hd ⊢
  generalize s'.demand v' = d' at hd ⊢
  cases hd with
  | now hr => exact ⟨.give hr, hf, hs⟩
  | code hab ht e hxy =>
    simp only [hs.place]
    exact ⟨.eval depth e hxy, .cons (.thunk hab ht e.pos s.place) hf, hs.startThunk hab ht⟩

theorem twin_arguments (depth : Nat) (pos : Pos) {fn fn' : Value} (hfn : fn.Twin p fn')
    {before before' : List Value} (hb : Value.Twins p before before') (after : List Expr)
    {a b : ScopeId} (hab : p.scopes a b) :
    (arguments depth pos fn before after a frames s).Twin o p
      (arguments depth pos fn' before' after b frames' s') := by
  cases after with
  | nil => exact ⟨.apply depth pos hfn (List.rel_reverse hb), hf, hs⟩
  | cons e es => exact ⟨.eval depth e hab, .cons (.argument depth pos hfn hb es hab) hf, hs⟩

theorem twin_operate (depth : Nat) (pos : Pos) (op : Operator) {l l' r r' : Value}
    (hl : l.Twin p l') (hr : r.Twin p r') :
    (operate depth pos op l r frames s).Twin o p (operate depth pos op l' r' frames' s') := by
  unfold operate
  split
  · exact ⟨.apply depth pos hl (.cons hr .nil), hf, hs⟩
  · rw [op.eval_twin hl hr]
    split
    · rename_i v he
      exact twin_value hf hs (Value.twin_of_isPlain (Operator.isPlain_eval he))
    · exact twin_error hf hs pos _

/-! ### Expressions -/

theorem twin_lookup (depth : Nat) (p' : Pos) (x : String) {a b : ScopeId} (hab : p.scopes a b) :
    Twin o p
      (match s.heap.lookup a x with
        | some v => demand depth v frames s
        | none => error p' (.undefined x) frames s)
      (match s'.heap.lookup b x with
        | some v => demand depth v frames' s'
        | none => error p' (.undefined x) frames' s') := by
  rcases rel_cases (hs.heap.lookup x a hab) with ⟨hx, hx'⟩ | ⟨v, v', hx, hx', hv⟩
  · simp only [hx, hx']
    exact twin_error hf hs p' _
  · simp only [hx, hx']
    exact twin_demand hf hs depth hv

theorem together_node (depth : Nat) (e : Expr) {a b : ScopeId} (hab : p.scopes a b) :
    Together o p (node depth e a frames s) (node depth e b frames' s') := by
  cases e with
  | int pos v => exact (twin_value hf hs (.int v)).together
  | str pos v => exact (twin_value hf hs (.str v)).together
  | bool pos v => exact (twin_value hf hs (.bool v)).together
  | unit pos => exact (twin_value hf hs .unit).together
  | var pos x => exact (twin_lookup hf hs depth pos x hab).together
  | qualified pos mod x => exact (twin_lookup hf hs depth pos _ hab).together
  | app fn args => exact ⟨p, .refl p, .eval depth fn hab, .cons (.function depth fn.pos args hab) hf, hs⟩
  | binary pos op l r => exact ⟨p, .refl p, .eval depth l hab, .cons (.left depth pos op r hab) hf, hs⟩
  | negate pos x => exact ⟨p, .refl p, .eval depth x hab, .cons (.negate pos) hf, hs⟩
  | operator pos op =>
    have hw := p.within_addScope (a := s.heap.scopes.size) (b := s'.heap.scopes.size)
    refine ⟨_, hw, twin_value (hf.mono hw) (hs.withHeap (hs.heap.newScope .nil .none)) ?_⟩
    exact .closure ⟨.inr ⟨rfl, rfl⟩, by rw [hs.place]; rfl⟩
  | lambda pos param ps body =>
    exact (twin_value hf hs (.closure ⟨hab, by rw [hs.place]⟩)).together
  | letIn pos binds body =>
    have hw := p.within_addScope (a := s.heap.scopes.size) (b := s'.heap.scopes.size)
    have hnew := hs.heap.newScope (.nil : Table.Twin (Value.Held p) [] []) (.some hab)
    obtain ⟨q, hq, hheap⟩ := Heap.Twin.newBindings s.place.source binds hnew (.inr ⟨rfl, rfl⟩)
    refine ⟨q, hw.trans hq.within, .eval depth body (hq.within.scopes (.inr ⟨rfl, rfl⟩)),
      hf.mono (hw.trans hq.within), ?_⟩
    simp only [node]
    rw [congrArg Place.source hs.place]
    exact hs.withHeap hheap
  | cond pos test yes no =>
    exact ⟨p, .refl p, .eval depth test hab, .cons (.test depth test.pos yes no hab) hf, hs⟩

theorem together_evaluate (set : Setting) (depth : Nat) (e : Expr) {a b : ScopeId}
    (hab : p.scopes a b) :
    Together o p (evaluate set depth e a frames s) (evaluate set depth e b frames' s') := by
  cases depth with
  | zero => exact (twin_error hf hs e.pos _).together
  | succ depth =>
    obtain ⟨hstop, htick⟩ := hs.tick
    simp only [evaluate, hstop]
    split
    · refine ⟨p, .refl p, ?_, hf, htick⟩
      simp only [htick.error]
      exact .give (.error _)
    · exact together_node hf htick depth e hab

/-! ### Values and errors -/

theorem twin_resume {f f' : Frame} (hframe : f.Twin p f') {v v' : Value} (hv : v.Twin p v') :
    (resume f v frames s).Twin o p (resume f' v' frames' s') := by
  cases hframe with
  | function depth pos args hab => exact twin_arguments hf hs depth pos hv .nil args hab
  | argument depth pos hfn hb after hab =>
    exact twin_arguments hf hs depth pos hfn (.cons hv hb) after hab
  | left depth pos op right hab =>
    have hright : Twin o p ⟨.eval depth right _, .right depth pos op v :: frames, s⟩
        ⟨.eval depth right _, .right depth pos op v' :: frames', s'⟩ :=
      ⟨.eval depth right hab, .cons (.right depth pos op hv) hf, hs⟩
    simp only [resume, op.shortcut_twin hv]
    split
    · split
      · exact twin_error hf hs pos _
      · exact twin_value hf hs (.bool _)
      · exact hright
    · exact hright
  | right depth pos op hl => exact twin_operate hf hs depth pos op hl hv
  | negate pos =>
    simp only [resume, hv.int?, hv.typeName]
    split
    · exact twin_value hf hs (.int _)
    · exact twin_error hf hs pos _
  | test depth pos yes no hab =>
    simp only [resume, hv.bool?, hv.typeName]
    split
    · exact ⟨.eval depth _ hab, hf, hs⟩
    · exact twin_error hf hs pos _
  | thunk hab ht pos place =>
    obtain ⟨hr, hs'⟩ := hs.finishThunk hab ht pos place (.ok hv)
    exact ⟨.give hr, hf, hs'⟩
  | body depth pos place ho =>
    cases ho with
    | nil => exact twin_value hf (hs.leave place) hv
    | cons h hrest => exact ⟨.apply depth pos hv (.cons h hrest), hf, hs.leave place⟩

theorem twin_unwind {f f' : Frame} (hframe : f.Twin p f') (e : RuntimeError) :
    (unwind f e frames s).Twin o p (unwind f' e frames' s') := by
  cases hframe with
  | thunk hab ht pos place =>
    obtain ⟨hr, hs'⟩ := hs.finishThunk hab ht pos place (.error e)
    exact ⟨.give hr, hf, hs'⟩
  | body depth pos place ho => exact ⟨.give (.error e), hf, hs.leave place⟩
  | _ => exact ⟨.give (.error e), hf, hs⟩

theorem twin_applied (depth : Nat) (pos : Pos) {a a' : Applied} (ha : a.Twin p a') :
    (applied depth pos a frames s).Twin o p (applied depth pos a' frames' s') := by
  cases ha with
  | done hr => exact ⟨.give hr, hf, hs⟩
  | enter hc hab ho =>
    simp only [applied, hc.body, hc.source, hc.traceName, hs.place]
    exact ⟨.eval depth _ hab, .cons (.body depth pos s.place ho) hf, hs.enter _ _⟩
  | again hfn ho => exact ⟨.apply depth pos hfn ho, hf, hs⟩

end

/-! ## Steps and runs -/

/-- Both machines have gone on, or both have ended with the same. -/
inductive TwinProgress (o : Outside) (p : Pairing) : Progress → Progress → Prop
  | going {c c' : Machine} (h : Together o p c c') : TwinProgress o p (.going c) (.going c')
  | finished {r r' : Except RuntimeError Value} {s s' : EvalState}
    (hr : Agrees (Value.Twin p) r r') (hs : s.Twin o p s') :
    TwinProgress o p (.finished r s) (.finished r' s')

theorem twin_next {set : Setting} (hlib : set.host.Natural) {c c' : Machine} (h : c.Twin o p c') :
    TwinProgress o p (c.next set) (c'.next set) := by
  obtain ⟨control, frames, s⟩ := c
  obtain ⟨control', frames', s'⟩ := c'
  obtain ⟨hc, hf, hs⟩ := h
  cases hc with
  | eval depth e hab => exact .going (together_evaluate hf hs set depth e hab)
  | apply depth pos hfn ha =>
    obtain ⟨q, hq, happlied, hs'⟩ := Applied.twin_round hlib hs pos hfn ha
    exact .going ⟨q, hq, twin_applied (hf.mono hq) hs' depth pos happlied⟩
  | give hr =>
    cases hf with
    | nil => exact .finished hr hs
    | cons hframe hf =>
      cases hr with
      | ok hv => exact .going (twin_resume hf hs hframe hv).together
      | error e => exact .going (twin_unwind hf hs hframe e).together

theorem twin_run {set : Setting} (hlib : set.host.Natural) (c : Machine) :
    ∀ {p : Pairing} {c' : Machine}, c.Twin o p c' → ∃ q, p.Within q ∧
      Agrees (Value.Twin q) (run set c).1 (run set c').1 ∧ (run set c).2.Twin o q (run set c').2 := by
  -- by induction on the run of the first machine; the second keeps step
  induction c using (wellFounded set).induction with
  | _ c ih =>
    intro p c' h
    have hnext := twin_next hlib h
    cases hn : c.next set with
    | finished r s =>
      cases hn' : c'.next set with
      | going d' =>
        rw [hn, hn'] at hnext
        cases hnext
      | finished r' s' =>
        rw [hn, hn'] at hnext
        cases hnext with
        | finished hr hs =>
          rw [run_of_finished hn, run_of_finished hn']
          exact ⟨p, .refl p, hr, hs⟩
    | going d =>
      cases hn' : c'.next set with
      | finished r' s' =>
        rw [hn, hn'] at hnext
        cases hnext
      | going d' =>
        rw [hn, hn'] at hnext
        cases hnext with
        | going hd =>
          obtain ⟨q, hq, hd⟩ := hd
          obtain ⟨r, hr, hrest⟩ := ih d hn hd
          rw [run_of_going hn, run_of_going hn']
          exact ⟨r, hq.trans hr, hrest⟩

end Machine

theorem EvalState.twin_force {o : Outside} {p : Pairing} {set : Setting} (hlib : set.host.Natural)
    {s s' : EvalState} (hs : s.Twin o p s') {v v' : Value} (hv : v.Held p v') :
    ∃ q, p.Within q ∧ Agrees (Value.Twin q) (s.force set v).1 (s'.force set v').1 ∧
      (s.force set v).2.Twin o q (s'.force set v').2 :=
  Machine.twin_run hlib _ (Machine.twin_demand .nil hs set.limit hv)

end LazySession
