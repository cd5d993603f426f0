import LazySession.Eval.Run
import LazySession.Proofs.Renaming.Heap
import LazySession.Proofs.Twin.Calls

/-!
# Machines that differ in names

`Machine.Renamed r c c'`: two machines are at the same point of the same work, in heaps that differ
in names. `Machine.renamed_next`: so they are after one step. `EvalState.renamed_force`: a value comes
to the same in both, and an error to the same but for its source. As no value of the host is in sight,
its functions do not matter.
-/

namespace LazySession

section
variable {r : Renaming} {h h' : Heap} {v v' : Value}

/-! ## Values for the host -/

inductive HostValue.Renamed (r : Renaming) : HostValue → HostValue → Prop
  | nil : Renamed r .nil .nil
  | data (d : HostData) : Renamed r (.data d) (.data d)
  | object {v v' : Value} (h : v.Renamed r v') : Renamed r (.object v) (.object v')

theorem HostValue.renamed_ofValue (hv : v.Renamed r v') :
    (HostValue.ofValue v).Renamed r (.ofValue v') := by
  cases hv with
  | int v => exact .data _
  | bool b => exact .data _
  | str s => exact .data _
  | unit => exact .nil
  | closure hc => exact .object (.closure hc)
  | builtin b => exact .object (.builtin b)
  | partialApp hf hlength ha => exact .object (.partialApp hf hlength ha)
  | cell hid => exact .object (.cell hid)
  | thunk hab => exact .object (.thunk hab)

theorem Heap.Renamed.toHostFrom (hh : h.Renamed r h') (n : Nat) : ∀ {v v' : Value},
    v.Renamed r v' → (h.toHostFrom n v).Renamed r (h'.toHostFrom n v') := by
  induction n with
  | zero =>
    intro v v' hv
    cases hv with
    | thunk hab => exact .object (.thunk hab)
    | _ => exact HostValue.renamed_ofValue (by constructor <;> assumption)
  | succ n ih =>
    intro v v' hv
    cases hv with
    | thunk hab =>
      simp only [Heap.toHostFrom, Heap.thunkValue?]
      rcases hh.thunk_cases hab with ⟨ht, ht'⟩ | ⟨⟨_, _, _, _, st⟩, ⟨_, _, _, _, st'⟩, ht, ht', htt⟩
      · simp only [ht, ht']
        exact .object (.thunk hab)
      · have hstate := htt.state
        simp only at hstate
        simp only [ht, ht']
        cases hstate with
        | pending => exact .object (.thunk hab)
        | forcing => exact .object (.thunk hab)
        | done hv => exact ih hv
    | _ => exact HostValue.renamed_ofValue (by constructor <;> assumption)

theorem Heap.Renamed.toHost (hh : h.Renamed r h') (hv : v.Renamed r v') :
    (h.toHost v).Renamed r (h'.toHost v') := by
  unfold Heap.toHost
  rw [hh.thunks.size]
  exact hh.toHostFrom _ hv

/-! ## Builtin functions -/

namespace Builtin

theorem showText_renamed (hh : h.Renamed r h') (hv : v.Renamed r v') :
    showText h' v' = showText h v := by
  cases hv with
  | closure hc => exact hh.inspect (.closure hc)
  | builtin b => exact hh.inspect (.builtin b)
  | partialApp hf hlength ha => exact hh.inspect (.partialApp hf hlength ha)
  | cell hid => exact hh.inspect (.cell hid)
  | thunk hab => exact hh.inspect (.thunk hab)
  | unit => exact hh.inspect .unit
  | _ => rfl

/-- Both calls come to values and heaps that differ in names. -/
def Likewise (r : Renaming) : Except RuntimeFault (Value × Heap) →
    Except RuntimeFault (Value × Heap) → Prop :=
  Agrees fun x y => x.1.Renamed r y.1 ∧ x.2.Renamed r y.2

theorem likewise_plain (hh : h.Renamed r h') (hv : v.isPlain) :
    Likewise r (.ok (v, h)) (.ok (v, h')) :=
  .ok ⟨Value.renamed_of_isPlain hv, hh⟩

theorem call_renamed (hh : h.Renamed r h') (b : Builtin) {args args' : List Value}
    (ha : Value.AllRenamed r args args') : Likewise r (b.call h args) (b.call h' args') := by
  have hunit : Likewise r (.ok (.unit, h)) (.ok (.unit, h')) := likewise_plain hh rfl
  cases ha with
  | nil => cases b <;> exact hunit
  | @cons x x' _ _ hx hrest =>
    cases hrest with
    | nil =>
      cases b with
      | newRef =>
        obtain ⟨hsize, hle⟩ := hh.size_cells
        refine .ok ⟨?_, hh.newCell hx⟩
        simp only [hsize]
        exact .cell hle
      | readRef =>
        cases hx with
        | cell hid =>
          simp only [call]
          rcases rel_cases (hh.getCell? hid) with ⟨hc, hc'⟩ | ⟨v, v', hc, hc', hv⟩
          · simp only [hc, hc']
            exact .error _
          · simp only [hc, hc']
            exact .ok ⟨hv, hh⟩
        | _ => exact .error _
      | «show» =>
        simp only [call, showText_renamed hh hx]
        exact likewise_plain hh rfl
      | not =>
        simp only [call, hx.bool?, hx.typeName]
        split
        · exact likewise_plain hh rfl
        · exact .error _
      | negate =>
        simp only [call, hx.int?, hx.typeName]
        split
        · exact likewise_plain hh rfl
        · exact .error _
      | length =>
        simp only [call, hx.str?, hx.typeName]
        split
        · exact likewise_plain hh rfl
        · exact .error _
      | error =>
        simp only [call, hx.str?, hh.inspect hx]
        exact .error _
      | div => exact hunit
      | mod => exact hunit
    | @cons y y' _ _ hy hrest =>
      -- both arguments are looked at before the two builtins part
      have hargs : ∀ b, divisionArgs b x' y' = divisionArgs b x y := by
        intro b
        simp only [divisionArgs, hx.int?, hx.typeName, hy.int?, hy.typeName]
      cases hrest with
      | nil =>
        cases b with
        | div =>
          simp only [call, hargs]
          cases divisionArgs div x y with
          | error f => exact .error f
          | ok mn => exact likewise_plain hh rfl
        | mod =>
          simp only [call, hargs]
          cases divisionArgs mod x y with
          | error f => exact .error f
          | ok mn => exact likewise_plain hh rfl
        | _ => exact hunit
      | cons _ _ => cases b <;> exact hunit

end Builtin

end

/-! ## States -/

structure Place.Renamed (R : String → String → Prop) (p p' : Place) : Prop where
  source : R p.source p'.source
  trace : p'.trace = p.trace

/-- Errors that differ in the names of their sources only. -/
structure RuntimeError.Renamed (R : String → String → Prop) (e e' : RuntimeError) : Prop where
  place : e.place.Renamed R e'.place
  same : e' = { e with place := e'.place }

/-- Values that stand for each other, or errors that differ in their sources. -/
inductive EndsAlike (r : Renaming) : Except RuntimeError Value → Except RuntimeError Value → Prop
  | ok {v v' : Value} (h : v.Renamed r v') : EndsAlike r (.ok v) (.ok v')
  | error {e e' : RuntimeError} (h : e.Renamed r.sources e') : EndsAlike r (.error e) (.error e')

structure EvalState.Renamed (r : Renaming) (s s' : EvalState) : Prop where
  heap : s.heap.Renamed r s'.heap
  place : s.place.Renamed r.sources s'.place
  same : s' = { s with heap := s'.heap, place := s'.place }

namespace EvalState

variable {r : Renaming} {s s' : EvalState}

theorem Renamed.error (hs : s.Renamed r s') (pos : Pos) (f : RuntimeFault) :
    (s.error pos f).Renamed r.sources (s'.error pos f) :=
  ⟨hs.place, rfl⟩

theorem Renamed.withHeap (hs : s.Renamed r s') {g g' : Heap} (hg : g.Renamed r g') :
    Renamed r { s with heap := g } { s' with heap := g' } :=
  ⟨hg, hs.place, by rw [hs.same]⟩

theorem Renamed.tick (hs : s.Renamed r s') :
    s'.tick.1 = s.tick.1 ∧ s.tick.2.Renamed r s'.tick.2 := by
  obtain ⟨heap, place, same⟩ := hs
  obtain ⟨heap', patience, steps, place'⟩ := s'
  cases same
  unfold EvalState.tick
  simp only
  split
  · exact ⟨rfl, heap, place, rfl⟩
  · exact ⟨rfl, heap, place, rfl⟩

theorem Renamed.enter (hs : s.Renamed r s') {source source' : String}
    (hsource : r.sources source source') (name : String) :
    (s.enter source name).Renamed r (s'.enter source' name) := by
  refine ⟨hs.heap, ⟨hsource, ?_⟩, ?_⟩
  · simp only [EvalState.enter, hs.place.trace]
  · rw [hs.same]
    rfl

theorem Renamed.leave (hs : s.Renamed r s') {place place' : Place}
    (hp : place.Renamed r.sources place') : (s.leave place).Renamed r (s'.leave place') :=
  ⟨hs.heap, hp, by rw [hs.same]; rfl⟩

end EvalState

/-- What it takes to get at values that stand for each other. -/
inductive Demand.Renamed (r : Renaming) : Demand → Demand → Prop
  | now {x x' : Except RuntimeError Value} (h : EndsAlike r x x') : Renamed r (.now x) (.now x')
  | code {a b : ThunkId} {t t' : Thunk} {id : ScopeId} (hab : r.thunks a b) (ht : t.Called r t')
    (e : Expr) (hid : r.scope ≤ id) : Renamed r (.code a t e id) (.code b t' e id)

namespace EvalState

variable {r : Renaming} {s s' : EvalState}

theorem Renamed.demand (hs : s.Renamed r s') {v v' : Value} (hv : v.Renamed r v') :
    (s.demand v).Renamed r (s'.demand v') := by
  cases hv with
  | thunk hab =>
    rcases hs.heap.thunk_cases hab with ⟨ht, ht'⟩ | ⟨t, t', ht, ht', htt⟩
    · simp only [EvalState.demand, ht, ht']
      exact .now (.ok (.thunk hab))
    · have hstate := htt.state
      simp only [EvalState.demand, ht, ht', htt.code, htt.name]
      generalize t.state = st at hstate ⊢
      generalize t'.state = st' at hstate ⊢
      cases hstate with
      | done hv => exact .now (.ok hv)
      | pending =>
        cases hc : t.code with
        | none => exact .now (.error (hs.error _ _))
        | some c => exact .code hab htt.toCalled c.1 (htt.scope _ _ hc)
      | forcing =>
        cases hc : t.code with
        | none => exact .now (.error (hs.error _ _))
        | some c => exact .now (.error (hs.error _ _))
  | closure hc => exact .now (.ok (.closure hc))
  | partialApp hf hlength ha => exact .now (.ok (.partialApp hf hlength ha))
  | cell hid => exact .now (.ok (.cell hid))
  | _ => exact .now (.ok (by constructor))

theorem Renamed.startThunk (hs : s.Renamed r s') {a b : ThunkId} (hab : r.thunks a b) {t t' : Thunk}
    (ht : t.Called r t') : (s.startThunk a t).Renamed r (s'.startThunk b t') := by
  unfold EvalState.startThunk
  rw [ht.name]
  exact (hs.enter ht.source t.name).withHeap (hs.heap.setThunk hab .forcing)

theorem Renamed.finishThunk (hs : s.Renamed r s') {a b : ThunkId} (hab : r.thunks a b)
    {t t' : Thunk} (ht : t.Called r t') (pos : Pos) {place place' : Place}
    (hp : place.Renamed r.sources place') {x x' : Except RuntimeError Value} (hx : EndsAlike r x x') :
    EndsAlike r (s.finishThunk a t pos place x).1 (s'.finishThunk b t' pos place' x').1 ∧
      (s.finishThunk a t pos place x).2.Renamed r (s'.finishThunk b t' pos place' x').2 := by
  have hback : ∀ {st st' : ThunkState}, st.Renamed r st' →
      Renamed r { s.leave place with heap := (s.leave place).heap.setThunk a st }
        { s'.leave place' with heap := (s'.leave place').heap.setThunk b st' } :=
    fun hst => (hs.leave hp).withHeap (hs.heap.setThunk hab hst)
  cases hx with
  | error he => exact ⟨.error he, hback .pending⟩
  | @ok v v' hv =>
    simp only [EvalState.finishThunk, ht.want, ht.name]
    cases t.want with
    | none => exact ⟨.ok hv, hback (.done hv)⟩
    | some want =>
      simp only [hv.conforms, hv.typeName]
      split
      · exact ⟨.ok hv, hback (.done hv)⟩
      · exact ⟨.error ⟨⟨ht.source, hp.trace⟩, rfl⟩, hback .pending⟩

end EvalState

/-! ## Application -/

inductive Applied.Renamed (r : Renaming) : Applied → Applied → Prop
  | done {x x' : Except RuntimeError Value} (h : EndsAlike r x x') : Renamed r (.done x) (.done x')
  | enter {c c' : Closure} {id : ScopeId} {others others' : List Value} (hc : c.Renamed r c')
    (hid : r.scope ≤ id) (ho : Value.AllRenamed r others others') :
    Renamed r (.enter c id others) (.enter c' id others')
  | again {f f' : Value} {others others' : List Value} (hf : f.Renamed r f')
    (ho : Value.AllRenamed r others others') : Renamed r (.again f others) (.again f' others')

namespace Applied

variable {r : Renaming} {s s' : EvalState}

theorem renamed_give {v v' : Value} {others others' : List Value} (hv : v.Renamed r v')
    (ho : Value.AllRenamed r others others') : (give v others).Renamed r (give v' others') := by
  cases ho with
  | nil => exact .done (.ok hv)
  | cons h hs => exact .again hv (.cons h hs)

/-- Both rounds come to the same, in states that differ in names. -/
def Likewise (r : Renaming) (x y : Applied × EvalState) : Prop :=
  x.1.Renamed r y.1 ∧ x.2.Renamed r y.2

theorem likewise_call (lib : HostLibrary) (hs : s.Renamed r s') (pos : Pos) {fn fn' : Callable}
    (hf : fn.Renamed r fn') {args args' others others' : List Value}
    (ha : Value.AllRenamed r args args') (ho : Value.AllRenamed r others others') :
    Likewise r (call lib pos fn args others s) (call lib pos fn' args' others' s') := by
  cases hf with
  | @closure c c' hc =>
    simp only [call, hc.params, hc.inspect, hc.scope_eq]
    rcases Closure.bindParams_renamed c.params ha with ⟨v, v', he, he', hv⟩ | ⟨t, t', he, he', ht⟩
    · simp only [he, he', hv.typeName]
      exact ⟨.done (.error (hs.error _ _)), hs⟩
    · simp only [he, he']
      obtain ⟨hsize, hle⟩ := hs.heap.size_scopes
      have hvars : Table.Twin (Value.Renamed r) t.reverse t'.reverse := List.rel_reverse ht
      have hscope : Scope.Renamed r ⟨t.reverse, some c.scope⟩ ⟨t'.reverse, some c.scope⟩ :=
        ⟨hvars.get?, rfl, by rintro _ ⟨⟩; exact hc.scope⟩
      refine ⟨?_, hs.withHeap (hs.heap.newScope hscope)⟩
      simp only [Heap.newScope, hsize]
      exact .enter hc hle ho
  | builtin b =>
    simp only [call]
    rcases (Builtin.call_renamed hs.heap b ha).cases with
      ⟨f, he, he'⟩ | ⟨⟨v, g⟩, ⟨v', g'⟩, he, he', hv, hg⟩
    · simp only [he, he']
      refine ⟨.done (.error ⟨⟨hs.place.source, ?_⟩, rfl⟩), hs⟩
      rw [hs.place.trace]
    · simp only [he, he']
      exact ⟨renamed_give hv ho, hs.withHeap hg⟩

theorem likewise_round (lib : HostLibrary) (hs : s.Renamed r s') (pos : Pos) {fn fn' : Value}
    (hf : fn.Renamed r fn') {args args' : List Value} (ha : Value.AllRenamed r args args') :
    Likewise r (round lib pos fn args s) (round lib pos fn' args' s') := by
  unfold round
  rcases rel_cases hf.callable? with ⟨hc, hc'⟩ | ⟨⟨f, before⟩, ⟨f', before'⟩, hc, hc', hfn, hb⟩
  · simp only [hc, hc', hf.typeName]
    exact ⟨.done (.error (hs.error _ _)), hs⟩
  · have hall : Value.AllRenamed r (before ++ args) (before' ++ args') := List.rel_append hb ha
    simp only [hc, hc', hfn.arity, ← hall.length_eq]
    split
    · exact ⟨.done (.ok (Value.renamed_partialApp hfn hall)), hs⟩
    · exact likewise_call lib hs pos hfn (List.forall₂_take _ hall) (List.forall₂_drop _ hall)

end Applied

/-! ## Machines -/

inductive Frame.Renamed (r : Renaming) : Frame → Frame → Prop
  | function (depth : Nat) (pos : Pos) (args : List Expr) {id : ScopeId} (hid : r.scope ≤ id) :
    Renamed r (.function depth pos args id) (.function depth pos args id)
  | argument (depth : Nat) (pos : Pos) {fn fn' : Value} (hf : fn.Renamed r fn')
    {before before' : List Value} (hb : Value.AllRenamed r before before') (after : List Expr)
    {id : ScopeId} (hid : r.scope ≤ id) :
    Renamed r (.argument depth pos fn before after id) (.argument depth pos fn' before' after id)
  | left (depth : Nat) (pos : Pos) (op : Operator) (right : Expr) {id : ScopeId}
    (hid : r.scope ≤ id) : Renamed r (.left depth pos op right id) (.left depth pos op right id)
  | right (depth : Nat) (pos : Pos) (op : Operator) {l l' : Value} (hl : l.Renamed r l') :
    Renamed r (.right depth pos op l) (.right depth pos op l')
  | negate (pos : Pos) : Renamed r (.negate pos) (.negate pos)
  | test (depth : Nat) (pos : Pos) (yes no : Expr) {id : ScopeId} (hid : r.scope ≤ id) :
    Renamed r (.test depth pos yes no id) (.test depth pos yes no id)
  | thunk {a b : ThunkId} (hab : r.thunks a b) {t t' : Thunk} (ht : t.Called r t') (pos : Pos)
    {place place' : Place} (hp : place.Renamed r.sources place') :
    Renamed r (.thunk a t pos place) (.thunk b t' pos place')
  | body (depth : Nat) (pos : Pos) {place place' : Place} (hp : place.Renamed r.sources place')
    {others others' : List Value} (ho : Value.AllRenamed r others others') :
    Renamed r (.body depth pos place others) (.body depth pos place' others')

inductive Control.Renamed (r : Renaming) : Control → Control → Prop
  | eval (depth : Nat) (e : Expr) {id : ScopeId} (hid : r.scope ≤ id) :
    Renamed r (.eval depth e id) (.eval depth e id)
  | apply (depth : Nat) (pos : Pos) {fn fn' : Value} (hf : fn.Renamed r fn')
    {args args' : List Value} (ha : Value.AllRenamed r args args') :
    Renamed r (.apply depth pos fn args) (.apply depth pos fn' args')
  | give {x x' : Except RuntimeError Value} (hx : EndsAlike r x x') : Renamed r (.give x) (.give x')

structure Machine.Renamed (r : Renaming) (c c' : Machine) : Prop where
  control : c.control.Renamed r c'.control
  frames : List.Forall₂ (Frame.Renamed r) c.frames c'.frames
  state : c.state.Renamed r c'.state

namespace Machine

variable {r : Renaming} {frames frames' : List Frame} {s s' : EvalState}

section
variable (hf : List.Forall₂ (Frame.Renamed r) frames frames') (hs : s.Renamed r s')
include hf hs

theorem renamed_value {v v' : Value} (hv : v.Renamed r v') :
    (value v frames s).Renamed r (value v' frames' s') :=
  ⟨.give (.ok hv), hf, hs⟩

theorem renamed_error (pos : Pos) (fault : RuntimeFault) :
    (error pos fault frames s).Renamed r (error pos fault frames' s') :=
  ⟨.give (.error (hs.error pos fault)), hf, hs⟩

theorem renamed_demand (depth : Nat) {v v' : Value} (hv : v.Renamed r v') :
    (demand depth v frames s).Renamed r (demand depth v' frames' s') := by
  unfold demand
  have hd := hs.demand hv
  generalize s.demand v = d at hd ⊢
  generalize s'.demand v' = d' at hd ⊢
  cases hd with
  | now hx => exact ⟨.give hx, hf, hs⟩
  | code hab ht e hid =>
    exact ⟨.eval depth e hid, .cons (.thunk hab ht e.pos hs.place) hf, hs.startThunk hab ht⟩

theorem renamed_arguments (depth : Nat) (pos : Pos) {fn fn' : Value} (hfn : fn.Renamed r fn')
    {before before' : List Value} (hb : Value.AllRenamed r before before') (after : List Expr)
    {id : ScopeId} (hid : r.scope ≤ id) :
    (arguments depth pos fn before after id frames s).Renamed r
      (arguments depth pos fn' before' after id frames' s') := by
  cases after with
  | nil => exact ⟨.apply depth pos hfn (List.rel_reverse hb), hf, hs⟩
  | cons e es => exact ⟨.eval depth e hid, .cons (.argument depth pos hfn hb es hid) hf, hs⟩

theorem renamed_operate (depth : Nat) (pos : Pos) (op : Operator) {a a' b b' : Value}
    (ha : a.Renamed r a') (hb : b.Renamed r b') :
    (operate depth pos op a b frames s).Renamed r (operate depth pos op a' b' frames' s') := by
  unfold operate
  split
  · exact ⟨.apply depth pos ha (.cons hb .nil), hf, hs⟩
  · rw [op.eval_renamed ha hb]
    split
    · rename_i v he
      exact renamed_value hf hs (Value.renamed_of_isPlain (Operator.isPlain_eval he))
    · exact renamed_error hf hs pos _

/-! ### Expressions -/

theorem renamed_lookup (depth : Nat) (pos : Pos) (x : String) {id : ScopeId} (hid : r.scope ≤ id) :
    Renamed r
      (match s.heap.lookup id x with
        | some v => demand depth v frames s
        | none => error pos (.undefined x) frames s)
      (match s'.heap.lookup id x with
        | some v => demand depth v frames' s'
        | none => error pos (.undefined x) frames' s') := by
  rcases rel_cases (hs.heap.lookup x id hid) with ⟨hx, hx'⟩ | ⟨v, v', hx, hx', hv⟩
  · simp only [hx, hx']
    exact renamed_error hf hs pos _
  · simp only [hx, hx']
    exact renamed_demand hf hs depth hv

theorem renamed_node (depth : Nat) (e : Expr) {id : ScopeId} (hid : r.scope ≤ id) :
    (node depth e id frames s).Renamed r (node depth e id frames' s') := by
  obtain ⟨hsize, hle⟩ := hs.heap.size_scopes
  cases e with
  | int pos v => exact renamed_value hf hs (.int v)
  | str pos v => exact renamed_value hf hs (.str v)
  | bool pos v => exact renamed_value hf hs (.bool v)
  | unit pos => exact renamed_value hf hs .unit
  | var pos x => exact renamed_lookup hf hs depth pos x hid
  | qualified pos mod x => exact renamed_lookup hf hs depth pos _ hid
  | app fn args => exact ⟨.eval depth fn hid, .cons (.function depth fn.pos args hid) hf, hs⟩
  | binary pos op l r => exact ⟨.eval depth l hid, .cons (.left depth pos op r hid) hf, hs⟩
  | negate pos x => exact ⟨.eval depth x hid, .cons (.negate pos) hf, hs⟩
  | operator pos op =>
    have hscope : Scope.Renamed r ⟨[], none⟩ ⟨[], none⟩ := ⟨fun _ => .none, rfl, nofun⟩
    simp only [node, Heap.newScope, hsize]
    exact renamed_value hf (hs.withHeap (hs.heap.newScope hscope))
      (.closure ⟨hle, hs.place.source, rfl⟩)
  | lambda pos param ps body =>
    exact renamed_value hf hs (.closure ⟨hid, hs.place.source, rfl⟩)
  | letIn pos binds body =>
    have hscope : Scope.Renamed r ⟨[], some id⟩ ⟨[], some id⟩ :=
      ⟨fun _ => .none, rfl, by rintro _ ⟨⟩; exact hid⟩
    simp only [node, Heap.newScope, hsize]
    exact ⟨.eval depth body hle, hf,
      hs.withHeap (Heap.Renamed.newBindings hle hs.place.source binds (hs.heap.newScope hscope))⟩
  | cond pos test yes no =>
    exact ⟨.eval depth test hid, .cons (.test depth test.pos yes no hid) hf, hs⟩

theorem renamed_evaluate (set : Setting) (depth : Nat) (e : Expr) {id : ScopeId}
    (hid : r.scope ≤ id) :
    (evaluate set depth e id frames s).Renamed r (evaluate set depth e id frames' s') := by
  cases depth with
  | zero => exact renamed_error hf hs e.pos _
  | succ depth =>
    obtain ⟨hstop, htick⟩ := hs.tick
    simp only [evaluate, hstop]
    split
    · exact ⟨.give (.error ⟨htick.place, rfl⟩), hf, htick⟩
    · exact renamed_node hf htick depth e hid

/-! ### Values and errors -/

theorem renamed_resume {f f' : Frame} (hframe : f.Renamed r f') {v v' : Value}
    (hv : v.Renamed r v') : (resume f v frames s).Renamed r (resume f' v' frames' s') := by
  cases hframe with
  | function depth pos args hid => exact renamed_arguments hf hs depth pos hv .nil args hid
  | argument depth pos hfn hb after hid =>
    exact renamed_arguments hf hs depth pos hfn (.cons hv hb) after hid
  | left depth pos op right hid =>
    have hright : Renamed r ⟨.eval depth right _, .right depth pos op v :: frames, s⟩
        ⟨.eval depth right _, .right depth pos op v' :: frames', s'⟩ :=
      ⟨.eval depth right hid, .cons (.right depth pos op hv) hf, hs⟩
    simp only [resume, op.shortcut_renamed hv]
    split
    · split
      · exact renamed_error hf hs pos _
      · exact renamed_value hf hs (.bool _)
      · exact hright
    · exact hright
  | right depth pos op hl => exact renamed_operate hf hs depth pos op hl hv
  | negate pos =>
    simp only [resume, hv.int?, hv.typeName]
    split
    · exact renamed_value hf hs (.int _)
    · exact renamed_error hf hs pos _
  | test depth pos yes no hid =>
    simp only [resume, hv.bool?, hv.typeName]
    split
    · exact ⟨.eval depth _ hid, hf, hs⟩
    · exact renamed_error hf hs pos _
  | thunk hab ht pos hp =>
    obtain ⟨hx, hs'⟩ := hs.finishThunk hab ht pos hp (.ok hv)
    exact ⟨.give hx, hf, hs'⟩
  | body depth pos hp ho =>
    cases ho with
    | nil => exact renamed_value hf (hs.leave hp) hv
    | cons h hrest => exact ⟨.apply depth pos hv (.cons h hrest), hf, hs.leave hp⟩

theorem renamed_unwind {f f' : Frame} (hframe : f.Renamed r f') {e e' : RuntimeError}
    (he : e.Renamed r.sources e') : (unwind f e frames s).Renamed r (unwind f' e' frames' s') := by
  cases hframe with
  | thunk hab ht pos hp =>
    obtain ⟨hx, hs'⟩ := hs.finishThunk hab ht pos hp (.error he)
    exact ⟨.give hx, hf, hs'⟩
  | body depth pos hp ho => exact ⟨.give (.error he), hf, hs.leave hp⟩
  | _ => exact ⟨.give (.error he), hf, hs⟩

theorem renamed_applied (depth : Nat) (pos : Pos) {a a' : Applied} (ha : a.Renamed r a') :
    (applied depth pos a frames s).Renamed r (applied depth pos a' frames' s') := by
  cases ha with
  | done hx => exact ⟨.give hx, hf, hs⟩
  | enter hc hid ho =>
    simp only [applied, hc.body, hc.traceName]
    exact ⟨.eval depth _ hid, .cons (.body depth pos hs.place ho) hf, hs.enter hc.source _⟩
  | again hfn ho => exact ⟨.apply depth pos hfn ho, hf, hs⟩

end

/-! ## Steps and runs -/

/-- Both machines have gone on, or both have ended with the same. -/
inductive RenamedProgress (r : Renaming) : Progress → Progress → Prop
  | going {c c' : Machine} (h : c.Renamed r c') : RenamedProgress r (.going c) (.going c')
  | finished {x x' : Except RuntimeError Value} {s s' : EvalState} (hx : EndsAlike r x x')
    (hs : s.Renamed r s') : RenamedProgress r (.finished x s) (.finished x' s')

theorem renamed_next (set : Setting) {c c' : Machine} (h : c.Renamed r c') :
    RenamedProgress r (c.next set) (c'.next set) := by
  obtain ⟨control, frames, s⟩ := c
  obtain ⟨control', frames', s'⟩ := c'
  obtain ⟨hc, hf, hs⟩ := h
  cases hc with
  | eval depth e hid => exact .going (renamed_evaluate hf hs set depth e hid)
  | apply depth pos hfn ha =>
    obtain ⟨happlied, hs'⟩ := Applied.likewise_round set.host hs pos hfn ha
    exact .going (renamed_applied hf hs' depth pos happlied)
  | give hx =>
    cases hf with
    | nil => exact .finished hx hs
    | cons hframe hf =>
      cases hx with
      | ok hv => exact .going (renamed_resume hf hs hframe hv)
      | error he => exact .going (renamed_unwind hf hs hframe he)

theorem renamed_run (set : Setting) (c : Machine) : ∀ {c' : Machine}, c.Renamed r c' →
    EndsAlike r (run set c).1 (run set c').1 ∧ (run set c).2.Renamed r (run set c').2 := by
  -- by induction on the run of the first machine; the second keeps step
  induction c using (wellFounded set).induction with
  | _ c ih =>
    intro c' h
    have hnext := renamed_next set h
    generalize hn : c.next set = p at hnext
    generalize hn' : c'.next set = p' at hnext
    cases hnext with
    | finished hx hs =>
      rw [run_of_finished hn, run_of_finished hn']
      exact ⟨hx, hs⟩
    | going hd =>
      rw [run_of_going hn, run_of_going hn']
      exact ih _ hn hd

end Machine

theorem EvalState.renamed_force {r : Renaming} (set : Setting) {s s' : EvalState}
    (hs : s.Renamed r s') {v v' : Value} (hv : v.Renamed r v') :
    EndsAlike r (s.force set v).1 (s'.force set v').1 ∧
      (s.force set v).2.Renamed r (s'.force set v').2 :=
  Machine.renamed_run set _ (Machine.renamed_demand .nil hs set.limit hv)

end LazySession
