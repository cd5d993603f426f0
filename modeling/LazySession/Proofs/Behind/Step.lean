import LazySession.Proofs.Behind.Heap

/-!
# One step of two machines

Two machines do the same work in heaps that are the same but for addresses and for what has been
evaluated. As long as neither demands a thunk, they keep step: `Machine.like_next`. The two may also
differ in how deep they are and by which way they got there. Then what they do is the same up to the
point at which one of them fails.
-/

namespace LazySession

/-! ## The same work -/

section
variable (exact : Prop) (p : Pairing)

/-- Twins, or errors, which are the same if so much is asked for. -/
inductive ResultLike : Except RuntimeError Value → Except RuntimeError Value → Prop
  | ok {v v' : Value} (hv : v.Twin p v') : ResultLike (.ok v) (.ok v')
  | error {e e' : RuntimeError} (he : exact → e' = e) : ResultLike (.error e) (.error e')

/-- The same source, and the same way there if so much is asked for. -/
structure Place.Like (a b : Place) : Prop where
  source : b.source = a.source
  same : exact → b = a

structure EvalState.Like (s s' : EvalState) : Prop where
  heap : s.heap.idle.Twin Heap.nothing p s'.heap.idle
  place : s.place.Like exact s'.place
  endless : s.patience = .endless ∧ s'.patience = .endless

/-- Frames that wait for the same, none of them for the value of a thunk. -/
inductive Frame.Like : Frame → Frame → Prop
  | function {d d' : Nat} (hd : exact → d' = d) (pos : Pos) (args : List Expr) {a b : ScopeId}
    (hab : p.scopes a b) : Frame.Like (.function d pos args a) (.function d' pos args b)
  | argument {d d' : Nat} (hd : exact → d' = d) (pos : Pos) {fn fn' : Value} (hf : fn.Twin p fn')
    {before before' : List Value} (hb : Value.Twins p before before') (after : List Expr)
    {a b : ScopeId} (hab : p.scopes a b) :
    Frame.Like (.argument d pos fn before after a) (.argument d' pos fn' before' after b)
  | left {d d' : Nat} (hd : exact → d' = d) (pos : Pos) (op : Operator) (right : Expr)
    {a b : ScopeId} (hab : p.scopes a b) :
    Frame.Like (.left d pos op right a) (.left d' pos op right b)
  | right {d d' : Nat} (hd : exact → d' = d) (pos : Pos) (op : Operator) {l l' : Value}
    (hl : l.Twin p l') : Frame.Like (.right d pos op l) (.right d' pos op l')
  | negate (pos : Pos) : Frame.Like (.negate pos) (.negate pos)
  | test {d d' : Nat} (hd : exact → d' = d) (pos : Pos) (yes no : Expr) {a b : ScopeId}
    (hab : p.scopes a b) : Frame.Like (.test d pos yes no a) (.test d' pos yes no b)
  | body {d d' : Nat} (hd : exact → d' = d) (pos : Pos) {place place' : Place}
    (hplace : place.Like exact place') {others others' : List Value}
    (ho : Value.Twins p others others') :
    Frame.Like (.body d pos place others) (.body d' pos place' others')

inductive Control.Like : Control → Control → Prop
  | eval {d d' : Nat} (hd : exact → d' = d) (e : Expr) {a b : ScopeId} (hab : p.scopes a b) :
    Control.Like (.eval d e a) (.eval d' e b)
  | apply {d d' : Nat} (hd : exact → d' = d) (pos : Pos) {fn fn' : Value} (hf : fn.Twin p fn')
    {args args' : List Value} (ha : Value.Twins p args args') :
    Control.Like (.apply d pos fn args) (.apply d' pos fn' args')
  | give {r r' : Except RuntimeError Value} (hr : ResultLike exact p r r') :
    Control.Like (.give r) (.give r')

structure Machine.Like (c c' : Machine) : Prop where
  control : c.control.Like exact p c'.control
  frames : List.Forall₂ (Frame.Like exact p) c.frames c'.frames
  state : c.state.Like exact p c'.state

inductive Applied.Like : Applied → Applied → Prop
  | done {r r' : Except RuntimeError Value} (hr : ResultLike exact p r r') :
    Applied.Like (.done r) (.done r')
  | enter {c c' : Closure} {a b : ScopeId} {others others' : List Value} (hc : c.Twin p c')
    (hab : p.scopes a b) (ho : Value.Twins p others others') :
    Applied.Like (.enter c a others) (.enter c' b others')
  | again {f f' : Value} {others others' : List Value} (hf : f.Twin p f')
    (ho : Value.Twins p others others') : Applied.Like (.again f others) (.again f' others')

end

section
variable {exact : Prop} {p q r : Pairing}

theorem Place.Like.refl (place : Place) : place.Like exact place := ⟨rfl, fun _ => rfl⟩

theorem ResultLike.mono {x x' : Except RuntimeError Value} (h : ResultLike exact p x x')
    (hq : p.Within q) : ResultLike exact q x x' := by
  cases h with
  | ok hv => exact .ok (hv.mono hq)
  | error he => exact .error he

theorem Frame.Like.mono {f f' : Frame} (h : f.Like exact p f') (hq : p.Within q) :
    f.Like exact q f' := by
  cases h with
  | function hd pos args hab => exact .function hd pos args (hq.scopes hab)
  | argument hd pos hf hb after hab =>
    exact .argument hd pos (hf.mono hq) (hb.mono hq) after (hq.scopes hab)
  | left hd pos op right hab => exact .left hd pos op right (hq.scopes hab)
  | right hd pos op hl => exact .right hd pos op (hl.mono hq)
  | negate pos => exact .negate pos
  | test hd pos yes no hab => exact .test hd pos yes no (hq.scopes hab)
  | body hd pos hplace ho => exact .body hd pos hplace (ho.mono hq)

theorem framesLike_mono {fs fs' : List Frame} (h : List.Forall₂ (Frame.Like exact p) fs fs')
    (hq : p.Within q) : List.Forall₂ (Frame.Like exact q) fs fs' :=
  h.imp fun _ _ hf => hf.mono hq

theorem Control.Like.mono {c c' : Control} (h : c.Like exact p c') (hq : p.Within q) :
    c.Like exact q c' := by
  cases h with
  | eval hd e hab => exact .eval hd e (hq.scopes hab)
  | apply hd pos hf ha => exact .apply hd pos (hf.mono hq) (ha.mono hq)
  | give hr => exact .give (hr.mono hq)

/-! ### What is known of the second machine -/

theorem ResultLike.upto {x x' x'' : Except RuntimeError Value} {exact' : Prop}
    (h : ResultLike exact p x x') (hr : ResultLike exact' r x' x'') :
    ResultLike exact (p.upto r) x x' := by
  cases h with
  | ok hv => cases hr with | ok hv' => exact .ok (hv.upto hv')
  | error he => exact .error he

theorem Frame.Like.upto {f f' f'' : Frame} {exact' : Prop} (h : f.Like exact p f')
    (hr : f'.Like exact' r f'') : f.Like exact (p.upto r) f' := by
  cases h with
  | function hd pos args hab => cases hr with | function _ _ _ h => exact .function hd pos args ⟨hab, _, h⟩
  | argument hd pos hf hb after hab =>
    cases hr with
    | argument _ _ hf' hb' _ h => exact .argument hd pos (hf.upto hf') (hb.upto hb') after ⟨hab, _, h⟩
  | left hd pos op right hab => cases hr with | left _ _ _ _ h => exact .left hd pos op right ⟨hab, _, h⟩
  | right hd pos op hl => cases hr with | right _ _ _ h => exact .right hd pos op (hl.upto h)
  | negate pos => exact .negate pos
  | test hd pos yes no hab => cases hr with | test _ _ _ _ h => exact .test hd pos yes no ⟨hab, _, h⟩
  | body hd pos hplace ho => cases hr with | body _ _ _ h => exact .body hd pos hplace (ho.upto h)

theorem Control.Like.upto {c c' c'' : Control} {exact' : Prop} (h : c.Like exact p c')
    (hr : c'.Like exact' r c'') : c.Like exact (p.upto r) c' := by
  cases h with
  | eval hd e hab => cases hr with | eval _ _ h => exact .eval hd e ⟨hab, _, h⟩
  | apply hd pos hf ha =>
    cases hr with | apply _ _ hf' ha' => exact .apply hd pos (hf.upto hf') (ha.upto ha')
  | give hx => cases hr with | give h => exact .give (hx.upto h)

/-! ### What is known of a machine that has a twin -/

theorem Machine.Like.diag {c c' : Machine} (h : c.Like exact p c') : c.Like True p.diag c where
  control := by
    have hc := h.control
    generalize c.control = x at hc ⊢
    generalize c'.control = y at hc
    cases hc with
    | eval hd e hab => exact .eval (fun _ => rfl) e ⟨rfl, _, hab⟩
    | apply hd pos hf ha => exact .apply (fun _ => rfl) pos hf.diag ha.diag
    | give hr =>
      cases hr with
      | ok hv => exact .give (.ok hv.diag)
      | error _ => exact .give (.error fun _ => rfl)
  frames := by
    refine forall₂_diag (fun f f' hf => ?_) h.frames
    cases hf with
    | function _ pos args hab => exact .function (fun _ => rfl) pos args ⟨rfl, _, hab⟩
    | argument _ pos hf hb after hab =>
      exact .argument (fun _ => rfl) pos hf.diag hb.diag after ⟨rfl, _, hab⟩
    | left _ pos op right hab => exact .left (fun _ => rfl) pos op right ⟨rfl, _, hab⟩
    | right _ pos op hl => exact .right (fun _ => rfl) pos op hl.diag
    | negate pos => exact .negate pos
    | test _ pos yes no hab => exact .test (fun _ => rfl) pos yes no ⟨rfl, _, hab⟩
    | body _ pos _ ho => exact .body (fun _ => rfl) pos (.refl _) ho.diag
  state := ⟨h.state.heap.diag, .refl _, h.state.endless.1, h.state.endless.1⟩

end

/-! ## Rounds of application -/

namespace EvalState

variable {exact : Prop} {p q : Pairing} {s s' : EvalState}

theorem Like.error (h : s.Like exact p s') (pos : Pos) (f : RuntimeFault) :
    ResultLike exact p (.error (s.error pos f)) (.error (s'.error pos f)) :=
  .error fun hx => by rw [EvalState.error, EvalState.error, h.place.same hx]

theorem Like.withHeap (h : s.Like exact p s') {g g' : Heap}
    (hg : g.idle.Twin Heap.nothing q g'.idle) :
    Like exact q { s with heap := g } { s' with heap := g' } :=
  ⟨hg, h.place, h.endless⟩

theorem Like.enter (h : s.Like exact p s') (source name : String) :
    (s.enter source name).Like exact p (s'.enter source name) where
  heap := h.heap
  place := ⟨rfl, fun hx => by rw [EvalState.enter, EvalState.enter, h.place.same hx]⟩
  endless := h.endless

theorem Like.leave (h : s.Like exact p s') {place place' : Place} (hp : place.Like exact place') :
    (s.leave place).Like exact p (s'.leave place') :=
  ⟨h.heap, hp, h.endless⟩

theorem Like.tick (h : s.Like exact p s') : s.tick.1 = false ∧ s'.tick.1 = false ∧
    s.tick.2.Like exact p s'.tick.2 := by
  obtain ⟨patience, he, hs⟩ := Machine.tick_eq s
  obtain ⟨patience', he', hs'⟩ := Machine.tick_eq s'
  rw [he, he']
  exact ⟨(hs h.endless.1).2, (hs' h.endless.2).2, h.heap, h.place, (hs h.endless.1).1,
    (hs' h.endless.2).1⟩

end EvalState

namespace Builtin

theorem showText_idle {h : Heap} {v : Value} (hv : h.idle.inspect v = h.inspect v) :
    showText h.idle v = showText h v := by
  unfold showText
  split <;> first | rfl | exact hv

theorem call_idle {h : Heap} {args : List Value} (ht : ∀ v ∈ args, h.idle.inspect v = h.inspect v)
    (b : Builtin) : b.call h.idle args = (b.call h args).map fun x => (x.1, x.2.idle) := by
  unfold call
  split
  · rfl
  · split
    · rw [show h.idle.getCell? _ = h.getCell? _ from rfl]
      split <;> rfl
    · rfl
  · simp only [showText_idle (ht _ List.mem_cons_self), Except.map]
  · split <;> rfl
  · split <;> rfl
  · rename_i x y
    cases divisionArgs div x y <;> rfl
  · rename_i x y
    cases divisionArgs mod x y <;> rfl
  · split <;> rfl
  · rw [ht _ List.mem_cons_self]
    rfl
  · rfl

end Builtin

namespace Applied

variable {exact : Prop} {p : Pairing} {s s' : EvalState}

theorem like_give {v v' : Value} {others others' : List Value} (hv : v.Twin p v')
    (ho : Value.Twins p others others') : (give v others).Like exact p (give v' others') := by
  cases ho with
  | nil => exact .done (.ok hv)
  | cons h hs => exact .again hv (.cons h hs)

/-- Both rounds come to the same, and what they have made is paired. -/
def Alongside (exact : Prop) (p : Pairing) (h h' : Heap) (x y : Applied × EvalState) : Prop :=
  ∃ q, p.Extends q h h' ∧ x.1.Like exact q y.1 ∧ x.2.Like exact q y.2

theorem like_call {lib : HostLibrary} (hlib : lib.Natural) (hs : s.Like exact p s') (pos : Pos)
    {fn fn' : Callable} (hf : fn.Twin p fn') {args args' others others' : List Value}
    (ha : Value.Twins p args args') (ho : Value.Twins p others others') :
    Alongside exact p s.heap s'.heap (call lib pos fn args others s)
      (call lib pos fn' args' others' s') := by
  have hfail : ∀ {e e' : RuntimeError}, (exact → e' = e) →
      Alongside exact p s.heap s'.heap (.done (.error e), s) (.done (.error e'), s') :=
    fun he => ⟨p, .refl _ _ _, .done (.error he), hs⟩
  cases hf with
  | @closure c c' hc =>
    simp only [call, hc.params, hc.inspect]
    rcases Closure.bindParams_twin c.params ha with ⟨v, v', he, he', hv⟩ | ⟨t, t', he, he', ht⟩
    · simp only [he, he', hv.typeName]
      exact hfail fun hx => by rw [EvalState.error, EvalState.error, hs.place.same hx]
    · simp only [he, he']
      have hvars : Table.Twin (Value.Held p) t.reverse t'.reverse :=
        List.rel_reverse (Table.Twin.imp ht fun _ _ h => .value h)
      have hnew := hs.heap.newScope hvars (.some hc.scope)
      have he := p.extends_addScope s.heap s'.heap
      exact ⟨_, he, .enter (hc.mono he.within) (.inr ⟨rfl, rfl⟩) (ho.mono he.within),
        hs.withHeap hnew⟩
  | builtin b =>
    -- the texts are those of the idle heaps, where nothing is being forced
    have htext : ∀ v ∈ args, s.heap.idle.inspect v = s.heap.inspect v := by
      intro v hv
      obtain ⟨i, hi, rfl⟩ := List.getElem_of_mem hv
      exact Heap.inspect_idle hs.heap (ha.get hi (ha.length_eq ▸ hi))
    have htext' : ∀ v ∈ args', s'.heap.idle.inspect v = s'.heap.inspect v := by
      intro v hv
      obtain ⟨i, hi, rfl⟩ := List.getElem_of_mem hv
      exact Heap.inspect_idle_right hs.heap (ha.get (ha.length_eq ▸ hi) hi)
    have hcall := Builtin.call_twin hs.heap b ha
    rw [Builtin.call_idle htext, Builtin.call_idle htext'] at hcall
    simp only [call]
    generalize b.call s.heap args = r at hcall ⊢
    generalize b.call s'.heap args' = r' at hcall ⊢
    cases r with
    | error f =>
      cases r' with
      | error f' =>
        cases hcall
        exact hfail fun hx => by rw [hs.place.same hx]
      | ok y => cases hcall
    | ok x =>
      cases r' with
      | error f' => cases hcall
      | ok y =>
        cases hcall with
        | ok h =>
          obtain ⟨q, hq, hv, hg⟩ := h
          have hq' : p.Extends q s.heap s'.heap :=
            ⟨hq.within, by simpa using @hq.thunks, hq.cells, hq.scopes⟩
          exact ⟨q, hq', like_give hv (ho.mono hq.within), hs.withHeap hg⟩
  | host d =>
    simp only [call]
    rcases (HostData.call_twin hlib hs.heap.unique s.heap s'.heap d ha).cases with
      ⟨f, he, he'⟩ | ⟨v, v', he, he', hv⟩
    · simp only [he, he']
      exact hfail fun hx => by rw [EvalState.error, EvalState.error, hs.place.same hx]
    · simp only [he, he']
      exact ⟨p, .refl _ _ _, like_give hv ho, hs⟩

theorem like_round {lib : HostLibrary} (hlib : lib.Natural) (hs : s.Like exact p s') (pos : Pos)
    {fn fn' : Value} (hf : fn.Twin p fn') {args args' : List Value} (ha : Value.Twins p args args') :
    Alongside exact p s.heap s'.heap (round lib pos fn args s) (round lib pos fn' args' s') := by
  unfold round
  rcases rel_cases hf.callable? with ⟨hc, hc'⟩ | ⟨⟨f, before⟩, ⟨f', before'⟩, hc, hc', hfn, hb⟩
  · simp only [hc, hc', hf.typeName]
    exact ⟨p, .refl _ _ _, .done (hs.error _ _), hs⟩
  · have hall : Value.Twins p (before ++ args) (before' ++ args') := List.rel_append hb ha
    simp only [hc, hc', hfn.arity, ← hall.length_eq]
    split
    · exact ⟨p, .refl _ _ _, .done (.ok (Value.twin_partialApp hfn hall)), hs⟩
    · exact like_call hlib hs pos hfn (List.forall₂_take _ hall) (List.forall₂_drop _ hall)

end Applied

/-! ## Steps -/

namespace Machine

/-- The thunk that is demanded next, and the depth left for it. -/
def seeks? (c : Machine) : Option (Nat × ThunkId) :=
  match c.control with
  | .eval (depth + 1) (.var _ x) scope => match c.state.heap.lookup scope x with
    | some (.thunk id) => some (depth, id)
    | _ => none
  | .eval (depth + 1) (.qualified _ mod x) scope =>
    match c.state.heap.lookup scope (mod ++ "." ++ x) with
    | some (.thunk id) => some (depth, id)
    | _ => none
  | _ => none

variable {exact : Prop} {p q : Pairing} {frames frames' : List Frame} {s s' : EvalState}
variable {h h' : Heap}

/-- The machines are alike, and what has been made since `h` and `h'` is paired. -/
def Alongside (exact : Prop) (p : Pairing) (h h' : Heap) (c c' : Machine) : Prop :=
  ∃ q, p.Extends q h h' ∧ c.Like exact q c'

theorem Like.alongside {c c' : Machine} (hc : c.Like exact p c') : Alongside exact p h h' c c' :=
  ⟨p, .refl _ _ _, hc⟩

section
variable (hf : List.Forall₂ (Frame.Like exact p) frames frames') (hs : s.Like exact p s')
include hf hs

theorem like_value {v v' : Value} (hv : v.Twin p v') :
    (value v frames s).Like exact p (value v' frames' s') :=
  ⟨.give (.ok hv), hf, hs⟩

theorem like_error (pos : Pos) (fault : RuntimeFault) :
    (error pos fault frames s).Like exact p (error pos fault frames' s') :=
  ⟨.give (hs.error pos fault), hf, hs⟩

theorem like_arguments {d d' : Nat} (hd : exact → d' = d) (pos : Pos) {fn fn' : Value}
    (hfn : fn.Twin p fn') {before before' : List Value} (hb : Value.Twins p before before')
    (after : List Expr) {a b : ScopeId} (hab : p.scopes a b) :
    (arguments d pos fn before after a frames s).Like exact p
      (arguments d' pos fn' before' after b frames' s') := by
  cases after with
  | nil => exact ⟨.apply hd pos hfn (List.rel_reverse hb), hf, hs⟩
  | cons e es => exact ⟨.eval hd e hab, .cons (.argument hd pos hfn hb es hab) hf, hs⟩

theorem like_operate {d d' : Nat} (hd : exact → d' = d) (pos : Pos) (op : Operator)
    {l l' r r' : Value} (hl : l.Twin p l') (hr : r.Twin p r') :
    (operate d pos op l r frames s).Like exact p (operate d' pos op l' r' frames' s') := by
  unfold operate
  split
  · exact ⟨.apply hd pos hl (.cons hr .nil), hf, hs⟩
  · rw [op.eval_twin hl hr]
    split
    · rename_i v he
      exact like_value hf hs (Value.twin_of_isPlain (Operator.isPlain_eval he))
    · exact like_error hf hs pos _

/-- A name that does not stand for a thunk. -/
theorem like_lookup {d d' : Nat} (pos : Pos) (x : String) {a b : ScopeId} (hab : p.scopes a b)
    (hn : ∀ id, s'.heap.lookup b x ≠ some (.thunk id)) :
    Like exact p
      (match s.heap.lookup a x with
        | some v => demand d v frames s
        | none => error pos (.undefined x) frames s)
      (match s'.heap.lookup b x with
        | some v => demand d' v frames' s'
        | none => error pos (.undefined x) frames' s') := by
  have hl := hs.heap.lookup x a hab
  rw [Heap.lookup_idle, Heap.lookup_idle] at hl
  rcases rel_cases hl with ⟨hx, hx'⟩ | ⟨v, v', hx, hx', hv⟩
  · simp only [hx, hx']
    exact like_error hf hs pos _
  · cases hv with
    | thunk hab => exact absurd hx' (hn _)
    | value hv =>
      have hnow : ∀ {s : EvalState} {v : Value}, (∀ id, v ≠ .thunk id) → s.demand v = .now (.ok v) := by
        intro s v hne
        cases v with
        | thunk id => exact absurd rfl (hne id)
        | _ => rfl
      simp only [hx, hx', demand, hnow hv.not_thunk.1, hnow hv.not_thunk.2]
      exact ⟨.give (.ok hv), hf, hs⟩

theorem like_node {d d' : Nat} (hd : exact → d' = d) (e : Expr) {a b : ScopeId}
    (hab : p.scopes a b) (hseek : seeks? ⟨.eval (d' + 1) e b, frames', s'⟩ = none) :
    Alongside exact p s.heap s'.heap (node d e a frames s) (node d' e b frames' s') := by
  have hplace : s'.place.source = s.place.source := hs.place.source
  cases e with
  | int pos v => exact (like_value hf hs (.int v)).alongside
  | str pos v => exact (like_value hf hs (.str v)).alongside
  | bool pos v => exact (like_value hf hs (.bool v)).alongside
  | unit pos => exact (like_value hf hs .unit).alongside
  | var pos x =>
    refine (like_lookup hf hs pos x hab fun id hx => ?_).alongside
    simp [seeks?, hx] at hseek
  | qualified pos mod x =>
    refine (like_lookup hf hs pos _ hab fun id hx => ?_).alongside
    simp [seeks?, hx] at hseek
  | app fn args =>
    exact ⟨p, .refl _ _ _, .eval hd fn hab, .cons (.function hd fn.pos args hab) hf, hs⟩
  | binary pos op l r => exact ⟨p, .refl _ _ _, .eval hd l hab, .cons (.left hd pos op r hab) hf, hs⟩
  | negate pos x => exact ⟨p, .refl _ _ _, .eval hd x hab, .cons (.negate pos) hf, hs⟩
  | operator pos op =>
    have he := p.extends_addScope s.heap s'.heap
    have hnew := hs.heap.newScope (.nil : Table.Twin (Value.Held p) [] []) .none
    have hheap : EvalState.Like exact _ { s with heap := (s.heap.newScope [] none).2 }
        { s' with heap := (s'.heap.newScope [] none).2 } := hs.withHeap hnew
    refine ⟨_, he, like_value (framesLike_mono hf he.within) hheap ?_⟩
    exact .closure ⟨.inr ⟨rfl, rfl⟩, by rw [hplace]; rfl⟩
  | lambda pos param ps body =>
    exact (like_value hf hs (.closure ⟨hab, by rw [hplace]⟩)).alongside
  | letIn pos binds body =>
    have he := p.extends_addScope s.heap s'.heap
    have hnew := hs.heap.newScope (.nil : Table.Twin (Value.Held p) [] []) (.some hab)
    obtain ⟨q, hq, hheap⟩ := Heap.Twin.newBindings s.place.source binds hnew (.inr ⟨rfl, rfl⟩)
    have hq' : p.Extends q s.heap s'.heap :=
      he.trans ⟨hq.within, by simpa [Heap.newScope] using @hq.thunks, hq.cells, hq.scopes⟩
        ⟨by simp [Heap.newScope], le_rfl, by simp [Heap.newScope]⟩
        ⟨by simp [Heap.newScope], le_rfl, by simp [Heap.newScope]⟩
    refine ⟨q, hq', .eval hd body (hq.within.scopes (.inr ⟨rfl, rfl⟩)), framesLike_mono hf hq'.within, ?_⟩
    simp only [node]
    rw [hplace]
    refine hs.withHeap ?_
    rw [← Heap.idle_newBindings, ← Heap.idle_newBindings]
    exact hheap
  | cond pos test yes no =>
    exact ⟨p, .refl _ _ _, .eval hd test hab, .cons (.test hd test.pos yes no hab) hf, hs⟩

theorem like_resume {f f' : Frame} (hframe : f.Like exact p f') {v v' : Value} (hv : v.Twin p v') :
    (resume f v frames s).Like exact p (resume f' v' frames' s') := by
  cases hframe with
  | function hd pos args hab => exact like_arguments hf hs hd pos hv .nil args hab
  | argument hd pos hfn hb after hab => exact like_arguments hf hs hd pos hfn (.cons hv hb) after hab
  | @left d d' hd pos op right a b hab =>
    have hright : Like exact p ⟨.eval d right a, .right d pos op v :: frames, s⟩
        ⟨.eval d' right b, .right d' pos op v' :: frames', s'⟩ :=
      ⟨.eval hd right hab, .cons (.right hd pos op hv) hf, hs⟩
    simp only [resume, op.shortcut_twin hv]
    split
    · split
      · exact like_error hf hs pos _
      · exact like_value hf hs (.bool _)
      · exact hright
    · exact hright
  | right hd pos op hl => exact like_operate hf hs hd pos op hl hv
  | negate pos =>
    simp only [resume, hv.int?, hv.typeName]
    split
    · exact like_value hf hs (.int _)
    · exact like_error hf hs pos _
  | test hd pos yes no hab =>
    simp only [resume, hv.bool?, hv.typeName]
    split
    · exact ⟨.eval hd _ hab, hf, hs⟩
    · exact like_error hf hs pos _
  | body hd pos hplace ho =>
    cases ho with
    | nil => exact like_value hf (hs.leave hplace) hv
    | cons h hrest => exact ⟨.apply hd pos hv (.cons h hrest), hf, hs.leave hplace⟩

theorem like_unwind {f f' : Frame} (hframe : f.Like exact p f') {e e' : RuntimeError}
    (he : exact → e' = e) : (unwind f e frames s).Like exact p (unwind f' e' frames' s') := by
  cases hframe with
  | body hd pos hplace ho => exact ⟨.give (.error he), hf, hs.leave hplace⟩
  | _ => exact ⟨.give (.error he), hf, hs⟩

theorem like_applied {d d' : Nat} (hd : exact → d' = d) (pos : Pos) {a a' : Applied}
    (ha : a.Like exact p a') :
    (applied d pos a frames s).Like exact p (applied d' pos a' frames' s') := by
  cases ha with
  | done hr => exact ⟨.give hr, hf, hs⟩
  | enter hc hab ho =>
    simp only [applied, hc.body, hc.source, hc.traceName]
    exact ⟨.eval hd _ hab, .cons (.body hd pos hs.place ho) hf, hs.enter _ _⟩
  | again hfn ho => exact ⟨.apply hd pos hfn ho, hf, hs⟩

end

theorem like_seeks {c c' : Machine} (h : c.Like exact p c') {d' : Nat} {b : ThunkId}
    (hb : c'.seeks? = some (d', b)) : (¬ exact ∧ ∃ e scope, c.control = .eval 0 e scope) ∨
      ∃ d a, c.seeks? = some (d, a) ∧ p.thunks a b ∧ (exact → d' = d) := by
  obtain ⟨control, frames, s⟩ := c
  obtain ⟨control', frames', s'⟩ := c'
  obtain ⟨hc, -, hs⟩ := h
  cases hc with
  | @eval d d₁ hd e a₀ b₀ hab =>
    cases d₁ with
    | zero => cases hb
    | succ d₁ =>
      cases d with
      | zero =>
        refine .inl ⟨fun hx => ?_, e, a₀, rfl⟩
        have := hd hx
        omega
      | succ d =>
        have hl (x : String) : Option.Rel (Value.Held p) (s.heap.lookup a₀ x) (s'.heap.lookup b₀ x) := by
          have hl := hs.heap.lookup x a₀ hab
          rwa [Heap.lookup_idle, Heap.lookup_idle] at hl
        have hthunk (x : String) (hx : s'.heap.lookup b₀ x = some (.thunk b)) :
            ∃ a, s.heap.lookup a₀ x = some (.thunk a) ∧ p.thunks a b := by
          rcases rel_cases (hl x) with ⟨-, hn⟩ | ⟨v, v', hv, hv', hheld⟩
          · rw [hx] at hn
            cases hn
          · obtain rfl : .thunk b = v' := Option.some.inj (hx.symm.trans hv')
            cases hheld with
            | value hv => exact absurd rfl (hv.not_thunk.2 b)
            | thunk hab => exact ⟨_, hv, hab⟩
        have hdepth (hx : exact) : d₁ = d := Nat.succ.inj (hd hx)
        cases e with
        | var pos x | qualified pos mod x =>
          simp only [seeks?] at hb
          split at hb
          · rename_i id hx
            cases hb
            obtain ⟨a, ha, hab⟩ := hthunk _ hx
            exact .inr ⟨d, a, by simp [seeks?, ha], hab, hdepth⟩
          · cases hb
        | _ => cases hb
  | apply => cases hb
  | give => cases hb

/-- Both go into thunks that stand for one another. -/
theorem like_startThunk (hs : s.Like exact p s') {d d' : Nat} (hd : exact → d' = d) {a b : ThunkId}
    (hab : p.thunks a b) {t t' : Thunk} (ht : s.heap.thunks[a]? = some t)
    (ht' : s'.heap.thunks[b]? = some t') {e : Expr} {scope' : ScopeId}
    (hcode : t'.code = some (e, scope')) : ∃ scope, t.code = some (e, scope) ∧
      Like exact p ⟨.eval d e scope, [], s.startThunk a t⟩ ⟨.eval d' e scope', [], s'.startThunk b t'⟩ := by
  obtain ⟨x, y, hx, hy, hxy⟩ := hs.heap.thunks.related hab
  rw [Heap.getElem?_idle, ht] at hx
  rw [Heap.getElem?_idle, ht'] at hy
  cases hx
  cases hy
  have hcodes := hxy.code
  simp only [hcode] at hcodes
  generalize hc : t.code = code at hcodes
  cases hcodes with
  | @some c _ hscope =>
    obtain ⟨rfl, hscope⟩ := hscope
    refine ⟨c.2, rfl, .eval hd _ hscope, .nil, ?_, ⟨hxy.source, fun hx => ?_⟩, hs.endless⟩
    · simp only [EvalState.startThunk, Heap.idle_setThunk]
      exact hs.heap
    · simp only [EvalState.startThunk, EvalState.enter, hs.place.same hx]
      rw [show t'.source = t.source from hxy.source, show t'.name = t.name from hxy.name]

/-- Nothing but a level of nesting can be missing. -/
theorem like_next {set : Setting} (hlib : set.host.Natural) {c c' d' : Machine}
    (h : c.Like exact p c') (hseek : c'.seeks? = none) (hn : c'.next set = .going d')
    (hx : exact ∨ ∀ e, d'.control ≠ .give (.error e)) :
    (¬ exact ∧ ∃ e scope, c.control = .eval 0 e scope) ∨
      ∃ d, c.next set = .going d ∧ Alongside exact p c.state.heap c'.state.heap d d' := by
  obtain ⟨control, frames, s⟩ := c
  obtain ⟨control', frames', s'⟩ := c'
  obtain ⟨hc, hf, hs⟩ := h
  cases hc with
  | @eval d d₁ hd e a b hab =>
    cases hn
    cases d₁ with
    | zero =>
      rcases hx with hx | hx
      · obtain rfl := hd hx
        exact .inr ⟨_, rfl, (like_error hf hs e.pos _).alongside⟩
      · exact absurd rfl (hx _)
    | succ d₁ =>
      cases d with
      | zero =>
        refine .inl ⟨fun hx => ?_, e, a, rfl⟩
        have := hd hx
        omega
      | succ d =>
        obtain ⟨hstop, hstop', htick⟩ := hs.tick
        have hseek' : seeks? ⟨.eval (d₁ + 1) e b, frames', s'.tick.2⟩ = none := by
          rw [← hseek]
          cases e <;> simp only [seeks?, heap_tick]
        have hnode := like_node hf htick (fun hx => Nat.succ.inj (hd hx)) e hab hseek'
        rw [heap_tick, heap_tick] at hnode
        refine .inr ⟨_, rfl, ?_⟩
        simp only [evaluate, hstop, hstop']
        exact hnode
  | apply hd pos hfn ha =>
    rw [next_apply] at hn
    cases hn
    obtain ⟨q, hq, happlied, hs'⟩ := Applied.like_round hlib hs pos hfn ha
    exact .inr ⟨_, next_apply .., q, hq,
      like_applied (framesLike_mono hf hq.within) hs' hd pos happlied⟩
  | give hr =>
    cases hf with
    | nil => cases hr <;> cases hn
    | cons hframe hf =>
      cases hr with
      | ok hv =>
        cases hn
        exact .inr ⟨_, rfl, (like_resume hf hs hframe hv).alongside⟩
      | error he =>
        cases hn
        exact .inr ⟨_, rfl, (like_unwind hf hs hframe he).alongside⟩

end Machine

end LazySession
