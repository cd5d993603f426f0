import LazySession.Host.Sample
import LazySession.Proofs.Twin.Heap

/-!
# Calls that differ in addresses only

Functions of the host get at values of the language without their heap, so all that such a function
could tell apart is addresses; one that is `Natural` does not. `Applied.twin_round`: one round of an
application then comes to the same for twins.
-/

namespace LazySession

/-! ## Outcomes -/

/-- Both have success, with related results, or both fail in the same way. -/
inductive Agrees {ε α β : Type} (R : α → β → Prop) : Except ε α → Except ε β → Prop
  | ok {a : α} {b : β} (h : R a b) : Agrees R (.ok a) (.ok b)
  | error (e : ε) : Agrees R (.error e) (.error e)

section
variable {ε α β : Type} {R S : α → β → Prop} {x : Except ε α} {y : Except ε β}

theorem Agrees.imp (h : Agrees R x y) (hRS : ∀ a b, R a b → S a b) : Agrees S x y := by
  cases h with
  | ok h => exact .ok (hRS _ _ h)
  | error e => exact .error e

theorem Agrees.cases (h : Agrees R x y) :
    (∃ e, x = .error e ∧ y = .error e) ∨ ∃ a b, x = .ok a ∧ y = .ok b ∧ R a b := by
  cases h with
  | ok h => exact .inr ⟨_, _, rfl, rfl, h⟩
  | error e => exact .inl ⟨e, rfl, rfl⟩

end

/-! ## Functions of the host -/

inductive HostValue.Twin (p : Pairing) : HostValue → HostValue → Prop
  | nil : Twin p .nil .nil
  | data (d : HostData) : Twin p (.data d) (.data d)
  | object {v v' : Value} (h : v.Twin p v') : Twin p (.object v) (.object v')

/-- The functions of the host cannot tell twins apart: addresses are nothing to them. -/
def HostLibrary.Natural (lib : HostLibrary) : Prop :=
  ∀ (p : Pairing), p.Unique → ∀ name held args args', List.Forall₂ (HostValue.Twin p) args args' →
    Agrees (List.Forall₂ (HostValue.Twin p)) (lib.call name held args) (lib.call name held args')

section
variable {o : Outside} {p q : Pairing} {h h' : Heap} {v v' : Value}

theorem HostValue.Twin.mono {a a' : HostValue} (ha : a.Twin p a') (hw : p.Within q) : a.Twin q a' := by
  cases ha with
  | nil => exact .nil
  | data d => exact .data d
  | object hv => exact .object (hv.mono hw)

theorem HostValue.Twin.toValue {a a' : HostValue} (ha : a.Twin p a') :
    a.toValue.Twin p a'.toValue := by
  cases ha with
  | nil => exact .unit
  | data d => exact .host d
  | object hv => exact hv

theorem Heap.toHost_of_not_thunk (hv : ∀ id, v ≠ .thunk id) : h.toHost v = .ofValue v := by
  unfold Heap.toHost
  cases v with
  | thunk id => exact absurd rfl (hv id)
  | _ => cases h.thunks.size <;> rfl

theorem Value.Twin.toHost (hv : v.Twin p v') : (h.toHost v).Twin p (h'.toHost v') := by
  rw [Heap.toHost_of_not_thunk hv.not_thunk.1, Heap.toHost_of_not_thunk hv.not_thunk.2]
  cases hv with
  | int v => exact .data _
  | bool b => exact .data _
  | str s => exact .data _
  | unit => exact .nil
  | closure hc => exact .object (.closure hc)
  | builtin b => exact .object (.builtin b)
  | partialApp hf hlength ha => exact .object (.partialApp hf hlength ha)
  | cell hc => exact .object (.cell hc)
  | host d => exact .data d
  | noHost => exact .nil

namespace HostData

theorem argument?_twin (h h' : Heap) (hv : v.Twin p v') (t : HostType) :
    Option.Rel (HostValue.Twin p) (argument? h v t) (argument? h' v' t) := by
  have hto : (h.toHost v).Twin p (h'.toHost v') := hv.toHost
  unfold argument?
  generalize h.toHost v = a at hto ⊢
  generalize h'.toHost v' = a' at hto ⊢
  cases hto with
  | nil =>
    simp only [HostValue.zero]
    split
    · exact .some .nil
    · exact .some (.data _)
  | data d =>
    simp only
    split
    · exact .some (.data _)
    · split
      · exact .some (.data _)
      · exact .none
  | object hv =>
    simp only [hv.objectType]
    split
    · exact .some (.object hv)
    · exact .none

theorem arguments_twin (h h' : Heap) {vs vs' : List Value} (hvs : Value.Twins p vs vs') :
    ∀ (number : Nat) (ts : List HostType), Agrees (List.Forall₂ (HostValue.Twin p))
      (arguments h number vs ts) (arguments h' number vs' ts) := by
  induction hvs with
  | nil => exact fun _ _ => .ok .nil
  | @cons v v' vs vs' hv _ ih =>
    intro number ts
    cases ts with
    | nil => exact .ok .nil
    | cons t ts =>
      simp only [arguments]
      rcases rel_cases (argument?_twin h h' hv t) with ⟨ha, ha'⟩ | ⟨a, a', ha, ha', haa⟩
      · simp only [ha, ha', hv.typeName]
        exact .error _
      · simp only [ha, ha']
        rcases (ih (number + 1) ts).cases with ⟨e, he, he'⟩ | ⟨as, as', he, he', has⟩
        · rw [he, he']
          exact .error e
        · rw [he, he']
          exact .ok (.cons haa has)

theorem call_twin {lib : HostLibrary} (hlib : lib.Natural) (hu : p.Unique) (h h' : Heap)
    (d : HostData) {args args' : List Value} (ha : Value.Twins p args args') :
    Agrees (Value.Twin p) (d.call lib h args) (d.call lib h' args') := by
  unfold call
  split
  · rename_i ps variadic rs name held _ _
    split
    · exact .error _
    -- a conversion that fails fails with one text, as texts do not look at addresses
    · rcases (arguments_twin h h' ha 1 ps).cases with
        ⟨f, he, he'⟩ | ⟨vs, vs', he, he', hvs⟩
      · simp only [he, he']
        exact .error _
      · simp only [he, he']
        rcases (hlib p hu name held vs vs' hvs).cases with ⟨text, hc, hc'⟩ | ⟨rs, rs', hc, hc', hrs⟩
        · simp only [hc, hc']
          exact .error _
        · simp only [hc, hc']
          cases hrs with
          | nil => exact .ok .unit
          | cons hr hrest =>
            cases hrest with
            | nil => exact .ok hr.toValue
            | cons _ hrest =>
              simp only [List.length_cons, hrest.length_eq]
              exact .error _
  · exact .error _

end HostData

/-! ### The sample library -/

namespace Sample

theorem agrees_onText (p : Pairing) (t : HostType) (s name : String) :
    Agrees (List.Forall₂ (HostValue.Twin p)) (onText t s name) (onText t s name) := by
  unfold onText
  split
  · exact .ok (.cons (.data _) .nil)
  · exact .ok (.cons (.data _) .nil)
  · exact .ok (.cons (.data _) .nil)
  · split
    · exact .ok (.cons (.data _) .nil)
    · exact .error _
  · exact .ok .nil

theorem agrees_onInt (p : Pairing) (n : Int) (held : List Content) (name : String) :
    Agrees (List.Forall₂ (HostValue.Twin p)) (onInt n held name) (onInt n held name) := by
  unfold onInt
  split
  · exact .ok (.cons (.data _) .nil)
  · exact .ok (.cons (.data _) .nil)
  · exact .ok (.cons (.data _) .nil)
  · split
    · exact .ok (.cons (.data _) .nil)
    · exact .ok .nil
  · exact .ok (.cons (.data _) (.cons (.data _) .nil))
  · exact .ok (.cons (.data _) (.cons (.data _) .nil))
  · split
    · exact .error _
    · exact .ok .nil
  · exact .ok .nil

theorem agrees_unary (name : String) (held : List Content) {a a' : HostValue} (ha : a.Twin p a') :
    Agrees (List.Forall₂ (HostValue.Twin p)) (unary name held a) (unary name held a') := by
  unfold unary
  split
  · exact .ok (.cons ha .nil)
  · cases ha <;> exact .ok (.cons (.data _) .nil)
  · cases ha with
    | nil => exact .ok .nil
    | object hv => exact .ok .nil
    | data d =>
      split
      · exact agrees_onText p _ _ _
      · exact agrees_onInt p _ _ _
      all_goals first
        | exact .ok (.cons (.data _) .nil)
        | exact .ok .nil

theorem call_cons_cons (name : String) (held : List Content) (a b : HostValue)
    (rest : List HostValue) : call name held (a :: b :: rest) = match a, b, rest with
      | .data ⟨_, .int m⟩, .data ⟨_, .int n⟩, [] => .ok (binary name m n)
      | _, _, _ => .ok [] := by
  unfold call
  split
  · simp_all
  · simp_all
  · simp_all
  · rename_i hnot
    split
    · exact absurd rfl (hnot _ _ _ _)
    · rfl

theorem twins_binary (p : Pairing) (name : String) (a b : Int) :
    List.Forall₂ (HostValue.Twin p) (binary name a b) (binary name a b) := by
  unfold binary
  split
  · exact .cons (.data _) .nil
  · exact .cons (.data _) .nil
  · exact .cons (.data _) .nil
  · exact .nil

end Sample

theorem HostLibrary.natural_sample : HostLibrary.sample.Natural := by
  intro p _ name held args args' h
  change Agrees (List.Forall₂ (HostValue.Twin p)) (Sample.call name held args)
    (Sample.call name held args')
  cases h with
  | nil =>
    simp only [Sample.call]
    split
    · exact .ok (.cons (.data _) .nil)
    · exact .ok .nil
  | @cons a a' _ _ ha hrest =>
    cases hrest with
    | nil => exact Sample.agrees_unary name held ha
    | @cons b b' rest rest' hb hrest =>
      -- only two whole numbers are looked at
      rw [Sample.call_cons_cons, Sample.call_cons_cons]
      cases ha with
      | nil => exact .ok .nil
      | object _ => exact .ok .nil
      | data d =>
        obtain ⟨t, content⟩ := d
        cases hb with
        | nil => cases content <;> exact .ok .nil
        | object _ => cases content <;> exact .ok .nil
        | data e =>
          obtain ⟨t', content'⟩ := e
          cases hrest with
          | cons _ _ => cases content <;> cases content' <;> exact .ok .nil
          | nil =>
            split
            · exact .ok (Sample.twins_binary p name _ _)
            · exact .ok .nil

/-! ## Builtin functions -/

namespace Builtin

theorem showText_host (h h' : Heap) (d : HostData) : showText h' (.host d) = showText h (.host d) := by
  simp only [showText, Value.int?, Value.str?, Value.bool?]
  cases d.int? with
  | some i => rfl
  | none => cases d.text? <;> cases d.bool? <;> rfl

theorem showText_twin (ht : h.Twin o p h') (hv : v.Twin p v') : showText h' v' = showText h v := by
  cases hv with
  | closure hc => exact ht.inspect (.closure hc)
  | builtin b => exact ht.inspect (.builtin b)
  | partialApp hf hlength ha => exact ht.inspect (.partialApp hf hlength ha)
  | cell hc => exact ht.inspect (.cell hc)
  | unit => exact ht.inspect .unit
  | host d => exact showText_host h h' d
  | _ => rfl

/-- Both calls come to the same, in heaps that are twins again. -/
def Together (o : Outside) (p : Pairing) (h h' : Heap) : Except RuntimeFault (Value × Heap) →
    Except RuntimeFault (Value × Heap) → Prop :=
  Agrees fun x y => ∃ q, p.Extends q h h' ∧ x.1.Twin q y.1 ∧ x.2.Twin o q y.2

theorem together_plain (ht : h.Twin o p h') {v : Value} (hv : v.isPlain) :
    Together o p h h' (.ok (v, h)) (.ok (v, h')) :=
  .ok ⟨p, .refl p h h', Value.twin_of_isPlain hv, ht⟩

theorem divisionArgs_twin (b : Builtin) {x x' y y' : Value} (hx : x.Twin p x') (hy : y.Twin p y') :
    b.divisionArgs x' y' = b.divisionArgs x y := by
  simp only [divisionArgs, hx.int?, hx.typeName, hy.int?, hy.typeName]

theorem call_twin (ht : h.Twin o p h') (b : Builtin) {args args' : List Value}
    (ha : Value.Twins p args args') : Together o p h h' (b.call h args) (b.call h' args') := by
  have hunit : Together o p h h' (.ok (.unit, h)) (.ok (.unit, h')) := together_plain ht rfl
  cases ha with
  | nil => cases b <;> exact hunit
  | @cons x x' _ _ hx hrest =>
    cases hrest with
    | nil =>
      cases b with
      | newRef => exact .ok ⟨_, Pairing.extends_addCell p h h', .cell (.inr ⟨rfl, rfl⟩), ht.newCell (.some hx)⟩
      | readRef =>
        cases hx with
        | @cell a b hab =>
          simp only [call]
          rcases rel_cases (ht.getCell? hab) with ⟨hc, hc'⟩ | ⟨v, v', hc, hc', hv⟩
          · simp only [hc, hc']
            exact .error _
          · simp only [hc, hc']
            exact .ok ⟨p, .refl p h h', hv, ht⟩
        | _ => exact .error _
      | «show» =>
        simp only [call, showText_twin ht hx]
        exact together_plain ht rfl
      | not =>
        simp only [call, hx.bool?, hx.typeName]
        split
        · exact together_plain ht rfl
        · exact .error _
      | negate =>
        simp only [call, hx.int?, hx.typeName]
        split
        · exact together_plain ht rfl
        · exact .error _
      | length =>
        simp only [call, hx.str?, hx.typeName]
        split
        · exact together_plain ht rfl
        · exact .error _
      | error =>
        simp only [call, hx.str?, ht.inspect hx]
        exact .error _
      | div => exact hunit
      | mod => exact hunit
    | @cons y y' _ _ hy hrest =>
      cases hrest with
      | nil =>
        cases b with
        | div =>
          simp only [call, divisionArgs_twin div hx hy]
          generalize divisionArgs div x y = r
          cases r with
          | error f => exact .error f
          | ok mn => exact together_plain ht rfl
        | mod =>
          simp only [call, divisionArgs_twin mod hx hy]
          generalize divisionArgs mod x y = r
          cases r with
          | error f => exact .error f
          | ok mn => exact together_plain ht rfl
        | _ => exact hunit
      | cons _ _ => cases b <;> exact hunit

end Builtin

end

/-! ## Application -/

structure EvalState.Twin (o : Outside) (p : Pairing) (s s' : EvalState) : Prop where
  heap : s.heap.Twin o p s'.heap
  same : s' = { s with heap := s'.heap }

namespace EvalState

variable {o : Outside} {p q : Pairing} {s s' : EvalState}

theorem Twin.place (h : s.Twin o p s') : s'.place = s.place := by rw [h.same]

theorem Twin.error (h : s.Twin o p s') (pos : Pos) (f : RuntimeFault) :
    s'.error pos f = s.error pos f := by
  rw [EvalState.error, EvalState.error, h.place]

theorem Twin.withHeap (h : s.Twin o p s') {g g' : Heap} (hg : g.Twin o q g') :
    Twin o q { s with heap := g } { s' with heap := g' } :=
  ⟨hg, by rw [h.same]⟩

end EvalState

inductive Applied.Twin (p : Pairing) : Applied → Applied → Prop
  | done {r r' : Except RuntimeError Value} (h : Agrees (Value.Twin p) r r') :
    Twin p (.done r) (.done r')
  | enter {c c' : Closure} {a b : ScopeId} {others others' : List Value} (hc : c.Twin p c')
    (hab : p.scopes a b) (ho : Value.Twins p others others') :
    Twin p (.enter c a others) (.enter c' b others')
  | again {f f' : Value} {others others' : List Value} (hf : f.Twin p f')
    (ho : Value.Twins p others others') : Twin p (.again f others) (.again f' others')

namespace Applied

variable {o : Outside} {p : Pairing} {s s' : EvalState}

theorem twin_give {v v' : Value} {others others' : List Value} (hv : v.Twin p v')
    (ho : Value.Twins p others others') : (give v others).Twin p (give v' others') := by
  cases ho with
  | nil => exact .done (.ok hv)
  | cons h hs => exact .again hv (.cons h hs)

/-- Both rounds come to the same, in states that are twins again. -/
def Together (o : Outside) (p : Pairing) (x y : Applied × EvalState) : Prop :=
  ∃ q, p.Within q ∧ x.1.Twin q y.1 ∧ x.2.Twin o q y.2

theorem together_error (hs : s.Twin o p s') (e : RuntimeError) :
    Together o p (.done (.error e), s) (.done (.error e), s') :=
  ⟨p, .refl p, .done (.error e), hs⟩

theorem twin_call {lib : HostLibrary} (hlib : lib.Natural) (hs : s.Twin o p s') (pos : Pos)
    {fn fn' : Callable} (hf : fn.Twin p fn') {args args' others others' : List Value}
    (ha : Value.Twins p args args') (ho : Value.Twins p others others') :
    Together o p (call lib pos fn args others s) (call lib pos fn' args' others' s') := by
  cases hf with
  | @closure c c' hc =>
    simp only [call, hc.params, hc.inspect]
    rcases Closure.bindParams_twin c.params ha with ⟨v, v', he, he', hv⟩ | ⟨t, t', he, he', ht⟩
    · simp only [he, he', hs.error, hv.typeName]
      exact together_error hs _
    · simp only [he, he']
      have hvars : Table.Twin (Value.Held p) t.reverse t'.reverse :=
        List.rel_reverse (Table.Twin.imp ht fun _ _ h => .value h)
      refine ⟨_, p.within_addScope, .enter (hc.mono p.within_addScope) (.inr ⟨rfl, rfl⟩)
        (ho.mono p.within_addScope), hs.withHeap (hs.heap.newScope hvars (.some hc.scope))⟩
  | builtin b =>
    simp only [call]
    rcases (Builtin.call_twin hs.heap b ha).cases with ⟨f, he, he'⟩ | ⟨⟨v, g⟩, ⟨v', g'⟩, he, he', hr⟩
    · simp only [he, he', hs.place]
      exact together_error hs _
    · simp only [he, he']
      obtain ⟨q, hq, hv, hg⟩ := hr
      exact ⟨q, hq.within, twin_give hv (ho.mono hq.within), hs.withHeap hg⟩
  | host d =>
    simp only [call]
    rcases (HostData.call_twin hlib hs.heap.unique s.heap s'.heap d ha).cases with
      ⟨f, he, he'⟩ | ⟨v, v', he, he', hv⟩
    · simp only [he, he', hs.error]
      exact together_error hs _
    · simp only [he, he']
      exact ⟨p, .refl p, twin_give hv ho, hs⟩

theorem twin_round {lib : HostLibrary} (hlib : lib.Natural) (hs : s.Twin o p s') (pos : Pos)
    {fn fn' : Value} (hf : fn.Twin p fn') {args args' : List Value} (ha : Value.Twins p args args') :
    Together o p (round lib pos fn args s) (round lib pos fn' args' s') := by
  unfold round
  rcases rel_cases hf.callable? with ⟨hc, hc'⟩ | ⟨⟨f, before⟩, ⟨f', before'⟩, hc, hc', hfn, hb⟩
  · simp only [hc, hc', hf.typeName, hs.error]
    exact together_error hs _
  · have hall : Value.Twins p (before ++ args) (before' ++ args') := List.rel_append hb ha
    simp only [hc, hc', hfn.arity, ← hall.length_eq]
    split
    · exact ⟨p, .refl p, .done (.ok (Value.twin_partialApp hfn hall)), hs⟩
    · exact twin_call hlib hs pos hfn (List.forall₂_take _ hall) (List.forall₂_drop _ hall)

end Applied

end LazySession
