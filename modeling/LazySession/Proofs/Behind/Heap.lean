import LazySession.Proofs.Eval.Framing
import LazySession.Proofs.Twin.Machine
import Mathlib.Data.Set.BooleanAlgebra
import Mathlib.Order.CompletePartialOrder

/-!
# Heaps of which one is behind

What a thunk gives is kept, so a heap in which much has been evaluated differs from one in which little
has. `Heap.Behind p h g`: what is paired by `p` is the same in both but for addresses, and what has a
value in `h` has a twin of it in `g`. In `g` more thunks may have a value.

Names, cells and texts are not affected by what has been evaluated: `Heap.idle` forgets it, and two
heaps of which one is behind are twins without it. `Heap.Behind.join`: new addresses of the one may be
paired with addresses of the other that have been there for a while and have no partner yet.
-/

namespace LazySession

/-! ## Sets of addresses -/

inductive Addr
  | thunk (id : ThunkId)
  | cell (id : CellId)
  | scope (id : ScopeId)

namespace Heap

/-- The addresses that are taken. -/
def has (h : Heap) : Set Addr := fun
  | .thunk id => id < h.thunks.size
  | .cell id => id < h.cells.size
  | .scope id => id < h.scopes.size

/-- The addresses that are taken later and not before. -/
def made (h h' : Heap) : Set Addr := h'.has \ h.has

/-- Nothing is kept apart. -/
def nothing : Outside := ⟨{}, fun _ => False, fun _ => False, fun _ => False⟩

end Heap

namespace Pairing

/-- The addresses of the second heap that have a partner. -/
def seen (p : Pairing) : Set Addr := fun
  | .thunk b => ∃ a, p.thunks a b
  | .cell b => ∃ a, p.cells a b
  | .scope b => ∃ a, p.scopes a b

/-- The pairs of `p` whose second address has a partner in `r`. -/
def upto (p r : Pairing) : Pairing where
  thunks a b := p.thunks a b ∧ ∃ c, r.thunks b c
  cells a b := p.cells a b ∧ ∃ c, r.cells b c
  scopes a b := p.scopes a b ∧ ∃ c, r.scopes b c

/-- The pairs of both. -/
def join (p q : Pairing) : Pairing where
  thunks a b := p.thunks a b ∨ q.thunks a b
  cells a b := p.cells a b ∨ q.cells a b
  scopes a b := p.scopes a b ∨ q.scopes a b

/-- Every address that has a partner, as its own partner. -/
def diag (p : Pairing) : Pairing where
  thunks a b := a = b ∧ ∃ c, p.thunks a c
  cells a b := a = b ∧ ∃ c, p.cells a c
  scopes a b := a = b ∧ ∃ c, p.scopes a c

/-- No address has a partner but itself. -/
structure Diagonal (p : Pairing) : Prop where
  thunks : ∀ {a b}, p.thunks a b → a = b
  cells : ∀ {a b}, p.cells a b → a = b
  scopes : ∀ {a b}, p.scopes a b → a = b

variable {p q r : Pairing}

theorem diagonal_diag (p : Pairing) : p.diag.Diagonal := ⟨And.left, And.left, And.left⟩

theorem Diagonal.within_diag (hp : p.Diagonal) (h : p.Within q) : p.Within q.diag :=
  ⟨fun hab => ⟨hp.thunks hab, _, h.thunks hab⟩, fun hab => ⟨hp.cells hab, _, h.cells hab⟩,
    fun hab => ⟨hp.scopes hab, _, h.scopes hab⟩⟩

theorem within_upto : (p.upto r).Within p := ⟨And.left, And.left, And.left⟩

theorem within_join_left : p.Within (p.join q) := ⟨.inl, .inl, .inl⟩

theorem within_join_right : q.Within (p.join q) := ⟨.inr, .inr, .inr⟩

theorem Within.seen (h : p.Within q) : p.seen ⊆ q.seen := fun x hx => by
  cases x with
  | thunk b => exact hx.imp fun _ h' => h.thunks h'
  | cell b => exact hx.imp fun _ h' => h.cells h'
  | scope b => exact hx.imp fun _ h' => h.scopes h'

theorem seen_join : (p.join q).seen = p.seen ∪ q.seen := by
  ext x
  cases x <;> exact exists_or

theorem oneToOne_join {r s : Nat → Nat → Prop} (hr : OneToOne r) (hs : OneToOne s)
    (hnew : ∀ {a b}, s a b → r a b ∨ (∀ c, ¬ r a c) ∧ ∀ c, ¬ r c b) :
    OneToOne fun a b => r a b ∨ s a b := by
  have hmixed : ∀ {a b a' b'}, r a b → s a' b' → (a = a' ↔ b = b') := by
    intro a b a' b' h h'
    rcases hnew h' with h' | ⟨hfree, hfree'⟩
    · exact hr h h'
    · refine ⟨?_, ?_⟩
      · rintro rfl
        exact absurd h (hfree b)
      · rintro rfl
        exact absurd h (hfree' a)
  rintro a b a' b' (h | h) (h' | h')
  · exact hr h h'
  · exact hmixed h h'
  · exact ⟨fun he => ((hmixed h' h).mp he.symm).symm, fun he => ((hmixed h' h).mpr he.symm).symm⟩
  · exact hs h h'

/-- `q` has all pairs of `p`, and further ones of second addresses in `X`. Scopes that were there in
the heap `h` have no new partners. -/
structure Gains (p q : Pairing) (h : Heap) (X : Set Addr) : Prop where
  within : p.Within q
  seen : q.seen ⊆ p.seen ∪ X
  scopes : ∀ {a b}, q.scopes a b → p.scopes a b ∨ h.scopes.size ≤ a

section
variable {h h' : Heap} {X Y : Set Addr}

theorem Gains.refl (p : Pairing) (h : Heap) (X : Set Addr) : p.Gains p h X :=
  ⟨.refl p, Set.subset_union_left, .inl⟩

theorem Gains.mono (hp : p.Gains q h X) (hX : X ⊆ Y) : p.Gains q h Y :=
  ⟨hp.within, hp.seen.trans (Set.union_subset_union_right _ hX), hp.scopes⟩

theorem Gains.trans (hp : p.Gains q h X) (hq : q.Gains r h' X) (hs : h.SmallerThan h') :
    p.Gains r h X where
  within := hp.within.trans hq.within
  seen _ hx := (hq.seen hx).elim (fun hx => hp.seen hx) .inr
  scopes hab := (hq.scopes hab).elim hp.scopes fun hn => .inr (hs.scopes.trans hn)

end

end Pairing

/-! ## Values of which the second is known -/

section
variable {p r : Pairing}

theorem Closure.Twin.upto {c c' c'' : Closure} (h : c.Twin p c') (hr : c'.Twin r c'') :
    c.Twin (p.upto r) c' :=
  ⟨⟨h.scope, _, hr.scope⟩, h.same⟩

theorem Callable.Twin.upto {f f' f'' : Callable} (h : f.Twin p f') (hr : f'.Twin r f'') :
    f.Twin (p.upto r) f' := by
  cases h with
  | closure h => cases hr with | closure hr => exact .closure (h.upto hr)
  | builtin b => exact .builtin b
  | host d => exact .host d

theorem Value.Twin.upto {v v' v'' : Value} (h : v.Twin p v') (hr : v'.Twin r v'') :
    v.Twin (p.upto r) v' := by
  induction h generalizing v'' with
  | int v => exact .int v
  | bool b => exact .bool b
  | str s => exact .str s
  | unit => exact .unit
  | closure h => cases hr with | closure hr => exact .closure (h.upto hr)
  | builtin b => exact .builtin b
  | cell h => cases hr with | cell hr => exact .cell ⟨h, _, hr⟩
  | host d => exact .host d
  | noHost => exact .noHost
  | @partialApp fn fn' args args' hf hlength _ ih =>
    cases hr with
    | @partialApp _ _ _ args'' hfr hlength' har =>
      refine .partialApp (hf.upto hfr) hlength fun x hx => ?_
      obtain ⟨i, hi, rfl⟩ := List.getElem_of_mem hx
      have hlt : i < args'.length ∧ i < args''.length := by
        simp only [List.length_zip] at hi
        omega
      have hmem : (args'[i], args''[i]) ∈ args'.zip args'' :=
        List.mem_iff_getElem.mpr ⟨i, by simp [hlt], by simp⟩
      simpa using ih _ hx (by simpa using har _ hmem)

theorem forall₂_upto {α : Type} {R S T : α → α → Prop} (hRST : ∀ x y z, R x y → S y z → T x y)
    {xs ys zs : List α} (h : List.Forall₂ R xs ys) (h' : List.Forall₂ S ys zs) :
    List.Forall₂ T xs ys := by
  induction h generalizing zs with
  | nil => exact .nil
  | cons hx _ ih => cases h' with | cons hx' h' => exact .cons (hRST _ _ _ hx hx') (ih h')

theorem Value.Twins.upto {vs vs' vs'' : List Value} (h : Twins p vs vs') (hr : Twins r vs' vs'') :
    Twins (p.upto r) vs vs' :=
  forall₂_upto (fun _ _ _ hx hy => hx.upto hy) h hr

theorem Value.Held.upto {v v' v'' : Value} (h : v.Held p v') (hr : v'.Held r v'') :
    v.Held (p.upto r) v' := by
  cases h with
  | value h =>
    cases hr with
    | value hr => exact .value (h.upto hr)
    | thunk _ => exact absurd rfl (h.not_thunk.2 _)
  | thunk h =>
    cases hr with
    | value hr => exact absurd rfl (hr.not_thunk.1 _)
    | thunk hr => exact .thunk ⟨h, _, hr⟩

theorem rel_upto {α : Type} {R S T : α → α → Prop} (hRST : ∀ x y z, R x y → S y z → T x y)
    {x y z : Option α} (h : Option.Rel R x y) (h' : Option.Rel S y z) : Option.Rel T x y := by
  cases h with
  | none => exact .none
  | some h => cases h' with | some h' => exact .some (hRST _ _ _ h h')

theorem Table.Twin.upto {t t' t'' : Table Value} (h : t.Twin (Value.Held p) t')
    (hr : t'.Twin (Value.Held r) t'') : t.Twin (Value.Held (p.upto r)) t' :=
  forall₂_upto (fun _ _ _ hx hy => ⟨hx.1, hx.2.upto hy.2⟩) h hr

theorem Scope.Twin.upto {s s' s'' : Scope} (h : s.Twin p s') (hr : s'.Twin r s'') :
    s.Twin (p.upto r) s' :=
  ⟨h.vars.upto hr.vars, rel_upto (fun _ _ _ hx hy => ⟨hx, _, hy⟩) h.outer hr.outer⟩

end

/-! ## Values of which a twin is known -/

section
variable {p : Pairing}

theorem Closure.Twin.diag {c c' : Closure} (h : c.Twin p c') : c.Twin p.diag c :=
  ⟨⟨rfl, _, h.scope⟩, rfl⟩

theorem Callable.Twin.diag {f f' : Callable} (h : f.Twin p f') : f.Twin p.diag f := by
  cases h with
  | closure h => exact .closure h.diag
  | builtin b => exact .builtin b
  | host d => exact .host d

theorem Value.Twin.diag {v v' : Value} (h : v.Twin p v') : v.Twin p.diag v := by
  induction h with
  | int v => exact .int v
  | bool b => exact .bool b
  | str s => exact .str s
  | unit => exact .unit
  | closure h => exact .closure h.diag
  | builtin b => exact .builtin b
  | cell h => exact .cell ⟨rfl, _, h⟩
  | host d => exact .host d
  | noHost => exact .noHost
  | @partialApp fn fn' args args' hf hlength _ ih =>
    refine .partialApp hf.diag rfl fun x hx => ?_
    obtain ⟨i, hi, rfl⟩ := List.getElem_of_mem hx
    have hlt : i < args.length := by simpa using hi
    have hmem : (args[i], args'[i]) ∈ args.zip args' :=
      List.mem_iff_getElem.mpr ⟨i, by simp [hlt, ← hlength], by simp⟩
    simpa using ih _ hmem

theorem forall₂_diag {α : Type} {R S : α → α → Prop} (hRS : ∀ x y, R x y → S x x) {xs ys : List α}
    (h : List.Forall₂ R xs ys) : List.Forall₂ S xs xs := by
  induction h with
  | nil => exact .nil
  | cons hx _ ih => exact .cons (hRS _ _ hx) ih

theorem rel_diag {α : Type} {R S : α → α → Prop} (hRS : ∀ x y, R x y → S x x) {x y : Option α}
    (h : Option.Rel R x y) : Option.Rel S x x := by
  cases h with
  | none => exact .none
  | some h => exact .some (hRS _ _ h)

theorem Value.Twins.diag {vs vs' : List Value} (h : Twins p vs vs') : Twins p.diag vs vs :=
  forall₂_diag (fun _ _ hx => hx.diag) h

theorem Value.Held.diag {v v' : Value} (h : v.Held p v') : v.Held p.diag v := by
  cases h with
  | value h => exact .value h.diag
  | thunk h => exact .thunk ⟨rfl, _, h⟩

theorem Scope.Twin.diag {s s' : Scope} (h : s.Twin p s') : s.Twin p.diag s :=
  ⟨forall₂_diag (fun _ _ hx => ⟨rfl, hx.2.diag⟩) h.vars, rel_diag (fun _ _ hx => ⟨rfl, _, hx⟩) h.outer⟩

end

/-! ## Heaps without what has been evaluated -/

/-- Only scopes in `T` and in `S` are paired. -/
def Pairing.Amid (p : Pairing) (T S : Set ScopeId) : Prop := ∀ {a b}, p.scopes a b → a ∈ T ∧ b ∈ S

namespace Heap

/-- What is in `h` is in `h'`, too, but for the names in scopes outside of `S`. -/
structure Holds (S : Set ScopeId) (h h' : Heap) : Prop where
  scopes : ∀ id ∈ S, ∀ s, h.scopes[id]? = some s → h'.scopes[id]? = some s
  size : h.scopes.size ≤ h'.scopes.size
  thunks : ∀ (id : ThunkId) t, h.thunks[id]? = some t → h'.thunks[id]? = some t
  cells : ∀ (id : CellId) c, h.cells[id]? = some c → h'.cells[id]? = some c

/-- The heap in which no thunk has been demanded. -/
def idle (h : Heap) : Heap := { h with thunks := h.thunks.map fun t => { t with state := .pending } }

variable {h h' g g' k k' : Heap} {p q r : Pairing} {S T : Set ScopeId}

theorem amid_univ (p : Pairing) : p.Amid .univ .univ := fun _ => ⟨trivial, trivial⟩

@[simp] theorem cells_idle (h : Heap) : h.idle.cells = h.cells := rfl

@[simp] theorem scopes_idle (h : Heap) : h.idle.scopes = h.scopes := rfl

@[simp] theorem size_thunks_idle (h : Heap) : h.idle.thunks.size = h.thunks.size := by simp [idle]

theorem getElem?_idle (h : Heap) (id : ThunkId) :
    h.idle.thunks[id]? = (h.thunks[id]?).map fun t => { t with state := .pending } := by
  simp [idle]

theorem lookup_idle (h : Heap) (id : ScopeId) (x : String) : h.idle.lookup id x = h.lookup id x :=
  lookup_congr (scopes_idle h) x id

theorem idle_setThunk (h : Heap) (id : ThunkId) (state : ThunkState) :
    (h.setThunk id state).idle = h.idle := by
  have hthunks : (h.setThunk id state).idle.thunks = h.idle.thunks := by
    apply Array.ext_getElem?
    intro i
    simp only [getElem?_idle, setThunk, Array.getElem?_modify]
    split
    · cases h.thunks[i]? <;> rfl
    · rfl
  exact congrArg (fun thunks => { h with thunks }) hthunks

theorem idle_newBinding (h : Heap) (b : Binding) (scope : ScopeId) (source : String)
    (want : Option BaseType) :
    h.idle.newBinding b scope source want =
      ((h.newBinding b scope source want).1, (h.newBinding b scope source want).2.idle) := by
  unfold newBinding
  split
  · rfl
  · simp [newThunk, idle]

theorem idle_newBindings (scope : ScopeId) (source : String) (bs : List Binding) :
    ∀ h : Heap, h.idle.newBindings bs scope source = (h.newBindings bs scope source).idle := by
  induction bs with
  | nil => exact fun _ => rfl
  | cons b bs ih =>
    intro h
    simp only [newBindings, List.foldl_cons, idle_newBinding] at ih ⊢
    exact ih ((h.newBinding b scope source none).2.setVar scope b.name
      (h.newBinding b scope source none).1)

theorem Twin.idle {o : Outside} (ht : h.Twin o p h') : h.idle.Twin nothing p h'.idle where
  thunks := by
    refine ⟨ht.thunks.unique, fun hab => ?_, fun hf => hf.elim⟩
    obtain ⟨t, t', hx, hy, htt⟩ := ht.thunks.related hab
    refine ⟨{ t with state := .pending }, { t' with state := .pending }, by rw [getElem?_idle, hx]; rfl,
      by rw [getElem?_idle, hy]; rfl, htt.name, htt.source, htt.want, htt.code, .pending⟩
  cells := ⟨ht.cells.unique, ht.cells.related, fun hf => hf.elim⟩
  scopes := ⟨ht.scopes.unique, ht.scopes.related, fun hf => hf.elim⟩
  nested := ht.nested

/-! ### More heap -/

theorem Holds.refl (S : Set ScopeId) (h : Heap) : h.Holds S h :=
  ⟨fun _ _ _ hs => hs, le_rfl, fun _ _ ht => ht, fun _ _ hc => hc⟩

theorem Holds.trans (hh : h.Holds S g) (hg : g.Holds S k) : h.Holds S k :=
  ⟨fun id hid s hs => hg.scopes id hid s (hh.scopes id hid s hs), hh.size.trans hg.size,
    fun id t ht => hg.thunks id t (hh.thunks id t ht), fun id c hc => hg.cells id c (hh.cells id c hc)⟩

theorem Holds.mono (hh : h.Holds S g) (hT : T ⊆ S) : h.Holds T g :=
  ⟨fun id hid => hh.scopes id (hT hid), hh.size, hh.thunks, hh.cells⟩

theorem Grows.idle {U : ThunkId → Prop} (g : h.Grows U h') : h.idle.Holds .univ h'.idle where
  scopes id _ := g.scopes id
  size := g.scopes_size
  thunks id t ht := by
    rw [getElem?_idle] at ht
    obtain ⟨t', ht', rfl⟩ := Option.map_eq_some_iff.mp ht
    obtain ⟨state, ht'', -⟩ := g.thunks id t' ht'
    rw [getElem?_idle, ht'']
    rfl
  cells := g.cells

theorem le_size {α : Type} {xs ys : Array α} (h : ∀ (i : Nat) x, xs[i]? = some x → ys[i]? = some x) :
    xs.size ≤ ys.size := by
  refine Nat.le_of_not_lt fun hlt => ?_
  have := (Array.getElem?_eq_some_iff.mp (h _ _ (Array.getElem?_eq_getElem hlt))).1
  omega

/-- `h'` is a later state of `h`, but for the names in scopes outside of `S`. -/
structure Ripens (S : Set ScopeId) (h h' : Heap) : Prop where
  idle : h.idle.Holds S h'.idle
  done : ∀ {id v}, h.thunkValue? id = some v → h'.thunkValue? id = some v

theorem Ripens.refl (S : Set ScopeId) (h : Heap) : h.Ripens S h := ⟨.refl _ _, id⟩

theorem Ripens.trans (r : h.Ripens S g) (r' : g.Ripens S k) : h.Ripens S k :=
  ⟨r.idle.trans r'.idle, fun hv => r'.done (r.done hv)⟩

theorem Ripens.mono (r : h.Ripens S g) (hT : T ⊆ S) : h.Ripens T g := ⟨r.idle.mono hT, r.done⟩

theorem Ripens.smallerThan (r : h.Ripens S h') : h.SmallerThan h' where
  thunks := by simpa using le_size r.idle.thunks
  cells := le_size r.idle.cells
  scopes := r.idle.size

theorem Ripens.thunk (r : h.Ripens S h') {id : ThunkId} {t : Thunk} (ht : h.thunks[id]? = some t) :
    ∃ state, h'.thunks[id]? = some { t with state } := by
  have hidle := r.idle.thunks id { t with state := .pending } (by rw [getElem?_idle, ht]; rfl)
  rw [getElem?_idle] at hidle
  obtain ⟨t', ht', he⟩ := Option.map_eq_some_iff.mp hidle
  obtain ⟨name, code, source, want, state⟩ := t'
  cases he
  exact ⟨state, ht'⟩

theorem SmallerThan.trans (hs : h.SmallerThan g) (hs' : g.SmallerThan k) : h.SmallerThan k :=
  ⟨hs.thunks.trans hs'.thunks, hs.cells.trans hs'.cells, hs.scopes.trans hs'.scopes⟩

theorem SmallerThan.has (hs : h.SmallerThan h') : h.has ⊆ h'.has := fun x hx => by
  cases x with
  | thunk id => exact Nat.lt_of_lt_of_le hx hs.thunks
  | cell id => exact Nat.lt_of_lt_of_le hx hs.cells
  | scope id => exact Nat.lt_of_lt_of_le hx hs.scopes

/-! ### More heap and other pairs -/

theorem Nested.holds {id : ScopeId} (hn : h.Nested id) (hh : h.Holds S h') (hid : id ∈ S)
    (hlt : id < h.scopes.size) : h'.Nested id := by
  intro s o hs ho
  rw [hh.scopes _ hid _ (Array.getElem?_eq_getElem hlt)] at hs
  exact hn s o (by rw [Array.getElem?_eq_getElem hlt, hs]) ho

theorem Twin.holds (ht : h.Twin nothing p g) (hp : p.Amid T S) (hh : h.Holds T k) (hg : g.Holds S k') :
    k.Twin nothing p k' where
  thunks := by
    refine ⟨ht.thunks.unique, fun hab => ?_, fun hf => hf.elim⟩
    obtain ⟨x, y, hx, hy, hxy⟩ := ht.thunks.related hab
    exact ⟨x, y, hh.thunks _ _ hx, hg.thunks _ _ hy, hxy⟩
  cells := by
    refine ⟨ht.cells.unique, fun hab => ?_, fun hf => hf.elim⟩
    obtain ⟨x, y, hx, hy, hxy⟩ := ht.cells.related hab
    exact ⟨x, y, hh.cells _ _ hx, hg.cells _ _ hy, hxy⟩
  scopes := by
    refine ⟨ht.scopes.unique, fun hab => ?_, fun hf => hf.elim⟩
    obtain ⟨x, y, hx, hy, hxy⟩ := ht.scopes.related hab
    exact ⟨x, y, hh.scopes _ (hp hab).1 _ hx, hg.scopes _ (hp hab).2 _ hy, hxy⟩
  nested hab := ⟨(ht.nested hab).1.holds hh (hp hab).1 (ht.scopes.lt hab).1,
    (ht.nested hab).2.holds hg (hp hab).2 (ht.scopes.lt hab).2⟩

theorem Twin.diag {o : Outside} (ht : h.Twin o p g) : h.Twin nothing p.diag h where
  thunks := by
    refine ⟨fun hx hy => by rw [hx.1, hy.1], ?_, fun hf => hf.elim⟩
    rintro a _ ⟨rfl, b, hab⟩
    obtain ⟨x, y, hx, -, hxy⟩ := ht.thunks.related hab
    refine ⟨x, x, hx, hx, rfl, rfl, rfl, rel_diag (fun _ _ hc => ⟨rfl, rfl, _, hc.2⟩) hxy.code, ?_⟩
    have hs := hxy.state
    generalize x.state = s at hs ⊢
    generalize y.state = s' at hs
    cases hs with
    | pending => exact .pending
    | forcing => exact .forcing
    | done hv => exact .done hv.diag
  cells := by
    refine ⟨fun hx hy => by rw [hx.1, hy.1], ?_, fun hf => hf.elim⟩
    rintro a _ ⟨rfl, b, hab⟩
    obtain ⟨x, y, hx, -, hxy⟩ := ht.cells.related hab
    exact ⟨x, x, hx, hx, rel_diag (fun _ _ hv => hv.diag) hxy⟩
  scopes := by
    refine ⟨fun hx hy => by rw [hx.1, hy.1], ?_, fun hf => hf.elim⟩
    rintro a _ ⟨rfl, b, hab⟩
    obtain ⟨x, y, hx, -, hxy⟩ := ht.scopes.related hab
    exact ⟨x, x, hx, hx, hxy.diag⟩
  nested := by
    rintro a _ ⟨rfl, b, hab⟩
    exact ⟨(ht.nested hab).1, (ht.nested hab).1⟩

theorem Twin.upto (ht : h.Twin nothing p g) (hr : k.Twin nothing r k') (hS : r.Amid S .univ)
    (hk : k.Holds S g) : h.Twin nothing (p.upto r) k where
  thunks := by
    refine ⟨fun hx hy => ht.thunks.unique hx.1 hy.1, fun ⟨hab, c, hbc⟩ => ?_, fun hf => hf.elim⟩
    obtain ⟨x, y, hx, hy, hxy⟩ := ht.thunks.related hab
    obtain ⟨y', z, hy', -, hyz⟩ := hr.thunks.related hbc
    obtain rfl : y = y' := Option.some.inj (hy.symm.trans (hk.thunks _ _ hy'))
    refine ⟨x, y, hx, hy', hxy.name, hxy.source, hxy.want, ?_, ?_⟩
    · exact rel_upto (fun _ _ _ hx hy => ⟨hx.1, hx.2, _, hy.2⟩) hxy.code hyz.code
    · have hs := hxy.state
      have hs' := hyz.state
      generalize x.state = s at hs ⊢
      generalize y.state = s' at hs hs' ⊢
      generalize z.state = s'' at hs'
      cases hs with
      | pending => exact .pending
      | forcing => exact .forcing
      | done hv => cases hs' with | done hv' => exact .done (hv.upto hv')
  cells := by
    refine ⟨fun hx hy => ht.cells.unique hx.1 hy.1, fun ⟨hab, c, hbc⟩ => ?_, fun hf => hf.elim⟩
    obtain ⟨x, y, hx, hy, hxy⟩ := ht.cells.related hab
    obtain ⟨y', z, hy', -, hyz⟩ := hr.cells.related hbc
    obtain rfl : y = y' := Option.some.inj (hy.symm.trans (hk.cells _ _ hy'))
    exact ⟨x, y, hx, hy', rel_upto (fun _ _ _ hx hy => hx.upto hy) hxy hyz⟩
  scopes := by
    refine ⟨fun hx hy => ht.scopes.unique hx.1 hy.1, fun ⟨hab, c, hbc⟩ => ?_, fun hf => hf.elim⟩
    obtain ⟨x, y, hx, hy, hxy⟩ := ht.scopes.related hab
    obtain ⟨y', z, hy', -, hyz⟩ := hr.scopes.related hbc
    obtain rfl : y = y' := Option.some.inj (hy.symm.trans (hk.scopes _ (hS hbc).1 _ hy'))
    exact ⟨x, y, hx, hy', hxy.upto hyz⟩
  nested := fun ⟨hab, _, hbc⟩ => ⟨(ht.nested hab).1, (hr.nested hbc).1⟩

/-- The pairs that `q` has and `p` has not are of addresses that have no partner in `p`. -/
structure Fresh (p q : Pairing) (h : Heap) : Prop where
  thunks : ∀ {a b}, q.thunks a b → p.thunks a b ∨ h.thunks.size ≤ a ∧ .thunk b ∉ p.seen
  cells : ∀ {a b}, q.cells a b → p.cells a b ∨ h.cells.size ≤ a ∧ .cell b ∉ p.seen
  scopes : ∀ {a b}, q.scopes a b → p.scopes a b ∨ (∀ c, ¬ p.scopes a c) ∧ .scope b ∉ p.seen

theorem Twin.join (hp : h.Twin nothing p g) (hq : k.Twin nothing q k') (hT : p.Amid T .univ)
    (hS : q.Amid .univ S) (hh : h.Holds T k) (hk : k'.Holds S g) (hf : Fresh p q h) :
    k.Twin nothing (p.join q) g where
  thunks := by
    refine ⟨Pairing.oneToOne_join hp.thunks.unique hq.thunks.unique fun hab => (hf.thunks hab).imp_right
      fun hn => ⟨fun c hc => Nat.not_lt_of_le hn.1 (hp.thunks.lt hc).1, fun c hc => hn.2 ⟨c, hc⟩⟩, ?_,
      fun hf => hf.elim⟩
    rintro a b (hab | hab)
    · obtain ⟨x, y, hx, hy, hxy⟩ := hp.thunks.related hab
      exact ⟨x, y, hh.thunks _ _ hx, hy, hxy.mono Pairing.within_join_left⟩
    · obtain ⟨x, y, hx, hy, hxy⟩ := hq.thunks.related hab
      exact ⟨x, y, hx, hk.thunks _ _ hy, hxy.mono Pairing.within_join_right⟩
  cells := by
    refine ⟨Pairing.oneToOne_join hp.cells.unique hq.cells.unique fun hab => (hf.cells hab).imp_right
      fun hn => ⟨fun c hc => Nat.not_lt_of_le hn.1 (hp.cells.lt hc).1, fun c hc => hn.2 ⟨c, hc⟩⟩, ?_,
      fun hf => hf.elim⟩
    rintro a b (hab | hab)
    · obtain ⟨x, y, hx, hy, hxy⟩ := hp.cells.related hab
      exact ⟨x, y, hh.cells _ _ hx, hy, rel_imp hxy fun _ _ h => h.mono Pairing.within_join_left⟩
    · obtain ⟨x, y, hx, hy, hxy⟩ := hq.cells.related hab
      exact ⟨x, y, hx, hk.cells _ _ hy, rel_imp hxy fun _ _ h => h.mono Pairing.within_join_right⟩
  scopes := by
    refine ⟨Pairing.oneToOne_join hp.scopes.unique hq.scopes.unique fun hab => (hf.scopes hab).imp_right
      fun hn => ⟨hn.1, fun c hc => hn.2 ⟨c, hc⟩⟩, ?_, fun hf => hf.elim⟩
    rintro a b (hab | hab)
    · obtain ⟨x, y, hx, hy, hxy⟩ := hp.scopes.related hab
      exact ⟨x, y, hh.scopes _ (hT hab).1 _ hx, hy, hxy.mono Pairing.within_join_left⟩
    · obtain ⟨x, y, hx, hy, hxy⟩ := hq.scopes.related hab
      exact ⟨x, y, hx, hk.scopes _ (hS hab).2 _ hy, hxy.mono Pairing.within_join_right⟩
  nested := by
    rintro a b (hab | hab)
    · exact ⟨(hp.nested hab).1.holds hh (hT hab).1 (hp.scopes.lt hab).1, (hp.nested hab).2⟩
    · exact ⟨(hq.nested hab).1, (hq.nested hab).2.holds hk (hS hab).2 (hq.scopes.lt hab).2⟩

/-! ### Texts -/

theorem inspectFrom_idle {C : CellId → Prop}
    (hC : ∀ id, C id → ∀ v, h.getCell? id = some v → (∀ t, v ≠ .thunk t) ∧ ∀ c, v = .cell c → C c)
    (n : Nat) : ∀ (seen : List CellId) {v : Value}, (∀ t, v ≠ .thunk t) → (∀ c, v = .cell c → C c) →
      h.idle.inspectFrom n seen v = h.inspectFrom n seen v := by
  induction n with
  | zero =>
    intro seen v hv _
    cases v with
    | thunk id => exact absurd rfl (hv id)
    | _ => simp [inspectFrom]
  | succ n ih =>
    intro seen v hv hc
    cases v with
    | thunk id => exact absurd rfl (hv id)
    | cell id =>
      have hcell : h.idle.getCell? id = h.getCell? id := rfl
      simp only [inspectFrom, hcell]
      split
      · rfl
      · split
        · rename_i u hu
          obtain ⟨hu₁, hu₂⟩ := hC id (hc id rfl) u hu
          rw [ih _ hu₁ hu₂]
        · rfl
    | _ => simp [inspectFrom]

theorem inspect_idle {o : Outside} (ht : h.idle.Twin o p g) {v v' : Value} (hv : v.Twin p v') :
    h.idle.inspect v = h.inspect v := by
  unfold inspect
  rw [size_thunks_idle]
  refine inspectFrom_idle (C := fun id => ∃ b, p.cells id b) ?_ _ _ hv.not_thunk.1 ?_
  · rintro a ⟨b, hab⟩ u hu
    obtain ⟨hn, -⟩ | ⟨w, w', hw, -, htwin⟩ := rel_cases (ht.getCell? hab)
    · rw [show h.getCell? a = none from hn] at hu
      cases hu
    · obtain rfl := Option.some.inj (hu.symm.trans hw)
      exact ⟨htwin.not_thunk.1, by rintro c rfl; cases htwin with | cell h => exact ⟨_, h⟩⟩
  · rintro c rfl
    cases hv with | cell hc => exact ⟨_, hc⟩

theorem inspect_idle_right {o : Outside} (ht : h.Twin o p g.idle) {v v' : Value} (hv : v.Twin p v') :
    g.idle.inspect v' = g.inspect v' := by
  unfold inspect
  rw [size_thunks_idle]
  refine inspectFrom_idle (C := fun id => ∃ a, p.cells a id) ?_ _ _ hv.not_thunk.2 ?_
  · rintro b ⟨a, hab⟩ u hu
    obtain ⟨-, hn⟩ | ⟨w, w', -, hw, htwin⟩ := rel_cases (ht.getCell? hab)
    · rw [show g.getCell? b = none from hn] at hu
      cases hu
    · obtain rfl := Option.some.inj (hu.symm.trans hw)
      exact ⟨htwin.not_thunk.2, by rintro c rfl; cases htwin with | cell h => exact ⟨_, h⟩⟩
  · rintro c rfl
    cases hv with | cell hc => exact ⟨_, hc⟩

/-! ### States of thunks -/

theorem Adds.thunkValue? (ha : h.Adds h') {id : ThunkId} {v : Value} :
    h'.thunkValue? id = some v ↔ h.thunkValue? id = some v := by
  simp only [thunkValue?_eq_some]
  constructor
  · rintro ⟨t, ht, hs⟩
    rcases ha.new id t ht with ht | hp
    · exact ⟨t, ht, hs⟩
    · rw [hp] at hs
      cases hs
  · rintro ⟨t, ht, hs⟩
    exact ⟨t, ha.old id t ht, hs⟩

theorem Adds.forcing (ha : h.Adds h') (id : ThunkId) : h'.Forcing id ↔ h.Forcing id := by
  constructor
  · rintro ⟨t, ht, hs⟩
    rcases ha.new id t ht with ht | hp
    · exact ⟨t, ht, hs⟩
    · rw [hp] at hs
      cases hs
  · rintro ⟨t, ht, hs⟩
    exact ⟨t, ha.old id t ht, hs⟩

theorem Adds.ripens {U : ThunkId → Prop} (ha : h.Adds h') (hg : h.Grows U h') : h.Ripens .univ h' :=
  ⟨hg.idle, ha.thunkValue?.mpr⟩

/-! ## One heap behind another -/

/-- What is paired is the same but for addresses and for what has been evaluated, and what has a value
in `h` has a twin of it in `g`. -/
structure Behind (p : Pairing) (h g : Heap) : Prop where
  idle : h.idle.Twin nothing p g.idle
  done : ∀ {a b v}, p.thunks a b → h.thunkValue? a = some v →
    ∃ v', g.thunkValue? b = some v' ∧ v.Twin p v'

namespace Behind

theorem ripens (hb : h.Behind p g) (hp : p.Amid .univ S) (hg : g.Ripens S g') : h.Behind p g' where
  idle := hb.idle.holds hp (.refl _ _) hg.idle
  done hab hv := by
    obtain ⟨v', hv', htwin⟩ := hb.done hab hv
    exact ⟨v', hg.done hv', htwin⟩

theorem of_twin {o : Outside} (ht : h.Twin o p g) : h.Behind p g where
  idle := ht.idle
  done hab hv := by
    obtain ⟨t, hx, hs⟩ := thunkValue?_eq_some.mp hv
    obtain ⟨x, y, hx', hy, hxy⟩ := ht.thunks.related hab
    obtain rfl := Option.some.inj (hx.symm.trans hx')
    have hstate := hxy.state
    rw [hs] at hstate
    generalize hs' : y.state = s' at hstate
    cases hstate with | done hv => exact ⟨_, thunkValue?_eq_some.mpr ⟨y, hy, hs'⟩, hv⟩

theorem join (hp : h.Behind p g) (hq : k.idle.Twin nothing q k'.idle) (hT : p.Amid T .univ)
    (hS : q.Amid .univ S) (hh : h.Ripens T k)
    (hv : ∀ {id v}, k.thunkValue? id = some v → h.thunkValue? id = some v) (hk : k'.Ripens S g)
    (hf : Fresh p q h) : k.Behind (p.join q) g where
  idle := hp.idle.join hq hT hS hh.idle hk.idle
    ⟨fun hq => by simpa using hf.thunks hq, hf.cells, hf.scopes⟩
  done := by
    intro a b v hab hab'
    have hv' := hv hab'
    suffices hab : p.thunks a b by
      obtain ⟨v', hb, htwin⟩ := hp.done hab hv'
      exact ⟨v', hb, htwin.mono Pairing.within_join_left⟩
    rcases hab with hab | hab
    · exact hab
    · refine (hf.thunks hab).resolve_right fun hn => ?_
      obtain ⟨t, ht, -⟩ := thunkValue?_eq_some.mp hv'
      exact absurd (Array.getElem?_eq_some_iff.mp ht).1 (Nat.not_lt_of_le hn.1)

theorem inspect (hb : h.Behind p g) {v v' : Value} (hv : v.Twin p v') : g.inspect v' = h.inspect v := by
  rw [← inspect_idle_right hb.idle hv, hb.idle.inspect hv, inspect_idle hb.idle hv]

end Behind

end Heap

end LazySession
