import LazySession.Eval.Apply
import LazySession.Proofs.Eval.Primitive
import LazySession.Proofs.Table
import Mathlib.Data.List.Forall2
import Mathlib.Data.Option.Basic

/-!
# Values that differ in addresses only

A pairing says which addresses of one heap stand for which addresses of another. Two values are
twins if they are the same but for paired addresses. Thunks are held by scopes and fields and are no
values of their own: what a thunk stands in for is only known once it has been forced.

`Operator.eval_twin`: operators cannot tell twins apart.
-/

namespace LazySession

/-! ## Pairings -/

/-- Every address has at most one partner. -/
def OneToOne (r : Nat → Nat → Prop) : Prop :=
  ∀ {a b a' b'}, r a b → r a' b' → (a = a' ↔ b = b')

/-- The addresses of one heap that stand for addresses of another. -/
structure Pairing where
  thunks : ThunkId → ThunkId → Prop
  cells : CellId → CellId → Prop
  scopes : ScopeId → ScopeId → Prop

namespace Pairing

/-- All that is paired stays so. -/
structure Within (p q : Pairing) : Prop where
  thunks : ∀ {a b}, p.thunks a b → q.thunks a b
  cells : ∀ {a b}, p.cells a b → q.cells a b
  scopes : ∀ {a b}, p.scopes a b → q.scopes a b

variable {p q r : Pairing}

theorem Within.refl (p : Pairing) : p.Within p := ⟨id, id, id⟩

theorem Within.trans (h : p.Within q) (h' : q.Within r) : p.Within r :=
  ⟨fun hp => h'.thunks (h.thunks hp), fun hp => h'.cells (h.cells hp),
    fun hp => h'.scopes (h.scopes hp)⟩

/-- No address has two partners. -/
structure Unique (p : Pairing) : Prop where
  thunks : OneToOne p.thunks
  cells : OneToOne p.cells
  scopes : OneToOne p.scopes

end Pairing

/-! ## Options -/

section
variable {α β : Type} {R S : α → β → Prop} {x : Option α} {y : Option β}

theorem rel_cases (h : Option.Rel R x y) :
    (x = none ∧ y = none) ∨ ∃ a b, x = some a ∧ y = some b ∧ R a b := by
  cases h with
  | none => exact .inl ⟨rfl, rfl⟩
  | some h => exact .inr ⟨_, _, rfl, rfl, h⟩

theorem rel_imp (h : Option.Rel R x y) (hRS : ∀ a b, R a b → S a b) : Option.Rel S x y := by
  cases h with
  | none => exact .none
  | some h => exact .some (hRS _ _ h)

end

/-! ## Values -/

/-- Functions that differ in their scopes only, which are paired. -/
structure Closure.Twin (p : Pairing) (c c' : Closure) : Prop where
  scope : p.scopes c.scope c'.scope
  same : c' = { c with scope := c'.scope }

inductive Callable.Twin (p : Pairing) : Callable → Callable → Prop
  | closure {c c' : Closure} (h : c.Twin p c') : Twin p (.closure c) (.closure c')
  | builtin (b : Builtin) : Twin p (.builtin b) (.builtin b)
  | host (d : HostData) : Twin p (.host d) (.host d)

/-- Values that are the same but for paired addresses. A thunk is none of them. -/
inductive Value.Twin (p : Pairing) : Value → Value → Prop
  | int (v : Int64) : Twin p (.int v) (.int v)
  | bool (b : Bool) : Twin p (.bool b) (.bool b)
  | str (s : String) : Twin p (.str s) (.str s)
  | unit : Twin p .unit .unit
  | closure {c c' : Closure} (h : c.Twin p c') : Twin p (.closure c) (.closure c')
  | builtin (b : Builtin) : Twin p (.builtin b) (.builtin b)
  | partialApp {fn fn' : Callable} {args args' : List Value} (hf : fn.Twin p fn')
    (hlength : args.length = args'.length) (ha : ∀ x ∈ args.zip args', Twin p x.1 x.2) :
    Twin p (.partialApp fn args) (.partialApp fn' args')
  | cell {a b : CellId} (h : p.cells a b) : Twin p (.cell a) (.cell b)
  | host (d : HostData) : Twin p (.host d) (.host d)
  | noHost : Twin p .noHost .noHost

/-- Lists of twins. -/
abbrev Value.Twins (p : Pairing) : List Value → List Value → Prop := List.Forall₂ (Value.Twin p)

/-- What a variable or a field holds: twins, or thunks that are paired. -/
inductive Value.Held (p : Pairing) : Value → Value → Prop
  | value {v v' : Value} (h : v.Twin p v') : Held p v v'
  | thunk {a b : ThunkId} (h : p.thunks a b) : Held p (.thunk a) (.thunk b)

section
variable {p q : Pairing}

theorem Closure.Twin.mono {c c' : Closure} (h : c.Twin p c') (hw : p.Within q) : c.Twin q c' :=
  ⟨hw.scopes h.scope, h.same⟩

theorem Callable.Twin.mono {f f' : Callable} (h : f.Twin p f') (hw : p.Within q) : f.Twin q f' := by
  cases h with
  | closure h => exact .closure (h.mono hw)
  | builtin b => exact .builtin b
  | host d => exact .host d

theorem Value.Twin.mono {v v' : Value} (h : v.Twin p v') (hw : p.Within q) : v.Twin q v' := by
  induction h with
  | int v => exact .int v
  | bool b => exact .bool b
  | str s => exact .str s
  | unit => exact .unit
  | closure h => exact .closure (h.mono hw)
  | builtin b => exact .builtin b
  | partialApp hf hlength _ ih => exact .partialApp (hf.mono hw) hlength ih
  | cell h => exact .cell (hw.cells h)
  | host d => exact .host d
  | noHost => exact .noHost

theorem Value.Twins.mono {vs vs' : List Value} (h : Twins p vs vs') (hw : p.Within q) :
    Twins q vs vs' :=
  h.imp fun _ _ hv => hv.mono hw

theorem Value.Held.mono {v v' : Value} (h : v.Held p v') (hw : p.Within q) : v.Held q v' := by
  cases h with
  | value h => exact .value (h.mono hw)
  | thunk h => exact .thunk (hw.thunks h)

theorem Value.twin_partialApp {fn fn' : Callable} {args args' : List Value} (hf : fn.Twin p fn')
    (ha : Twins p args args') : (Value.partialApp fn args).Twin p (.partialApp fn' args') :=
  .partialApp hf ha.length_eq fun _ hx => (List.forall₂_iff_zip.mp ha).2 hx

end

/-! ## Looking at values -/

namespace Closure

variable {p : Pairing} {c c' : Closure}

theorem Twin.params (h : c.Twin p c') : c'.params = c.params := by rw [h.same]; rfl

theorem Twin.arity (h : c.Twin p c') : c'.arity = c.arity := by rw [h.same]; rfl

theorem Twin.inspect (h : c.Twin p c') : c'.inspect = c.inspect := by rw [h.same]; rfl

theorem Twin.body (h : c.Twin p c') : c'.body = c.body := by rw [h.same]

theorem Twin.source (h : c.Twin p c') : c'.source = c.source := by rw [h.same]

theorem Twin.traceName (h : c.Twin p c') : c'.traceName = c.traceName := by rw [h.same]; rfl

end Closure

namespace Callable

variable {p : Pairing} {f f' : Callable}

theorem Twin.arity (h : f.Twin p f') : f'.arity = f.arity := by
  cases h with
  | closure h => exact h.arity
  | builtin b => rfl
  | host d => rfl

theorem Twin.inspect (h : f.Twin p f') : f'.inspect = f.inspect := by
  cases h with
  | closure h => exact h.inspect
  | builtin b => rfl
  | host d => rfl

end Callable

namespace Value

variable {p : Pairing} {v v' : Value}

theorem Twin.int? (h : v.Twin p v') : v'.int? = v.int? := by cases h <;> rfl

theorem Twin.bool? (h : v.Twin p v') : v'.bool? = v.bool? := by cases h <;> rfl

theorem Twin.str? (h : v.Twin p v') : v'.str? = v.str? := by cases h <;> rfl

theorem Twin.isUnit (h : v.Twin p v') : v'.isUnit = v.isUnit := by cases h <;> rfl

theorem Twin.typeName (h : v.Twin p v') : v'.typeName = v.typeName := by cases h <;> rfl

theorem Twin.objectType (h : v.Twin p v') : v'.objectType = v.objectType := by cases h <;> rfl

theorem Twin.conforms (h : v.Twin p v') (t : BaseType) : v'.conforms t = v.conforms t := by
  cases t <;> simp only [Value.conforms, h.int?, h.bool?, h.str?, h.isUnit]

theorem Twin.not_thunk (h : v.Twin p v') : (∀ id, v ≠ .thunk id) ∧ ∀ id, v' ≠ .thunk id := by
  cases h <;> exact ⟨nofun, nofun⟩

theorem twin_of_isPlain (h : v.isPlain) : v.Twin p v := by
  cases v with
  | int v => exact .int v
  | bool b => exact .bool b
  | str s => exact .str s
  | unit => exact .unit
  | _ => cases h

theorem Twin.callable? (h : v.Twin p v') :
    Option.Rel (fun x y => x.1.Twin p y.1 ∧ Twins p x.2 y.2) v.callable? v'.callable? := by
  cases h with
  | closure h => exact .some ⟨.closure h, .nil⟩
  | builtin b => exact .some ⟨.builtin b, .nil⟩
  | partialApp hf hlength ha =>
    simp only [Value.callable?, hf.arity, ← hlength]
    split
    · exact .some ⟨hf, List.forall₂_iff_zip.mpr ⟨hlength, fun hx => ha _ hx⟩⟩
    · exact .none
  | host d =>
    simp only [Value.callable?]
    split
    · exact .some ⟨.host d, .nil⟩
    · exact .none
  | _ => exact .none

end Value

/-! ## Operators -/

namespace Operator

variable {p : Pairing} {l l' r r' : Value}

theorem equal?_twin (hl : l.Twin p l') (hr : r.Twin p r') : equal? l' r' = equal? l r := by
  simp only [equal?, hl.int?, hl.str?, hl.bool?, hl.isUnit, hr.int?, hr.str?, hr.bool?, hr.isUnit]

theorem compare?_twin (hl : l.Twin p l') (hr : r.Twin p r') : compare? l' r' = compare? l r := by
  simp only [compare?, hl.int?, hl.str?, hr.int?, hr.str?]

theorem eval_twin (op : Operator) (hl : l.Twin p l') (hr : r.Twin p r') :
    op.eval l' r' = op.eval l r := by
  simp only [eval, equal?_twin hl hr, compare?_twin hl hr, hl.int?, hl.str?, hl.typeName, hr.int?,
    hr.str?, hr.bool?, hr.typeName]

theorem shortcut_twin (op : Operator) (hl : l.Twin p l') : op.shortcut l' = op.shortcut l := by
  simp only [shortcut, hl.bool?, hl.typeName]

end Operator

/-! ## Tables -/

namespace Table

variable {α : Type} {R S : α → α → Prop} {t t' : Table α} {x : String} {a a' : α}

/-- Tables with the same names and related values. -/
def Twin (R : α → α → Prop) : Table α → Table α → Prop :=
  List.Forall₂ fun x y => x.1 = y.1 ∧ R x.2 y.2

theorem Twin.imp (h : Twin R t t') (hRS : ∀ a b, R a b → S a b) : Twin S t t' :=
  List.Forall₂.imp (fun _ _ hx => ⟨hx.1, hRS _ _ hx.2⟩) h

theorem Twin.names (h : Twin R t t') : t'.names = t.names := by
  induction h with
  | nil => rfl
  | cons hx _ ih =>
    simp only [Table.names, List.map_cons] at ih ⊢
    rw [ih, hx.1]

theorem Twin.get? (h : Twin R t t') (x : String) : Option.Rel R (t.get? x) (t'.get? x) := by
  induction h with
  | nil => exact .none
  | @cons y y' _ _ hx _ ih =>
    obtain ⟨n, b⟩ := y
    obtain ⟨n', b'⟩ := y'
    obtain ⟨rfl, hb⟩ := hx
    simp only [Table.get?]
    split
    · exact .some hb
    · exact ih

theorem Twin.put (h : Twin R t t') (x : String) (ha : R a a') :
    Twin R (t.put x a) (t'.put x a') := by
  induction h with
  | nil => exact .cons ⟨rfl, ha⟩ .nil
  | @cons y y' _ _ hx hrest ih =>
    obtain ⟨n, b⟩ := y
    obtain ⟨n', b'⟩ := y'
    obtain ⟨rfl, hb⟩ := hx
    simp only [Table.put]
    split
    · exact .cons ⟨rfl, ha⟩ hrest
    · exact .cons ⟨rfl, hb⟩ ih

end Table

/-! ## Parameters -/

namespace Closure

variable {p : Pairing}

/-- The parameters of twins take twins in the same way. -/
theorem bindParams_twin (ps : List Param) : ∀ {args args' : List Value}, Value.Twins p args args' →
    (∃ v v', bindParams ps args = .error v ∧ bindParams ps args' = .error v' ∧ v.Twin p v') ∨
    (∃ t t', bindParams ps args = .ok t ∧ bindParams ps args' = .ok t' ∧
      t.Twin (Value.Twin p) t') := by
  induction ps with
  | nil => intro args args' _; exact .inr ⟨[], [], rfl, rfl, .nil⟩
  | cons param ps ih =>
    intro args args' h
    cases h with
    | nil => cases param <;> exact .inr ⟨[], [], rfl, rfl, .nil⟩
    | @cons v v' vs vs' hv hvs =>
      cases param with
      | named x =>
        rcases ih hvs with ⟨u, u', he, he', hu⟩ | ⟨t, t', he, he', ht⟩
        · exact .inl ⟨u, u', by simp only [bindParams, he]; rfl, by simp only [bindParams, he']; rfl,
            hu⟩
        · refine .inr ⟨(x, v) :: t, (x, v') :: t', by simp only [bindParams, he]; rfl,
            by simp only [bindParams, he']; rfl, .cons ⟨rfl, hv⟩ ht⟩
      | unit =>
        simp only [bindParams, hv.isUnit]
        split
        · exact ih hvs
        · exact .inl ⟨v, v', rfl, rfl, hv⟩

end Closure

end LazySession
