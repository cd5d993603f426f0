import Mathlib.Data.List.Chain
import LazySession.Proofs.Lang.Declarations
import LazySession.Proofs.Lang.Fuel
import LazySession.Proofs.Lang.Moved

/-!
# Two readers over the same words

`Sides.Follows`: two readers go over tokens that have the same words in other places, the second with
further tokens behind. Where the first has success, so has the second. Some of the tokens may stand
together: an expression in parentheses, or a `let` expression, may be written in another way on the
second side.
-/

namespace LazySession

/-- Whether a token ends what is being read, given the columns of the blocks around. -/
def Cursor.bounds (layout : List Int) (t : Token) : Bool :=
  match layout with
  | [] => false
  | col :: _ => t.startsLine && t.pos.col ≤ col

theorem Cursor.atBoundary_eq (c : Cursor) : c.atBoundary = bounds c.layout c.peek := by
  unfold atBoundary bounds
  cases c.layout <;> rfl

open Cursor (bounds)

/-! ## What is read -/

/-- What is behind an expression, and does not go on with it. -/
def Shuts (layout : List Int) (rest : List Token) : Prop :=
  ∀ t ∈ rest.head?, t.kind = .op ∨ Grammar.startsAtom t = true → bounds layout t = true

/-- The same word in two places, or two ways to write an expression in parentheses or a `let`
expression: the token that opens it and those that follow. -/
inductive Pair
  | word (t t' : Token)
  | group (t t' : Token) (ts ts' : List Token)
  | block (t t' : Token) (ts ts' : List Token)

namespace Pair

def first : Pair → Token
  | word t _ | group t _ _ _ | block t _ _ _ => t

def first' : Pair → Token
  | word _ t' | group _ t' _ _ | block _ t' _ _ => t'

def left : Pair → List Token
  | word t _ => [t]
  | group t _ ts _ | block t _ ts _ => t :: ts

def right : Pair → List Token
  | word _ t' => [t']
  | group _ t' _ ts' | block _ t' _ ts' => t' :: ts'

def lefts (ps : List Pair) : List Token := ps.flatMap left

def rights (ps : List Pair) : List Token := ps.flatMap right

section
variable (f : Pos → Pos) (fuel : Nat) (t : Token) (ts : List Token) (e : Expr)

/-- The tokens are read as the expression in parentheses, wherever they stand. -/
structure Group : Prop where
  opens : t.kind = .lparen
  inside : ∃ u us, ts = u :: us ∧ u.kind ≠ .rparen
  reads : ∀ n, fuel ≤ n → ∀ rest stop layout, ∃ a,
    (Grammar.atom n).run ⟨t :: ts ++ rest, stop, layout⟩ = .ok (a, ⟨rest, stop, layout⟩) ∧
      a.move f = e

/-- The tokens are read as the `let` expression, wherever nothing behind them goes on with it. -/
structure Block : Prop where
  opens : t.kind = .kwLet
  reads : ∀ n, fuel ≤ n → ∀ rest stop layout, Shuts layout rest → ∃ a,
    (Grammar.letIn n).run ⟨t :: ts ++ rest, stop, layout⟩ = .ok (a, ⟨rest, stop, layout⟩) ∧
      a.move f = e

end

variable (f g : Pos → Pos) (fuel : Nat)

/-- Both sides say the same, and in places that `f` and `g` move to one. -/
def Fits : Pair → Prop
  | word t t' => t'.kind = t.kind ∧ t'.text = t.text ∧ f t.pos = g t'.pos
  | group t t' ts ts' => ∃ e, Group f fuel t ts e ∧ Group g fuel t' ts' e
  | block t t' ts ts' => ∃ e, Block f fuel t ts e ∧ Block g fuel t' ts' e

/-- Behind a `let` expression is what does not go on with it. -/
def Meets : Pair → Pair → Prop
  | block _ _ _ _, q => q.first.kind ≠ .op ∧ Grammar.startsAtom q.first = false
  | _, _ => True

/-- The pieces stand the same to a column on each side. -/
structure Even (x x' : Int) (p : Pair) : Prop where
  bounds : bounds [x] p.first = bounds [x'] p.first'
  starts : (p.first.startsLine ∧ p.first.pos.col = x) ↔ (p.first'.startsLine ∧ p.first'.pos.col = x')

/-- The pieces can be read side by side. -/
structure Paired (ps : List Pair) : Prop where
  fits : ∀ p ∈ ps, p.Fits f g fuel
  zero : ∀ p ∈ ps.tail, Cursor.bounds [0] p.first = Cursor.bounds [0] p.first'
  meets : ps.IsChain Meets
  even : ps.Pairwise fun p q => q.Even p.first.pos.col p.first'.pos.col

/-- The pieces end a block on the one side if they do on the other. -/
def Under (layout layout' : List Int) (ps : List Pair) : Prop :=
  ∀ p ∈ ps, Cursor.bounds layout p.first = Cursor.bounds layout' p.first'

section
variable {f g fuel} {p : Pair} {ps qs : List Pair} {layout layout' : List Int}

theorem tail_suffix_tail (hs : qs <:+ ps) : qs.tail <:+ ps.tail := by
  obtain ⟨rs, rfl⟩ := hs
  cases rs with
  | nil => exact List.suffix_refl _
  | cons r rs => exact (List.tail_suffix qs).trans (List.suffix_append rs qs)

theorem Paired.suffix (h : Paired f g fuel ps) (hs : qs <:+ ps) : Paired f g fuel qs :=
  ⟨fun p hp => h.fits p (hs.subset hp), fun p hp => h.zero p ((tail_suffix_tail hs).subset hp),
    h.meets.suffix hs, h.even.sublist hs.sublist⟩

theorem Paired.head (h : Paired f g fuel (p :: ps)) : p.Fits f g fuel :=
  h.fits p List.mem_cons_self

theorem Under.suffix (h : Under layout layout' ps) (hs : qs <:+ ps) : Under layout layout' qs :=
  fun p hp => h p (hs.subset hp)

theorem Fits.kind (h : p.Fits f g fuel) : p.first'.kind = p.first.kind := by
  cases p with
  | word t t' => exact h.1
  | group t t' ts ts' =>
    obtain ⟨e, hs, hs'⟩ := h
    rw [first', first, hs.opens, hs'.opens]
  | block t t' ts ts' =>
    obtain ⟨e, hs, hs'⟩ := h
    rw [first', first, hs.opens, hs'.opens]

theorem Fits.word (h : p.Fits f g fuel) (hk : p.first.kind ∉ [.lparen, .kwLet]) :
    ∃ t t', p = .word t t' ∧ t'.kind = t.kind ∧ t'.text = t.text ∧ f t.pos = g t'.pos := by
  cases p with
  | word t t' => exact ⟨t, t', rfl, h⟩
  | group t t' ts ts' =>
    obtain ⟨e, hs, -⟩ := h
    exact absurd hs.opens fun hparen => hk (by simp [first, hparen])
  | block t t' ts ts' =>
    obtain ⟨e, hs, -⟩ := h
    exact absurd hs.opens fun hlet => hk (by simp [first, hlet])

theorem Group.mono {k : Nat} {t : Token} {ts : List Token} {e : Expr} (h : Group f fuel t ts e)
    (hle : fuel ≤ k) : Group f k t ts e :=
  { h with reads := fun n hn => h.reads n (hle.trans hn) }

theorem Block.mono {k : Nat} {t : Token} {ts : List Token} {e : Expr} (h : Block f fuel t ts e)
    (hle : fuel ≤ k) : Block f k t ts e :=
  { h with reads := fun n hn => h.reads n (hle.trans hn) }

theorem Fits.mono {k : Nat} (h : p.Fits f g fuel) (hle : fuel ≤ k) : p.Fits f g k := by
  cases p with
  | word t t' => exact h
  | group t t' ts ts' =>
    obtain ⟨e, hs, hs'⟩ := h
    exact ⟨e, hs.mono hle, hs'.mono hle⟩
  | block t t' ts ts' =>
    obtain ⟨e, hs, hs'⟩ := h
    exact ⟨e, hs.mono hle, hs'.mono hle⟩

theorem exists_fuel (h : ∀ p ∈ ps, ∃ fuel, p.Fits f g fuel) : ∃ fuel, ∀ p ∈ ps, p.Fits f g fuel := by
  induction ps with
  | nil => exact ⟨0, List.forall_mem_nil _⟩
  | cons p ps ih =>
    rw [List.forall_mem_cons] at h
    obtain ⟨k₁, hp⟩ := h.1
    obtain ⟨k₂, hps⟩ := ih h.2
    refine ⟨k₁ + k₂, List.forall_mem_cons.mpr ⟨hp.mono (by omega), fun q hq => ?_⟩⟩
    exact (hps q hq).mono (by omega)

/-- Behind a `let` expression the pieces close it, and so they do on the other side. -/
theorem Paired.shuts {t t' : Token} {ts ts' : List Token}
    (h : Paired f g fuel (.block t t' ts ts' :: ps)) (layout : List Int) :
    Shuts layout (lefts ps) ∧ ∀ tail, (ps = [] → Shuts layout tail) →
      Shuts layout (rights ps ++ tail) := by
  cases ps with
  | nil => exact ⟨nofun, fun tail ht => ht rfl⟩
  | cons q qs =>
    have hmeets := (List.isChain_cons_cons.mp h.meets).1
    have hkind := (h.fits q (by simp)).kind
    have hfirst : (lefts (q :: qs)).head? = some q.first := by
      cases q <;> rfl
    have hfirst' : ∀ tail, (rights (q :: qs) ++ tail).head? = some q.first' := by
      intro tail
      cases q <;> rfl
    have hstarts : Grammar.startsAtom q.first' = Grammar.startsAtom q.first := by
      simp only [Grammar.startsAtom, hkind]
    refine ⟨fun u hu => ?_, fun tail _ u hu => ?_⟩
    · rw [hfirst] at hu
      cases hu
      simp [hmeets.1, hmeets.2]
    · rw [hfirst'] at hu
      cases hu
      simp [hkind, hstarts, hmeets.1, hmeets.2]

end

end Pair

open Pair

/-! ## Two readers -/

/-- Where the two inputs end, and what the second has behind the pieces. -/
structure Sides where
  stop : Pos
  stop' : Pos
  tail : List Token

namespace Sides

def left (_s : Sides) (layout : List Int) (ps : List Pair) : Cursor := ⟨lefts ps, _s.stop, layout⟩

def right (s : Sides) (layout : List Int) (ps : List Pair) : Cursor :=
  ⟨rights ps ++ s.tail, s.stop', layout⟩

/-- What the second input has behind ends an expression. -/
def Ends (s : Sides) (layout : List Int) : Prop := Shuts layout s.tail

/-- Where the first reader has success, it stops in front of some of the pieces in `b`, and so does
the second. If no piece is left, the second may need `E` for it. -/
def Follows {α : Type} (s : Sides) (E : Prop) (R : α → α → Prop) (r r' : Reader α)
    (layout layout' : List Int) (ps b : List Pair) : Prop :=
  ∀ a d, r.run (s.left layout ps) = .ok (a, d) → ∃ qs a', qs <:+ b ∧ d = s.left layout qs ∧ R a a' ∧
    ((qs = [] → E) → r'.run (s.right layout' ps) = .ok (a', s.right layout' qs))

variable {α β : Type} {s : Sides} {E : Prop} {R : α → α → Prop} {T : β → β → Prop}
variable {layout layout' : List Int} {p : Pair} {ps b : List Pair}

@[simp] theorem peek_left (s : Sides) (layout : List Int) (p : Pair) (ps : List Pair) :
    (s.left layout (p :: ps)).peek = p.first := by
  cases p <;> rfl

@[simp] theorem peek_right (s : Sides) (layout : List Int) (p : Pair) (ps : List Pair) :
    (s.right layout (p :: ps)).peek = p.first' := by
  cases p <;> rfl

@[simp] theorem peek_left_nil (s : Sides) (layout : List Int) :
    (s.left layout []).peek = .eof s.stop := rfl

theorem follows_pure {a a' : α} (h : R a a') (hs : ps <:+ b) :
    s.Follows E R (pure a) (pure a') layout layout' ps b := by
  intro c d hr
  cases hr
  exact ⟨ps, a', hs, rfl, h, fun _ => rfl⟩

theorem Follows.imp {E' : Prop} {r r' : Reader α} (h : s.Follows E R r r' layout layout' ps b)
    (hE : E' → E) : s.Follows E' R r r' layout layout' ps b := by
  intro a d hr
  obtain ⟨qs, a', hqs, hd, hR, hrun⟩ := h a d hr
  exact ⟨qs, a', hqs, hd, hR, fun he => hrun fun hnil => hE (he hnil)⟩

theorem Follows.mono {r r' : Reader α} {b' : List Pair}
    (h : s.Follows E R r r' layout layout' ps b) (hb : b <:+ b') :
    s.Follows E R r r' layout layout' ps b' := by
  intro a d hr
  obtain ⟨qs, a', hqs, hrest⟩ := h a d hr
  exact ⟨qs, a', hqs.trans hb, hrest⟩

theorem follows_bind {r r' : Reader α} {f f' : α → Reader β}
    (hr : s.Follows E R r r' layout layout' ps b)
    (hf : ∀ a a' qs, qs <:+ b → R a a' → s.Follows E T (f a) (f' a') layout layout' qs qs) :
    s.Follows E T (r >>= f) (r' >>= f') layout layout' ps b := by
  intro c d h
  obtain ⟨a, c₁, ha, hc⟩ := Reader.bind_ok h
  obtain ⟨qs, a', hqs, rfl, hR, hrun⟩ := hr a c₁ ha
  obtain ⟨qs', c', hqs', rfl, hT, hrun'⟩ := hf a a' qs hqs hR c d hc
  refine ⟨qs', c', hqs'.trans hqs, rfl, hT, fun he => ?_⟩
  rw [Reader.run_bind, hrun fun hnil => he (List.suffix_nil.mp (hnil ▸ hqs'))]
  exact hrun' he

/-- What the first reader needs at the end does not matter if the next one has no success there. -/
theorem follows_bind_before {E' : Prop} {r r' : Reader α} {f f' : α → Reader β}
    (hr : s.Follows E' R r r' layout layout' ps b)
    (hend : ∀ a x d, (f a).run (s.left layout []) ≠ .ok (x, d))
    (hf : ∀ a a' qs, qs <:+ b → R a a' → s.Follows E T (f a) (f' a') layout layout' qs qs) :
    s.Follows E T (r >>= f) (r' >>= f') layout layout' ps b := by
  intro c d h
  obtain ⟨a, c₁, ha, hc⟩ := Reader.bind_ok h
  obtain ⟨qs, a', hqs, rfl, hR, hrun⟩ := hr a c₁ ha
  have hne : qs ≠ [] := by
    intro hnil
    subst hnil
    exact hend a c d hc
  obtain ⟨qs', c', hqs', rfl, hT, hrun'⟩ := hf a a' qs hqs hR c d hc
  refine ⟨qs', c', hqs'.trans hqs, rfl, hT, fun he => ?_⟩
  rw [Reader.run_bind, hrun fun hnil => absurd hnil hne]
  exact hrun' he

theorem follows_get {f f' : Cursor → Reader β}
    (h : s.Follows E T (f (s.left layout ps)) (f' (s.right layout' ps)) layout layout' ps b) :
    s.Follows E T (get >>= f) (get >>= f') layout layout' ps b := h

theorem follows_peek {f f' : Token → Reader β}
    (h : s.Follows E T (f (s.left layout ps).peek) (f' (s.right layout' ps).peek) layout layout'
      ps b) : s.Follows E T (Reader.peek >>= f) (Reader.peek >>= f') layout layout' ps b := h

theorem follows_fail {r r' : Reader α} (h : ∀ a d, r.run (s.left layout ps) ≠ .ok (a, d)) :
    s.Follows E R r r' layout layout' ps b :=
  fun a d hr => absurd hr (h a d)

theorem follows_skip {t t' : Token} {f f' : Unit → Reader β}
    (h : s.Follows E T (f ()) (f' ()) layout layout' ps b) :
    s.Follows E T (Reader.skip >>= f) (Reader.skip >>= f') layout layout' (.word t t' :: ps) b := h

theorem follows_next {t t' : Token} {f f' : Token → Reader β}
    (h : s.Follows E T (f t) (f' t') layout layout' ps b) :
    s.Follows E T (Reader.next >>= f) (Reader.next >>= f') layout layout' (.word t t' :: ps) b := h

theorem expect_nil (s : Sides) {kind : TokenKind} (hk : kind ≠ .eof) (what : String)
    (f : Token → Reader β) (x : β) (d : Cursor) :
    (Reader.expect kind what >>= f).run (s.left layout []) ≠ .ok (x, d) := by
  intro h
  obtain ⟨t, c, ht, -⟩ := Reader.bind_ok h
  change (if (Token.eof s.stop).kind = kind then Reader.next else _).run _ = _ at ht
  rw [if_neg (by simpa [Token.eof] using hk.symm)] at ht
  cases ht

theorem follows_withColumn {r r' : Reader α} {x x' : Int}
    (h : s.Follows E R r r' (x :: layout) (x' :: layout') ps b) :
    s.Follows E R (Reader.withColumn x r) (Reader.withColumn x' r') layout layout' ps b := by
  intro a d hr
  obtain ⟨⟨⟩, c₁, hc₁, hr⟩ := Reader.bind_ok hr
  cases hc₁
  obtain ⟨a₁, c₂, ha, hr⟩ := Reader.bind_ok hr
  obtain ⟨qs, a', hqs, rfl, hR, hrun⟩ := h a₁ c₂ ha
  cases hr
  refine ⟨qs, a', hqs, rfl, hR, fun he => ?_⟩
  have hpush : (Reader.withColumn x' r').run (s.right layout' ps) =
      (r' >>= fun a => do
        modify fun c => { c with layout := c.layout.tail }
        return a : Reader α).run (s.right (x' :: layout') ps) := rfl
  rw [hpush, Reader.run_bind, hrun he]
  rfl

section
variable {f g : Pos → Pos} {fuel : Nat}

theorem follows_expect {kind : TokenKind} {what : String} {k k' : Token → Reader β}
    (hp : Paired f g fuel ps) (hk : kind ≠ .eof) (hk' : kind ∉ [.lparen, .kwLet])
    (h : ∀ t t' qs, ps = .word t t' :: qs → t.kind = kind → t'.text = t.text → f t.pos = g t'.pos →
      s.Follows E T (k t) (k' t') layout layout' qs b) :
    s.Follows E T (Reader.expect kind what >>= k) (Reader.expect kind what >>= k') layout layout'
      ps b := by
  cases ps with
  | nil => exact follows_fail (expect_nil s hk what k)
  | cons p qs =>
    by_cases hkind : p.first.kind = kind
    · obtain ⟨t, t', rfl, hkt, htext, hpos⟩ :=
        (hp.fits p List.mem_cons_self).word (by rw [hkind]; exact hk')
      change t.kind = kind at hkind
      have hleft := Grammar.run_expect (c := s.left layout (.word t t' :: qs)) hkind what
      have hright := Grammar.run_expect (c := s.right layout' (.word t t' :: qs))
        (hkt.trans hkind) what
      intro a d hr
      rw [Reader.run_bind, hleft] at hr
      obtain ⟨qs', a', hqs, hd, hT, hrun⟩ := h t t' qs rfl hkind htext hpos a d hr
      refine ⟨qs', a', hqs, hd, hT, fun he => ?_⟩
      rw [Reader.run_bind, hright]
      exact hrun he
    · refine follows_fail fun a d hr => ?_
      obtain ⟨t, c, ht, -⟩ := Reader.bind_ok hr
      change (if (s.left layout (p :: qs)).peek.kind = kind then Reader.next else _).run _ = _ at ht
      rw [peek_left, if_neg hkind] at ht
      cases ht

end

end Sides

end LazySession
