import LazySession.Proofs.Lang.Pairs

/-!
# Expressions side by side

The same words in two places are read as the same expression but for its places, if every token ends
a block in the one place if it does in the other: `Grammar.abreast`.
-/

namespace LazySession

namespace Grammar

open Reader Sides Pair

/-! ## Where there is nothing to read -/

section
variable {c d : Cursor} {e : Expr}

theorem atom_nil (he : c.toks = []) (n : Nat) : (atom n).run c ≠ .ok (e, d) := by
  intro h
  cases n with
  | zero => exact exhausted_fails c h
  | succ n =>
    rw [atom] at h
    obtain ⟨t, c₁, ht, h⟩ := bind_ok h
    cases ht
    rw [peek_nil he] at h
    cases h

theorem application_nil (he : c.toks = []) (n : Nat) : (application n).run c ≠ .ok (e, d) := by
  intro h
  cases n with
  | zero => exact exhausted_fails c h
  | succ n =>
    rw [application] at h
    obtain ⟨_, _, ha, _⟩ := bind_ok h
    exact atom_nil he n ha

theorem operand_nil (he : c.toks = []) (n : Nat) : (operand n).run c ≠ .ok (e, d) := by
  intro h
  cases n with
  | zero => exact exhausted_fails c h
  | succ n =>
    rw [operand] at h
    obtain ⟨t, c₁, ht, h⟩ := bind_ok h
    cases ht
    rw [peek_nil he] at h
    exact application_nil he n h

theorem operation_nil (he : c.toks = []) (n level : Nat) : (operation n level).run c ≠ .ok (e, d) := by
  intro h
  cases n with
  | zero => exact exhausted_fails c h
  | succ n =>
    rw [operation] at h
    obtain ⟨_, _, ha, _⟩ := bind_ok h
    exact operand_nil he n ha

theorem application_op (hk : c.peek.kind = .op) (n : Nat) :
    (application n).run c ≠ .ok (e, d) := by
  intro h
  cases n with
  | zero => exact exhausted_fails c h
  | succ n =>
    rw [application] at h
    obtain ⟨_, _, h, _⟩ := bind_ok h
    cases n with
    | zero => exact exhausted_fails c h
    | succ n =>
      rw [atom] at h
      obtain ⟨t, c₁, ht, h⟩ := bind_ok h
      cases ht
      rw [hk] at h
      cases h

theorem operation_op {t : Token} (he : c.toks = [t]) (hk : t.kind = .op) (n level : Nat) :
    (operation n level).run c ≠ .ok (e, d) := by
  intro h
  have hpeek : c.peek = t := by simp [Cursor.peek, he]
  cases n with
  | zero => exact exhausted_fails c h
  | succ n =>
    rw [operation] at h
    obtain ⟨_, _, h, _⟩ := bind_ok h
    cases n with
    | zero => exact exhausted_fails c h
    | succ n =>
      rw [operand] at h
      obtain ⟨u, c₁, hu, h⟩ := bind_ok h
      cases hu
      rw [hpeek, hk] at h
      simp only at h
      split at h
      · obtain ⟨_, c₂, hskip, h⟩ := bind_ok h
        cases hskip
        obtain ⟨_, _, h, _⟩ := bind_ok h
        exact operation_nil (by simp [Cursor.advance, he]) n 7 h
      · exact application_op (by rw [hpeek, hk]) n h

end

/-! ## Trees that are alike -/

section
variable (f g : Pos → Pos)

def Alike (e e' : Expr) : Prop := e.move f = e'.move g

def ArgsAlike (es es' : List Expr) : Prop := es.map (Expr.move f) = es'.map (Expr.move g)

def BindAlike (b b' : Binding) : Prop := b.move f = b'.move g

def BindsAlike (bs bs' : List Binding) : Prop :=
  bs.map (BindingOf.move f) = bs'.map (BindingOf.move g)

end

/-! ## Parameters -/

section
variable {f g : Pos → Pos} {gap : Nat}

theorem paramsFrom_ident {t : Token} (hk : t.kind = .ident) (done : List Param) (ts : List Token) :
    paramsFrom done (t :: ts) = paramsFrom (.named t.text :: done) ts := by
  rw [paramsFrom.eq_def]
  simp [hk]

theorem paramsFrom_unit {t u : Token} (ht : t.kind = .lparen) (hu : u.kind = .rparen)
    (done : List Param) (us : List Token) :
    paramsFrom done (t :: u :: us) = paramsFrom (.unit :: done) us := by
  rw [paramsFrom.eq_def]
  simp [ht, hu]

theorem paramsFrom_other {t : Token} {ts : List Token} (hk : t.kind ≠ .ident)
    (h : t.kind = .lparen → ∀ u ∈ ts.head?, u.kind ≠ .rparen) (done : List Param) :
    paramsFrom done (t :: ts) = (done.reverse, t :: ts) := by
  rw [paramsFrom.eq_def]
  cases ts with
  | nil => simp [hk]
  | cons u us =>
    have hnot : ¬ (t.kind = .lparen ∧ u.kind = .rparen) := fun hc => h hc.1 u rfl hc.2
    simp [hk, hnot]

/-- The parameters are the same on both sides if something else than a parenthesis follows. -/
theorem paramsFrom_pairs (tail : List Token) : ∀ (ps : List Pair), (∀ p ∈ ps, p.Fits f g gap) →
    ∀ (done qs : List Param) (t : Token) (rest : List Token),
      paramsFrom done (lefts ps) = (qs, t :: rest) → t.kind ≠ .lparen →
      ∃ ps', ps' <:+ ps ∧ t :: rest = lefts ps' ∧
        paramsFrom done (rights ps ++ tail) = (qs, rights ps' ++ tail)
  | [], _, done, qs, t, rest, h, _ => by simp [lefts, paramsFrom] at h
  | .group u u' us us' :: ps, hfit, done, qs, t, rest, h, hk => by
    obtain ⟨e, hs, -⟩ := hfit _ List.mem_cons_self
    obtain ⟨v, vs, rfl, hv⟩ := hs.inside
    have hident : u.kind ≠ .ident := by simp [hs.opens]
    -- a group is never empty, so its parenthesis opens no unit parameter
    have hinside : u.kind = .lparen → ∀ w ∈ (v :: vs ++ lefts ps).head?, w.kind ≠ .rparen := by
      intro _ w hw
      cases hw
      exact hv
    have hstop := paramsFrom_other hident hinside done
    rw [lefts, List.flatMap_cons, Pair.left, List.cons_append, ← lefts, hstop] at h
    cases h
    exact absurd hs.opens hk
  | .block u u' us us' :: ps, hfit, done, qs, t, rest, h, hk => by
    obtain ⟨e, hs, hs'⟩ := hfit _ List.mem_cons_self
    rw [lefts, List.flatMap_cons, Pair.left, List.cons_append, ← lefts,
      paramsFrom_other (by simp [hs.opens]) (by simp [hs.opens])] at h
    cases h
    refine ⟨.block u u' us us' :: ps, List.suffix_refl _, by simp [lefts, Pair.left], ?_⟩
    rw [rights, List.flatMap_cons, Pair.right, List.cons_append, List.cons_append,
      paramsFrom_other (by simp [hs'.opens]) (by simp [hs'.opens])]
  | .word u u' :: ps, hfit, done, qs, t, rest, h, hk => by
    rw [List.forall_mem_cons] at hfit
    obtain ⟨⟨hkind, htext, -⟩, hfit⟩ := hfit
    rw [lefts, List.flatMap_cons, Pair.left, List.singleton_append, ← lefts] at h
    rw [rights, List.flatMap_cons, Pair.right, List.singleton_append, ← rights, List.cons_append]
    by_cases hident : u.kind = .ident
    · rw [paramsFrom_ident hident] at h
      rw [paramsFrom_ident (hkind.trans hident), htext]
      obtain ⟨ps', hps, hrest, hrun⟩ := paramsFrom_pairs tail ps hfit _ qs t rest h hk
      exact ⟨ps', hps.trans (List.suffix_cons _ _), hrest, hrun⟩
    · by_cases hunit : u.kind = .lparen ∧ ∃ v v' ps', ps = .word v v' :: ps' ∧ v.kind = .rparen
      · obtain ⟨hl, v, v', ps, rfl, hv⟩ := hunit
        rw [List.forall_mem_cons] at hfit
        obtain ⟨⟨hkind', -, -⟩, hfit⟩ := hfit
        rw [lefts, List.flatMap_cons, Pair.left, List.singleton_append, ← lefts,
          paramsFrom_unit hl hv] at h
        rw [rights, List.flatMap_cons, Pair.right, List.singleton_append, ← rights, List.cons_append,
          paramsFrom_unit (hkind.trans hl) (hkind'.trans hv)]
        obtain ⟨ps', hps, hrest, hrun⟩ := paramsFrom_pairs tail ps hfit _ qs t rest h hk
        exact ⟨ps', hps.trans ((List.suffix_cons _ _).trans (List.suffix_cons _ _)), hrest, hrun⟩
      · -- the row of parameters ends here on both sides, as the token is no parenthesis
        have hstop : u.kind = .lparen → ∀ v ∈ (lefts ps).head?, v.kind ≠ .rparen := by
          intro hl v hv hr
          cases ps with
          | nil => cases hv
          | cons p ps =>
            obtain rfl : p.first = v := by
              cases p <;> simpa [lefts, Pair.left, Pair.first] using hv
            obtain ⟨w, w', rfl, -⟩ := (hfit p List.mem_cons_self).word (by rw [hr]; simp)
            exact hunit ⟨hl, w, w', ps, rfl, hr⟩
        rw [paramsFrom_other hident hstop] at h
        cases h
        rw [paramsFrom_other (by rw [hkind]; exact hident) fun hl => absurd (hkind ▸ hl) hk]
        exact ⟨.word u u' :: ps, List.suffix_refl _, rfl, rfl⟩

theorem run_params (c : Cursor) : params.run c =
    .ok ((paramsFrom [] c.toks).1, { c with toks := (paramsFrom [] c.toks).2 }) := rfl

theorem expect_ok {β : Type} {c d : Cursor} {kind : TokenKind} {what : String}
    {k : Token → Reader β} {x : β} (h : (expect kind what >>= k).run c = .ok (x, d)) :
    c.peek.kind = kind := by
  obtain ⟨t, c₁, ht, -⟩ := bind_ok h
  by_cases hk : c.peek.kind = kind
  · exact hk
  · change (if c.peek.kind = kind then next else fail c.peek (.expected what c.peek)).run c = _ at ht
    rw [if_neg hk] at ht
    cases ht

theorem follows_params {β : Type} {s : Sides} {E : Prop} {T : β → β → Prop} (kind : TokenKind)
    {layout layout' : List Int} {ps : List Pair} {k k' : List Param → Reader β}
    (hp : Paired f g gap ps) (hk : kind ≠ .eof) (hl : kind ∉ [.lparen, .kwLet])
    (hnext : ∀ qs c x d, (k qs).run c = .ok (x, d) → c.peek.kind = kind)
    (h : ∀ qs ps', ps' <:+ ps → s.Follows E T (k qs) (k' qs) layout layout' ps' ps') :
    s.Follows E T (params >>= k) (params >>= k') layout layout' ps ps := by
  intro x d hr
  obtain ⟨qs, c, hqs, hr⟩ := bind_ok hr
  rw [run_params] at hqs
  have hpeek := hnext _ _ _ _ hr
  rcases hfrom : paramsFrom [] (s.left layout ps).toks with ⟨qs', rest⟩
  rw [hfrom] at hqs
  cases hqs
  cases rest with
  | nil => exact absurd hpeek.symm hk
  | cons t rest =>
    change t.kind = kind at hpeek
    obtain ⟨ps', hps, hrest, hrun⟩ := paramsFrom_pairs s.tail ps hp.fits [] _ t rest hfrom
      (by rw [hpeek]; exact fun hc => hl (by simp [hc]))
    have hc : { s.left layout ps with toks := t :: rest } = s.left layout ps' := by
      rw [hrest]
      rfl
    simp only [hc] at hr
    obtain ⟨ps'', x', hps', hd, hT, hrun'⟩ := h _ ps' hps x d hr
    refine ⟨ps'', x', hps'.trans hps, hd, hT, fun he => ?_⟩
    have hright : params.run (s.right layout' ps) = .ok (qs', s.right layout' ps') := by
      rw [run_params]
      simp only [Sides.right, hrun]
    rw [run_bind, hright]
    exact hrun' he

end

/-! ## Expressions -/

/-- With `n` units of fuel, and more on the second side, the readers go side by side. -/
structure Abreast (f g : Pos → Pos) (gap : Nat) (s : Sides) (n : Nat) : Prop where
  operation : ∀ level layout layout' ps, Paired f g gap ps → Under layout layout' ps.tail →
    s.Follows (s.Ends layout') (Alike f g) (operation n level) (operation (n + gap) level)
      layout layout' ps ps.tail
  operationFrom : ∀ level left left' layout layout' ps, Alike f g left left' →
    Paired f g gap ps → Under layout layout' ps →
    s.Follows (s.Ends layout') (Alike f g) (operationFrom n level left)
      (operationFrom (n + gap) level left') layout layout' ps ps
  operand : ∀ layout layout' ps, Paired f g gap ps → Under layout layout' ps.tail →
    s.Follows (s.Ends layout') (Alike f g) (operand n) (operand (n + gap)) layout layout' ps ps.tail
  application : ∀ layout layout' ps, Paired f g gap ps → Under layout layout' ps.tail →
    s.Follows (s.Ends layout') (Alike f g) (application n) (application (n + gap)) layout layout'
      ps ps.tail
  arguments : ∀ done done' layout layout' ps, ArgsAlike f g done done' → Paired f g gap ps →
    Under layout layout' ps → s.Follows (s.Ends layout') (ArgsAlike f g) (arguments n done)
      (arguments (n + gap) done') layout layout' ps ps
  atom : ∀ E layout layout' ps, Paired f g gap ps →
    s.Follows E (Alike f g) (atom n) (atom (n + gap)) layout layout' ps ps.tail
  parenthesized : ∀ E t t' layout layout' ps, f t.pos = g t'.pos → Paired f g gap ps →
    s.Follows E (Alike f g) (parenthesized n t) (parenthesized (n + gap) t') layout layout' ps ps
  lambda : ∀ t t' layout layout' ps, Paired f g gap (.word t t' :: ps) → Under layout layout' ps →
    s.Follows (s.Ends layout') (Alike f g) (lambda n) (lambda (n + gap)) layout layout'
      (.word t t' :: ps) ps
  cond : ∀ t t' layout layout' ps, Paired f g gap (.word t t' :: ps) → Under layout layout' ps →
    s.Follows (s.Ends layout') (Alike f g) (cond n) (cond (n + gap)) layout layout'
      (.word t t' :: ps) ps
  letIn : ∀ t t' layout layout' ps, Paired f g gap (.word t t' :: ps) → Under layout layout' ps →
    s.Follows (s.Ends layout') (Alike f g) (letIn n) (letIn (n + gap)) layout layout'
      (.word t t' :: ps) ps
  bindings : ∀ x x' done done' layout layout' ps, BindsAlike f g done done' → Paired f g gap ps →
    (∀ p ∈ ps.tail, p.Even x x') →
    s.Follows (s.Ends (x' :: layout')) (BindsAlike f g) (bindings n x done)
      (bindings (n + gap) x' done') (x :: layout) (x' :: layout') ps ps.tail
  binding : ∀ strict layout layout' ps, Paired f g gap ps → Under layout layout' ps.tail →
    s.Follows (s.Ends layout') (BindAlike f g) (binding n strict) (binding (n + gap) strict)
      layout layout' ps ps.tail

theorem abreast_zero (f g : Pos → Pos) (gap : Nat) (s : Sides) : Abreast f g gap s 0 := by
  constructor <;> intros <;> exact follows_fail fun _ _ => exhausted_fails _

section
variable {f g : Pos → Pos} {gap n : Nat} {s : Sides} {layout layout' : List Int} {p : Pair}
variable {ps : List Pair}

theorem suffix_of_tail {qs : List Pair} (h : qs <:+ ps.tail) : qs <:+ ps :=
  h.trans (List.tail_suffix ps)

theorem atBoundary_left (s : Sides) (layout : List Int) (p : Pair) (ps : List Pair) :
    (s.left layout (p :: ps)).atBoundary = Cursor.bounds layout p.first := by
  rw [Cursor.atBoundary_eq, peek_left]
  rfl

theorem atBoundary_right (s : Sides) (layout : List Int) (p : Pair) (ps : List Pair) :
    (s.right layout (p :: ps)).atBoundary = Cursor.bounds layout p.first' := by
  rw [Cursor.atBoundary_eq, peek_right]
  rfl

theorem peek_right_nil (h : s.Ends layout') :
    (s.right layout' []).peek.kind = .op ∨ startsAtom (s.right layout' []).peek = true →
      (s.right layout' []).atBoundary = true := by
  rw [Cursor.atBoundary_eq]
  have hpeek : (s.right layout' []).peek = s.tail.headD (.eof s.stop') := rfl
  have hlayout : (s.right layout' []).layout = layout' := rfl
  rw [hpeek, hlayout]
  cases htail : s.tail with
  | nil => simp [Token.eof, startsAtom]
  | cons t ts => exact h t (by rw [htail]; rfl)

theorem follows_checkChain {t t' : Token} (htext : t'.text = t.text) (op : Operator)
    (hp : Paired f g gap ps) (hu : Under layout layout' ps) :
    s.Follows (s.Ends layout') (fun _ _ => True) (checkChain t op) (checkChain t' op) layout layout'
      ps ps := by
  refine follows_get ?_
  cases ps with
  | nil =>
    intro a d hr
    rw [if_neg (by simp [Token.eof])] at hr
    cases hr
    refine ⟨[], (), List.suffix_refl _, rfl, trivial, fun he => ?_⟩
    have hend := peek_right_nil (he rfl)
    rw [if_neg (fun hc => hc.2.2 (hend (.inl hc.2.1)))]
    rfl
  | cons p ps =>
    have hkind := hp.head.kind
    simp only [peek_left, peek_right, atBoundary_left, atBoundary_right, hkind,
      hu p List.mem_cons_self]
    split
    · rename_i hc
      obtain ⟨u, u', rfl, -, htext', -⟩ := hp.head.word (by rw [hc.2.1]; simp)
      simp only [Pair.first, Pair.first', htext', htext]
      split
      · split
        · exact follows_fail fun _ _ hr => by cases hr
        · exact follows_pure trivial (List.suffix_refl _)
      · exact follows_pure trivial (List.suffix_refl _)
    · exact follows_pure trivial (List.suffix_refl _)

/-- What stands together is read by each reader at once. -/
theorem follows_group (E : Prop) {t t' : Token} {ts ts' : List Token}
    (hp : Paired f g gap (.group t t' ts ts' :: ps)) :
    s.Follows E (Alike f g) (atom n) (atom (n + gap)) layout layout' (.group t t' ts ts' :: ps)
      ps := by
  obtain ⟨e, hs, hs'⟩ := hp.head
  intro a d hr
  -- with more fuel the first reader does what it did
  have hr' := within_atom (Nat.le_add_right n gap) _ _ _ hr
  obtain ⟨b, hread, hb⟩ := hs.reads (n + gap) (by omega) (lefts ps) s.stop layout
  have hsame : (⟨t :: ts ++ lefts ps, s.stop, layout⟩ : Cursor) =
      s.left layout (.group t t' ts ts' :: ps) := rfl
  rw [hsame, hr'] at hread
  cases hread
  obtain ⟨b', hread', hb'⟩ := hs'.reads (n + gap) (by omega) (rights ps ++ s.tail) s.stop' layout'
  have hsame' : (⟨t' :: ts' ++ (rights ps ++ s.tail), s.stop', layout'⟩ : Cursor) =
      s.right layout' (.group t t' ts ts' :: ps) := by
    simp [Sides.right, rights, Pair.right]
  rw [hsame'] at hread'
  exact ⟨ps, b', List.suffix_refl _, rfl, hb.trans hb'.symm, fun _ => hread'⟩

theorem follows_block {t t' : Token} {ts ts' : List Token}
    (hp : Paired f g gap (.block t t' ts ts' :: ps)) :
    s.Follows (s.Ends layout') (Alike f g) (letIn n) (letIn (n + gap)) layout layout'
      (.block t t' ts ts' :: ps) ps := by
  obtain ⟨e, hs, hs'⟩ := hp.head
  intro a d hr
  have hr' := within_letIn (Nat.le_add_right n gap) _ _ _ hr
  obtain ⟨b, hread, hb⟩ := hs.reads (n + gap) (by omega) (lefts ps) s.stop layout
    (hp.shuts layout).1
  have hsame : (⟨t :: ts ++ lefts ps, s.stop, layout⟩ : Cursor) =
      s.left layout (.block t t' ts ts' :: ps) := rfl
  rw [hsame, hr'] at hread
  cases hread
  -- the second reader may have other tokens behind if this is the last piece
  by_cases he : ps = [] → s.Ends layout'
  · obtain ⟨b', hread', hb'⟩ := hs'.reads (n + gap) (by omega) (rights ps ++ s.tail) s.stop' layout'
      ((hp.shuts layout').2 _ he)
    have hsame' : (⟨t' :: ts' ++ (rights ps ++ s.tail), s.stop', layout'⟩ : Cursor) =
        s.right layout' (.block t t' ts ts' :: ps) := by
      simp [Sides.right, rights, Pair.right]
    rw [hsame'] at hread'
    exact ⟨ps, b', List.suffix_refl _, rfl, hb.trans hb'.symm, fun _ => hread'⟩
  · obtain ⟨b', -, hb'⟩ := hs'.reads gap (Nat.le_refl _) [] s.stop' layout' nofun
    exact ⟨ps, b', List.suffix_refl _, rfl, hb.trans hb'.symm, fun hends => absurd hends he⟩

variable (h : Abreast f g gap s n)
include h

theorem Abreast.succ_operation (level : Nat) (hp : Paired f g gap ps)
    (hu : Under layout layout' ps.tail) :
    s.Follows (s.Ends layout') (Alike f g) (Grammar.operation (n + 1) level)
      (Grammar.operation (n + gap + 1) level) layout layout' ps ps.tail := by
  rw [Grammar.operation, Grammar.operation]
  refine follows_bind (h.operand _ _ _ hp hu) fun e e' qs hqs he => ?_
  exact h.operationFrom _ _ _ _ _ _ he (hp.suffix (suffix_of_tail hqs)) (hu.suffix hqs)

theorem Abreast.succ_operationFrom (level : Nat) {left left' : Expr} (hleft : Alike f g left left')
    (hp : Paired f g gap ps) (hu : Under layout layout' ps) :
    s.Follows (s.Ends layout') (Alike f g) (Grammar.operationFrom (n + 1) level left)
      (Grammar.operationFrom (n + gap + 1) level left') layout layout' ps ps := by
  rw [Grammar.operationFrom, Grammar.operationFrom]
  refine follows_get ?_
  cases ps with
  | nil =>
    intro a d hr
    simp only at hr
    rw [if_pos (Or.inl (by rw [peek_left_nil]; simp [Token.eof]))] at hr
    cases hr
    refine ⟨[], left', List.suffix_refl _, rfl, hleft, fun he => ?_⟩
    have hend := peek_right_nil (he rfl)
    simp only
    rw [if_pos]
    · rfl
    · by_cases hk : (s.right layout' []).peek.kind = .op
      · exact .inr (hend (.inl hk))
      · exact .inl hk
  | cons p ps =>
    have hkind := hp.head.kind
    simp only [peek_left, peek_right, atBoundary_left, atBoundary_right, hkind,
      hu p List.mem_cons_self]
    split
    · exact follows_pure hleft (List.suffix_refl _)
    · rename_i hc
      rw [not_or, not_not] at hc
      obtain ⟨t, t', rfl, -, htext, hpos⟩ := hp.head.word (by rw [hc.1]; simp)
      simp only [Pair.first, Pair.first', htext]
      split
      · exact follows_fail fun _ _ hr => by cases hr
      · rename_i op _
        split
        · exact follows_pure hleft (List.suffix_refl _)
        · have hps : ps <:+ .word t t' :: ps := List.suffix_cons _ _
          refine follows_skip ((follows_bind (h.operation _ _ _ ps (hp.suffix hps)
            ((hu.suffix hps).suffix (List.tail_suffix _))) fun e e' qs hqs he => ?_).mono
              (suffix_of_tail (List.suffix_refl _) |>.trans hps))
          have hqs' : qs <:+ .word t t' :: ps := (suffix_of_tail hqs).trans hps
          refine follows_bind (follows_checkChain htext op (hp.suffix hqs') (hu.suffix hqs'))
            fun _ _ qs₂ hqs₂ _ => ?_
          refine h.operationFrom _ _ _ _ _ _ ?_ (hp.suffix (hqs₂.trans hqs'))
            (hu.suffix (hqs₂.trans hqs'))
          simp only [Alike, Expr.move, Expr.binary.injEq, true_and]
          exact ⟨hpos, hleft, he⟩

theorem Abreast.succ_operand (hp : Paired f g gap ps) (hu : Under layout layout' ps.tail) :
    s.Follows (s.Ends layout') (Alike f g) (Grammar.operand (n + 1)) (Grammar.operand (n + gap + 1))
      layout layout' ps ps.tail := by
  cases ps with
  | nil => exact follows_fail fun _ _ => operand_nil rfl _
  | cons p ps =>
    rw [Grammar.operand, Grammar.operand]
    refine follows_peek ?_
    have hfits := hp.head
    rw [peek_left, peek_right, hfits.kind]
    have hword := fun hk => hfits.word (p := p) hk
    split
    case h_1 hk =>
      obtain ⟨t, t', rfl, -⟩ := hword (by rw [hk]; simp)
      exact h.lambda _ _ _ _ _ hp hu
    case h_2 hk =>
      cases p with
      | word t t' => exact h.letIn _ _ _ _ _ hp hu
      | group t t' ts ts' =>
        obtain ⟨e, hs, -⟩ := hfits
        exact absurd (hs.opens.symm.trans hk) (by decide)
      | block t t' ts ts' => exact follows_block hp
    case h_3 hk =>
      obtain ⟨t, t', rfl, -⟩ := hword (by rw [hk]; simp)
      exact h.cond _ _ _ _ _ hp hu
    case h_4 hk =>
      obtain ⟨t, t', rfl, -, htext, hpos⟩ := hword (by rw [hk]; simp)
      have htext' : (Pair.word t t').first'.text = (Pair.word t t').first.text := htext
      rw [htext']
      by_cases hminus : (Pair.word t t').first.text = "-"
      · rw [if_pos hminus, if_pos hminus]
        have hps : ps <:+ .word t t' :: ps := List.suffix_cons _ _
        refine follows_skip ((follows_bind (h.operation _ _ _ ps (hp.suffix hps)
          (hu.suffix (List.tail_suffix _))) fun e e' qs hqs he => ?_).mono (List.tail_suffix _))
        refine follows_pure ?_ (List.suffix_refl _)
        simp only [Alike, Expr.move, Expr.negate.injEq]
        exact ⟨hpos, he⟩
      · rw [if_neg hminus, if_neg hminus]
        exact h.application _ _ _ hp hu
    case h_5 => exact h.application _ _ _ hp hu

theorem Abreast.succ_application (hp : Paired f g gap ps) (hu : Under layout layout' ps.tail) :
    s.Follows (s.Ends layout') (Alike f g) (Grammar.application (n + 1))
      (Grammar.application (n + gap + 1)) layout layout' ps ps.tail := by
  rw [Grammar.application, Grammar.application]
  refine follows_bind (h.atom _ _ _ _ hp) fun e e' qs hqs he => ?_
  refine follows_bind (h.arguments [] [] _ _ _ rfl (hp.suffix (suffix_of_tail hqs))
    (hu.suffix hqs)) fun es es' qs' hqs' hes => follows_pure ?_ (List.suffix_refl _)
  have hempty : es.isEmpty = es'.isEmpty := by
    simpa [ArgsAlike] using congrArg List.isEmpty hes
  rw [hempty]
  split
  · exact he
  · simp only [Alike, Expr.move, Expr.moveAll_eq, Expr.app.injEq]
    exact ⟨he, hes⟩

theorem Abreast.succ_arguments {done done' : List Expr} (hd : ArgsAlike f g done done')
    (hp : Paired f g gap ps) (hu : Under layout layout' ps) :
    s.Follows (s.Ends layout') (ArgsAlike f g) (Grammar.arguments (n + 1) done)
      (Grammar.arguments (n + gap + 1) done') layout layout' ps ps := by
  have hdone : ArgsAlike f g done.reverse done'.reverse := by
    unfold ArgsAlike at hd ⊢
    rw [List.map_reverse, hd, List.map_reverse]
  rw [Grammar.arguments, Grammar.arguments]
  refine follows_get ?_
  cases ps with
  | nil =>
    intro a d hr
    rw [if_neg (by simp [Token.eof, startsAtom])] at hr
    cases hr
    refine ⟨[], _, List.suffix_refl _, rfl, hdone, fun he => ?_⟩
    rw [if_neg (fun hc => hc.2 (peek_right_nil (he rfl) (.inr hc.1)))]
    rfl
  | cons p ps =>
    have hstarts : startsAtom p.first' = startsAtom p.first := by
      simp only [startsAtom, hp.head.kind]
    simp only [peek_left, peek_right, atBoundary_left, atBoundary_right, hstarts,
      hu p List.mem_cons_self]
    split
    · refine (follows_bind (h.atom _ _ _ _ hp) fun e e' qs hqs he => ?_).mono (List.tail_suffix _)
      refine h.arguments _ _ _ _ _ ?_ (hp.suffix (suffix_of_tail hqs)) (hu.suffix
        (suffix_of_tail hqs))
      simp only [ArgsAlike, List.map_cons, List.cons.injEq]
      exact ⟨he, hd⟩
    · exact follows_pure hdone (List.suffix_refl _)

theorem Abreast.succ_atom (E : Prop) (hp : Paired f g gap ps) :
    s.Follows E (Alike f g) (Grammar.atom (n + 1)) (Grammar.atom (n + gap + 1)) layout layout' ps
      ps.tail := by
  cases ps with
  | nil => exact follows_fail fun _ _ => atom_nil rfl _
  | cons p ps =>
    have hps : ps <:+ p :: ps := List.suffix_cons _ _
    have hfits := hp.head
    cases p with
    | group t t' ts ts' =>
      rw [Nat.add_right_comm n gap 1]
      exact follows_group E hp
    | block t t' ts ts' =>
      obtain ⟨e, hs, -⟩ := hfits
      refine follows_fail fun _ _ hr => ?_
      rw [Grammar.atom] at hr
      obtain ⟨u, c, hu, hr⟩ := bind_ok hr
      cases hu
      rw [peek_left, Pair.first, hs.opens] at hr
      cases hr
    | word t t' =>
      obtain ⟨hkind, htext, hpos⟩ := hfits
      have hdone : ∀ {e e' : Expr}, Alike f g e e' → s.Follows E (Alike f g) (skip >>= fun _ => pure e)
          (skip >>= fun _ => pure e') layout layout' (.word t t' :: ps) ps :=
        fun he => follows_skip (follows_pure he (List.suffix_refl _))
      rw [Grammar.atom, Grammar.atom]
      refine follows_peek ?_
      simp only [peek_left, peek_right, Pair.first, Pair.first', hkind, htext, List.tail_cons]
      split
      · exact hdone (by simp [Alike, Expr.move, hpos])
      · exact hdone (by simp [Alike, Expr.move, hpos])
      · refine follows_skip ?_
        split
        · exact follows_pure (by simp [Alike, Expr.move, hpos]) (List.suffix_refl _)
        · exact follows_pure (by simp [Alike, Expr.move, hpos]) (List.suffix_refl _)
        · exact follows_fail fun _ _ hr => by cases hr
      · refine follows_skip ?_
        split
        · exact follows_pure (by simp [Alike, Expr.move, hpos]) (List.suffix_refl _)
        · exact follows_fail fun _ _ hr => by cases hr
      · exact hdone (by simp [Alike, Expr.move, hpos])
      · exact follows_skip (h.parenthesized _ _ _ _ _ _ hpos (hp.suffix hps))
      · exact follows_fail fun _ _ hr => by cases hr

theorem Abreast.follows_inside (E : Prop) (hp : Paired f g gap ps) :
    s.Follows E (Alike f g)
      (withColumn 0 (Grammar.operation n 0) >>= fun e => expect .rparen "')'" >>= fun _ => pure e)
      (withColumn 0 (Grammar.operation (n + gap) 0) >>= fun e =>
        expect .rparen "')'" >>= fun _ => pure e) layout layout' ps ps := by
  have hzero : Under (0 :: layout) (0 :: layout') ps.tail := hp.zero
  refine (follows_bind_before (follows_withColumn (h.operation 0 _ _ ps hp hzero))
    (fun e => expect_nil s (by simp) _ _) fun e e' qs hqs he => ?_).mono (List.tail_suffix _)
  refine follows_expect (hp.suffix (suffix_of_tail hqs)) (by simp) (by simp) ?_
  intro t t' qs' hqs' _ _ _
  subst hqs'
  exact follows_pure he (List.suffix_cons _ _)

theorem Abreast.succ_parenthesized (E : Prop) {t t' : Token} (hpos : f t.pos = g t'.pos)
    (hp : Paired f g gap ps) :
    s.Follows E (Alike f g) (Grammar.parenthesized (n + 1) t)
      (Grammar.parenthesized (n + gap + 1) t') layout layout' ps ps := by
  rw [Grammar.parenthesized, Grammar.parenthesized]
  refine follows_get ?_
  cases ps with
  | nil =>
    refine follows_fail fun a d hr => ?_
    simp only at hr
    rw [if_neg (by rw [peek_left_nil]; simp [Token.eof]),
      if_neg (by rw [peek_left_nil]; simp [Token.eof])] at hr
    obtain ⟨_, _, hr, _⟩ := bind_ok hr
    obtain ⟨⟨⟩, _, hc, hr⟩ := bind_ok hr
    cases hc
    obtain ⟨_, _, hr, _⟩ := bind_ok hr
    exact operation_nil rfl n 0 hr
  | cons p ps =>
    have hfits := hp.head
    simp only [peek_left, peek_right, hfits.kind]
    by_cases hunit : p.first.kind = .rparen
    · obtain ⟨u, u', rfl, -⟩ := hfits.word (by rw [hunit]; simp)
      rw [if_pos hunit, if_pos hunit]
      exact follows_skip (follows_pure (by simp [Alike, Expr.move, hpos]) (List.suffix_cons _ _))
    · rw [if_neg hunit, if_neg hunit]
      by_cases hop : p.first.kind = .op
      · obtain ⟨u, u', rfl, -, htext, -⟩ := hfits.word (by rw [hop]; simp)
        cases ps with
        | nil =>
          -- the second reader may see a parenthesis behind, but the first has no success
          refine follows_fail fun a d hr => ?_
          rw [if_neg (fun hc => by cases hc.2)] at hr
          obtain ⟨_, _, hr, _⟩ := bind_ok hr
          obtain ⟨⟨⟩, _, hc, hr⟩ := bind_ok hr
          cases hc
          obtain ⟨_, _, hr, _⟩ := bind_ok hr
          exact operation_op rfl hop n 0 hr
        | cons q qs =>
          have hkind := (hp.fits q (by simp)).kind
          have hsecond : (s.left layout (.word u u' :: q :: qs)).peekSecond = q.first := by
            cases q <;> rfl
          have hsecond' : (s.right layout' (.word u u' :: q :: qs)).peekSecond = q.first' := by
            cases q <;> rfl
          rw [hsecond, hsecond', hkind]
          by_cases hclose : q.first.kind = .rparen
          · obtain ⟨v, v', rfl, -⟩ := (hp.fits q (by simp)).word (by rw [hclose]; simp)
            rw [if_pos ⟨hop, hclose⟩, if_pos ⟨hop, hclose⟩]
            have hsame : (Pair.word u u').first'.text = (Pair.word u u').first.text := htext
            rw [hsame]
            split
            · exact follows_fail fun _ _ hr => by cases hr
            · refine follows_skip (follows_skip (follows_pure ?_ ?_))
              · simp [Alike, Expr.move, hpos]
              · exact (List.suffix_cons _ _).trans (List.suffix_cons _ _)
          · rw [if_neg fun hc => hclose hc.2, if_neg fun hc => hclose hc.2]
            exact h.follows_inside E hp
      · rw [if_neg fun hc => hop hc.1, if_neg fun hc => hop hc.1]
        exact h.follows_inside E hp

theorem Abreast.succ_lambda {t t' : Token} (hp : Paired f g gap (.word t t' :: ps))
    (hu : Under layout layout' ps) :
    s.Follows (s.Ends layout') (Alike f g) (Grammar.lambda (n + 1)) (Grammar.lambda (n + gap + 1))
      layout layout' (.word t t' :: ps) ps := by
  obtain ⟨-, -, hpos⟩ := hp.head
  replace hp := hp.suffix (List.suffix_cons _ _)
  rw [Grammar.lambda, Grammar.lambda]
  refine follows_next (follows_params .arrow hp (by simp) (by simp) ?_ ?_)
  · intro qs c x d hr
    cases qs with
    | nil => cases hr
    | cons q qs => exact expect_ok hr
  · intro qs ps' hps
    cases qs with
    | nil => exact follows_fail fun _ _ hr => by cases hr
    | cons q qs =>
      refine follows_expect (hp.suffix hps) (by simp) (by simp) ?_
      intro u u' ps'' hps' _ _ _
      subst hps'
      have hps'' : ps'' <:+ ps := (List.suffix_cons _ _).trans hps
      refine (follows_bind (h.operation _ _ _ _ (hp.suffix hps'')
        ((hu.suffix hps'').suffix (List.tail_suffix _))) fun e e' _ _ he => ?_).mono
          ((List.tail_suffix _).trans (List.suffix_cons _ _))
      refine follows_pure ?_ (List.suffix_refl _)
      simp only [Alike, Expr.move, Expr.lambda.injEq, true_and]
      exact ⟨hpos, he⟩

theorem Abreast.succ_cond {t t' : Token} (hp : Paired f g gap (.word t t' :: ps))
    (hu : Under layout layout' ps) :
    s.Follows (s.Ends layout') (Alike f g) (Grammar.cond (n + 1)) (Grammar.cond (n + gap + 1))
      layout layout' (.word t t' :: ps) ps := by
  obtain ⟨-, -, hpos⟩ := hp.head
  replace hp := hp.suffix (List.suffix_cons _ _)
  have hop : ∀ qs, qs <:+ ps → s.Follows (s.Ends layout') (Alike f g) (Grammar.operation n 0)
      (Grammar.operation (n + gap) 0) layout layout' qs qs := fun qs hqs =>
    (h.operation 0 _ _ qs (hp.suffix hqs) ((hu.suffix hqs).suffix (List.tail_suffix _))).mono
      (List.tail_suffix _)
  rw [Grammar.cond, Grammar.cond]
  refine follows_next (follows_bind (hop ps (List.suffix_refl _)) fun test test' ps₁ h₁ htest => ?_)
  refine follows_expect (hp.suffix h₁) (by simp) (by simp) ?_
  intro _ _ ps₂ h₂ _ _ _
  subst h₂
  replace h₁ := (List.suffix_cons _ _).trans h₁
  refine (follows_bind (hop ps₂ h₁) fun yes yes' ps₃ h₃ hyes => ?_).mono (List.suffix_cons _ _)
  refine follows_expect (hp.suffix (h₃.trans h₁)) (by simp) (by simp) ?_
  intro _ _ ps₄ h₄ _ _ _
  subst h₄
  replace h₃ := (List.suffix_cons _ _).trans (h₃.trans h₁)
  refine (follows_bind (hop ps₄ h₃) fun no no' ps₅ h₅ hno => ?_).mono (List.suffix_cons _ _)
  refine follows_pure ?_ (List.suffix_refl _)
  simp only [Alike, Expr.move, Expr.cond.injEq]
  exact ⟨hpos, htest, hyes, hno⟩

theorem Abreast.succ_binding (strict : Bool) (hp : Paired f g gap ps)
    (hu : Under layout layout' ps.tail) :
    s.Follows (s.Ends layout') (BindAlike f g) (Grammar.binding (n + 1) strict)
      (Grammar.binding (n + gap + 1) strict) layout layout' ps ps.tail := by
  rw [Grammar.binding, Grammar.binding]
  refine follows_expect hp (by simp) (by simp) ?_
  intro t t' ps₁ h₁ _ htext hpos
  subst h₁
  replace hp := hp.suffix (List.suffix_cons _ _)
  refine follows_params .equals hp (by simp) (by simp) (fun _ _ _ _ => expect_ok) ?_
  intro qs ps₂ h₂
  refine follows_expect (hp.suffix h₂) (by simp) (by simp) ?_
  intro u u' ps₃ h₃ _ _ _
  subst h₃
  replace h₂ := (List.suffix_cons _ _).trans h₂
  by_cases hstrict : strict = true ∧ qs ≠ []
  · rw [if_pos hstrict]
    exact follows_fail fun _ _ hr => by cases hr
  · rw [if_neg hstrict, if_neg hstrict]
    have hunder : Under layout layout' ps₁ := hu
    refine (follows_bind (h.operation _ _ _ _ (hp.suffix h₂)
      (hunder.suffix ((List.tail_suffix _).trans h₂))) fun e e' _ _ he => ?_).mono
        ((List.tail_suffix _).trans (List.suffix_cons _ _))
    refine follows_pure ?_ (List.suffix_refl _)
    simp only [BindAlike, BindingOf.move, htext, hpos, BindingOf.mk.injEq, true_and]
    exact he

theorem Abreast.succ_bindings {x x' : Int} {done done' : List Binding}
    (hd : BindsAlike f g done done') (hp : Paired f g gap ps) (heven : ∀ p ∈ ps.tail, p.Even x x') :
    s.Follows (s.Ends (x' :: layout')) (BindsAlike f g) (Grammar.bindings (n + 1) x done)
      (Grammar.bindings (n + gap + 1) x' done') (x :: layout) (x' :: layout') ps ps.tail := by
  have hu : Under (x :: layout) (x' :: layout') ps.tail := fun p hm => (heven p hm).bounds
  rw [Grammar.bindings, Grammar.bindings]
  refine follows_bind (h.binding false _ _ ps hp hu) fun b b' qs hqs hb => ?_
  have hd' : BindsAlike f g (b :: done) (b' :: done') := by
    simp only [BindsAlike, List.map_cons, List.cons.injEq]
    exact ⟨hb, hd⟩
  have hrest : ∀ qs', qs' <:+ qs → s.Follows (s.Ends (x' :: layout')) (BindsAlike f g)
      (Grammar.bindings n x (b :: done)) (Grammar.bindings (n + gap) x' (b' :: done'))
      (x :: layout) (x' :: layout') qs' qs' := fun qs' hqs' =>
    (h.bindings x x' _ _ _ _ qs' hd' (hp.suffix (suffix_of_tail (hqs'.trans hqs))) fun p hm =>
      heven p ((hqs'.trans hqs).subset (List.mem_of_mem_tail hm))).mono (List.tail_suffix _)
  refine follows_peek ?_
  cases qs with
  | nil =>
    refine follows_fail fun a d hr => ?_
    rw [if_neg (by rw [peek_left_nil]; simp [Token.eof]),
      if_neg (by rw [peek_left_nil]; simp [Token.eof]),
      if_neg (by rw [peek_left_nil]; simp [Token.eof])] at hr
    cases hr
  | cons p qs =>
    have hfits := hp.fits p ((suffix_of_tail hqs).subset List.mem_cons_self)
    have hlevel := (heven p (hqs.subset List.mem_cons_self)).starts
    simp only [peek_left, peek_right, hfits.kind]
    by_cases hsemi : p.first.kind = .semi
    · obtain ⟨t, t', rfl, -⟩ := hfits.word (by rw [hsemi]; simp)
      rw [if_pos hsemi, if_pos hsemi]
      exact follows_skip ((hrest qs (List.suffix_cons _ _)).mono (List.suffix_cons _ _))
    · rw [if_neg hsemi, if_neg hsemi]
      by_cases hin : p.first.kind = .kwIn
      · rw [if_pos hin, if_pos hin]
        refine follows_pure ?_ (List.suffix_refl _)
        unfold BindsAlike at hd' ⊢
        rw [List.map_reverse, hd', List.map_reverse]
      · rw [if_neg hin, if_neg hin]
        by_cases hnew : p.first.kind = .ident ∧ p.first.startsLine = true ∧ p.first.pos.col = x
        · rw [if_pos hnew, if_pos ⟨hnew.1, hlevel.mp hnew.2⟩]
          exact hrest _ (List.suffix_refl _)
        · rw [if_neg hnew]
          exact follows_fail fun _ _ hr => by cases hr

theorem Abreast.succ_letIn {t t' : Token} (hp : Paired f g gap (.word t t' :: ps))
    (hu : Under layout layout' ps) :
    s.Follows (s.Ends layout') (Alike f g) (Grammar.letIn (n + 1)) (Grammar.letIn (n + gap + 1))
      layout layout' (.word t t' :: ps) ps := by
  obtain ⟨-, -, hpos⟩ := hp.head
  replace hp := hp.suffix (List.suffix_cons _ _)
  rw [Grammar.letIn, Grammar.letIn]
  refine follows_next (follows_peek ?_)
  cases ps with
  | nil =>
    refine follows_fail fun a d hr => ?_
    rw [if_pos (by rw [peek_left_nil]; simp [Token.eof])] at hr
    cases hr
  | cons p ps =>
    have hfits := hp.head
    simp only [peek_left, peek_right, hfits.kind]
    by_cases hident : p.first.kind = .ident
    · rw [if_neg (not_not.mpr hident), if_neg (not_not.mpr hident)]
      have heven : ∀ q ∈ (p :: ps).tail, q.Even p.first.pos.col p.first'.pos.col :=
        (List.pairwise_cons.mp hp.even).1
      refine (follows_bind_before (follows_withColumn (h.bindings _ _ [] [] layout layout' (p :: ps)
        rfl hp heven)) (fun _ => expect_nil s (by simp) _ _) fun bs bs' qs hqs hbs => ?_).mono
          (List.tail_suffix _)
      replace hqs := suffix_of_tail hqs
      refine follows_expect (hp.suffix hqs) (by simp) (by simp) ?_
      intro u u' qs' hqs' _ _ _
      subst hqs'
      replace hqs := (List.suffix_cons _ _).trans hqs
      refine (follows_bind (h.operation _ _ _ _ (hp.suffix hqs)
        ((hu.suffix hqs).suffix (List.tail_suffix _))) fun e e' _ _ he => ?_).mono
          ((List.tail_suffix _).trans (List.suffix_cons _ _))
      refine follows_pure ?_ (List.suffix_refl _)
      simp only [Alike, Expr.move, Expr.moveBinds_eq, Expr.letIn.injEq]
      exact ⟨hpos, hbs, he⟩
    · rw [if_pos hident]
      exact follows_fail fun _ _ hr => by cases hr

theorem Abreast.succ : Abreast f g gap s (n + 1) := by
  have hn : n + 1 + gap = n + gap + 1 := by omega
  constructor
  all_goals rw [hn]; intros
  · exact h.succ_operation _ ‹_› ‹_›
  · exact h.succ_operationFrom _ ‹_› ‹_› ‹_›
  · exact h.succ_operand ‹_› ‹_›
  · exact h.succ_application ‹_› ‹_›
  · exact h.succ_arguments ‹_› ‹_› ‹_›
  · exact h.succ_atom _ ‹_›
  · exact h.succ_parenthesized _ ‹_› ‹_›
  · exact h.succ_lambda ‹_› ‹_›
  · exact h.succ_cond ‹_› ‹_›
  · exact h.succ_letIn ‹_› ‹_›
  · exact h.succ_bindings ‹_› ‹_› ‹_›
  · exact h.succ_binding _ ‹_› ‹_›

end

theorem abreast (f g : Pos → Pos) (gap : Nat) (s : Sides) (n : Nat) : Abreast f g gap s n := by
  induction n with
  | zero => exact abreast_zero f g gap s
  | succ n ih => exact ih.succ

end Grammar

end LazySession
