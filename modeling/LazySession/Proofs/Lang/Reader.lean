import LazySession.Lang.Grammar

/-!
# What readers give

`Reader.Gives T Q r`: if all tokens have `T`, what the reader `r` gives has `Q`, and the tokens that
it leaves still have `T`. There is one lemma for each piece that readers are made of.
-/

namespace LazySession

namespace Reader

variable {α β : Type}

theorem run_bind (r : Reader α) (f : α → Reader β) (c : Cursor) :
    (r >>= f).run c = match r.run c with
      | .ok (a, c') => (f a).run c'
      | .error e => .error e := by
  simp only [bind, StateT.run, StateT.bind, Except.bind]
  cases r c <;> rfl

theorem run_get (c : Cursor) : (get : Reader Cursor).run c = .ok (c, c) := rfl

theorem run_peek (c : Cursor) : peek.run c = .ok (c.peek, c) := rfl

theorem run_next (c : Cursor) : next.run c = .ok (c.peek, c.advance) := rfl

theorem bind_ok {r : Reader α} {f : α → Reader β} {c c'' : Cursor} {b : β}
    (h : (r >>= f).run c = .ok (b, c'')) :
    ∃ a c', r.run c = .ok (a, c') ∧ (f a).run c' = .ok (b, c'') := by
  rw [run_bind] at h
  cases hr : r.run c with
  | error e => rw [hr] at h; cases h
  | ok p => rw [hr] at h; exact ⟨p.1, p.2, rfl, h⟩

/-! ## Properties of tokens -/

/-- From tokens with `T`, the reader gives only what has `Q`, and leaves tokens with `T`. -/
def Gives (T : Token → Prop) (Q : α → Prop) (r : Reader α) : Prop :=
  ∀ c a c', (∀ t ∈ c.toks, T t) → r.run c = .ok (a, c') → Q a ∧ ∀ t ∈ c'.toks, T t

section
variable {T : Token → Prop} {Q : α → Prop} {R : β → Prop}

theorem gives_pure {a : α} (h : Q a) : Gives T Q (pure a : Reader α) := by
  intro c b c' hc hr
  cases hr
  exact ⟨h, hc⟩

theorem gives_bind {r : Reader α} {f : α → Reader β} (hr : Gives T Q r)
    (hf : ∀ a, Q a → Gives T R (f a)) : Gives T R (r >>= f) := by
  intro c b c'' hc h
  obtain ⟨a, c', ha, hb⟩ := bind_ok h
  obtain ⟨hQ, hc'⟩ := hr c a c' hc ha
  exact hf a hQ c' b c'' hc' hb

theorem gives_fail (t : Token) (fault : SyntaxFault) : Gives T Q (fail t fault : Reader α) := by
  intro c a c' _ h
  cases h

theorem gives_get : Gives T (fun c : Cursor => ∀ t ∈ c.toks, T t) (get : Reader Cursor) := by
  intro c a c' hc h
  cases h
  exact ⟨hc, hc⟩

theorem gives_set {c : Cursor} (hc : ∀ t ∈ c.toks, T t) :
    Gives T (fun _ => True) (set c : Reader PUnit) := by
  intro c₀ a c' _ h
  cases h
  exact ⟨trivial, hc⟩

theorem gives_layout (f : Cursor → List Int) :
    Gives T (fun _ => True) (modify fun c => { c with layout := f c } : Reader PUnit) := by
  intro c a c' hc h
  cases h
  exact ⟨trivial, hc⟩

theorem mem_advance {c : Cursor} (hc : ∀ t ∈ c.toks, T t) : ∀ t ∈ c.advance.toks, T t :=
  fun t ht => hc t (List.mem_of_mem_tail ht)

theorem gives_skip : Gives T (fun _ => True) skip := by
  intro c a c' hc h
  cases h
  exact ⟨trivial, mem_advance hc⟩

theorem peek_cases {c : Cursor} (hc : ∀ t ∈ c.toks, T t) :
    T c.peek ∨ c.peek.kind = .eof := by
  unfold Cursor.peek
  cases htoks : c.toks with
  | nil => exact .inr rfl
  | cons t ts => exact .inl (hc t (by simp [htoks]))

theorem gives_peek : Gives T (fun t => T t ∨ t.kind = .eof) peek :=
  gives_bind gives_get fun _ hc => gives_pure (peek_cases hc)

theorem gives_next : Gives T (fun t => T t ∨ t.kind = .eof) next := by
  refine gives_bind gives_get fun c hc => gives_bind (gives_set (mem_advance hc)) fun _ _ => ?_
  exact gives_pure (peek_cases hc)

theorem gives_expect (kind : TokenKind) (what : String) :
    Gives T (fun t => t.kind = kind ∧ (T t ∨ t.kind = .eof)) (expect kind what) := by
  intro c a c' hc h
  obtain ⟨t, c₁, ht, h⟩ := bind_ok h
  cases ht
  split at h
  · rename_i hkind
    cases h
    exact ⟨⟨hkind, peek_cases hc⟩, mem_advance hc⟩
  · cases h

theorem gives_withColumn {r : Reader α} (col : Int) (hr : Gives T Q r) :
    Gives T Q (withColumn col r) := by
  refine gives_bind (gives_layout _) fun _ _ => gives_bind hr fun a ha => ?_
  exact gives_bind (gives_layout _) fun _ _ => gives_pure ha

end

theorem expectEnd_ok {c d : Cursor} {u : Unit} (h : expectEnd.run c = .ok (u, d)) :
    c.peek.kind = .eof := by
  obtain ⟨t, c₁, ht, h⟩ := bind_ok h
  cases ht
  split at h
  · rename_i hk
    exact hk
  · cases h

theorem runAll_ok {r : Reader α} {toks : List Token} {stop : Pos} {a : α} :
    r.runAll toks stop = .ok a ↔ ∃ c, r.run { toks, stop } = .ok (a, c) ∧ c.peek.kind = .eof := by
  constructor
  · intro h
    unfold runAll at h
    cases hr : (do let a ← r; expectEnd; return a : Reader α).run { toks, stop } with
    | error e =>
      rw [hr] at h
      cases h
    | ok p =>
      rw [hr] at h
      obtain ⟨b, c'⟩ := p
      cases h
      obtain ⟨a', c₁, ha, hrest⟩ := bind_ok hr
      obtain ⟨_, c₂, hend, hpure⟩ := bind_ok hrest
      cases hpure
      exact ⟨c₁, ha, expectEnd_ok hend⟩
  · rintro ⟨c, hr, hk⟩
    have hend : expectEnd.run c = .ok ((), c) := by
      change (if c.peek.kind = .eof then (pure () : Reader Unit) else _).run c = _
      rw [if_pos hk]
      rfl
    have hrun : (do let a ← r; expectEnd; return a : Reader α).run { toks, stop } = .ok (a, c) := by
      rw [run_bind, hr]
      simp only
      rw [run_bind, hend]
      rfl
    unfold runAll
    rw [hrun]
    rfl

end Reader

theorem Grammar.run_moduleHeader {t₁ t₂ t₃ : Token} {toks : List Token} {stop : Pos}
    (h₁ : t₁.kind = .kwModule) (h₂ : t₂.kind = .conid) (h₃ : t₃.kind = .kwWhere) :
    moduleHeader.run ⟨t₁ :: t₂ :: t₃ :: toks, stop, []⟩ =
      .ok ((t₁.pos, t₂.text), ⟨toks, stop, []⟩) := by
  cases t₁; cases t₂; cases t₃
  simp only at h₁ h₂ h₃
  subst h₁ h₂ h₃
  rfl

end LazySession
