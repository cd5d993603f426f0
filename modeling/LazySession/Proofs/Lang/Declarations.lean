import LazySession.Proofs.Lang.Tidy
import LazySession.Proofs.Lang.Types

/-!
# Reading declarations

Signatures whose type is spelled out by some tokens, and the two forms of binding that go with a
cell: the one that makes it and the one that reads it.
-/

namespace LazySession

namespace Grammar

open Reader

/-! ## Bindings -/

section
variable {t₀ t₁ t₂ t₃ t₄ t₅ : Token} (stop : Pos)

/-- A name that stands for an application: `x = f y`. -/
theorem decl_apply (h₁ : t₁.kind = .ident) (h₂ : t₂.kind = .equals) (h₃ : t₃.kind = .ident)
    (h₄ : t₄.kind = .ident) :
    decl.runAll [t₁, t₂, t₃, t₄] stop =
      .ok (.binding { pos := t₁.pos, name := t₁.text, params := [], strict := false
                      body := .app (.var t₃.pos t₃.text) [.var t₄.pos t₄.text] }) := by
  cases t₁; cases t₂; cases t₃; cases t₄
  simp only at h₁ h₂ h₃ h₄
  subst h₁ h₂ h₃ h₄
  rfl

/-- A name whose value is made at once: `!x = f ()`. -/
theorem decl_make (h₀ : t₀.kind = .bang) (h₁ : t₁.kind = .ident) (h₂ : t₂.kind = .equals)
    (h₃ : t₃.kind = .ident) (h₄ : t₄.kind = .lparen) (h₅ : t₅.kind = .rparen) :
    decl.runAll [t₀, t₁, t₂, t₃, t₄, t₅] stop =
      .ok (.binding { pos := t₁.pos, name := t₁.text, params := [], strict := true
                      body := .app (.var t₃.pos t₃.text) [.unit t₄.pos] }) := by
  cases t₀; cases t₁; cases t₂; cases t₃; cases t₄; cases t₅
  simp only at h₀ h₁ h₂ h₃ h₄ h₅
  subst h₀ h₁ h₂ h₃ h₄ h₅
  rfl

end

/-! ## Signatures -/

theorem run_expect {c : Cursor} {kind : TokenKind} (h : c.peek.kind = kind) (what : String) :
    (expect kind what).run c = .ok (c.peek, c.advance) := by
  change (if c.peek.kind = kind then next else fail c.peek (.expected what c.peek)).run c = _
  rw [if_pos h]
  rfl

theorem fuel_eq (c : Cursor) : fuel c = (8 * c.toks.length + 7) + 1 := by
  simp only [fuel]
  omega

theorem run_signatureNames {c : Cursor} (h : c.peek.kind ≠ .comma) (n : Nat) (done : List String) :
    (signatureNames (n + 1) done).run c = .ok (done.reverse, c) := by
  rw [signatureNames]
  change (if c.peek.kind = .comma then _ else (pure done.reverse : Reader (List String))).run c = _
  rw [if_neg h]
  rfl

/-- A signature is read as its type is. -/
theorem run_decl_signature {x dc : Token} {toks : List Token} {stop : Pos} (hx : x.kind = .ident)
    (hdc : dc.kind = .doubleColon) :
    decl.run ⟨x :: dc :: toks, stop, []⟩ =
      match (typeExpr (fuel ⟨toks, stop, []⟩)).run ⟨toks, stop, []⟩ with
      | .ok (type, c) => .ok (.signature x.pos [x.text] type, c)
      | .error e => .error e := by
  have hdecl : decl.run ⟨x :: dc :: toks, stop, []⟩ = signature.run ⟨x :: dc :: toks, stop, []⟩ := by
    rw [decl, run_bind, run_get]
    simp [Cursor.peek, Cursor.peekSecond, hx, hdc]
  rw [hdecl, signature, run_bind, run_expect (by simpa [Cursor.peek] using hx)]
  simp only [Cursor.peek, Cursor.advance, List.headD_cons, List.tail_cons]
  rw [run_bind, run_get]
  simp only
  rw [run_bind, fuel_eq, run_signatureNames (by simp [Cursor.peek, hdc])]
  simp only
  rw [run_bind, run_expect (by simpa [Cursor.peek] using hdc)]
  simp only [Cursor.advance, List.tail_cons]
  rw [run_bind, run_get]
  simp only
  rw [run_bind]
  cases (typeExpr (fuel ⟨toks, stop, []⟩)).run ⟨toks, stop, []⟩ <;> rfl

theorem startsType_of_typeAtom {n : Nat} {c d : Cursor} {t : TypeExpr}
    (h : (typeAtom n).run c = .ok (t, d)) : startsType c.peek := by
  cases n with
  | zero => exact absurd h (exhausted_fails c)
  | succ n =>
    rw [typeAtom] at h
    obtain ⟨u, c₁, hu, h⟩ := bind_ok h
    cases hu
    split at h
    case h_4 => cases h
    all_goals
      rename_i hk
      simp [startsType, hk]

theorem startsType_of_typeExpr {n : Nat} {c d : Cursor} {t : TypeExpr}
    (h : (typeExpr n).run c = .ok (t, d)) : startsType c.peek := by
  cases n with
  | zero => exact absurd h (exhausted_fails c)
  | succ n =>
    rw [typeExpr] at h
    obtain ⟨u, c₁, hu, h⟩ := bind_ok h
    exact startsType_of_typeAtom hu

/-- In parentheses stands a type: what is read is what the reader of types gives, and the closing
parenthesis behind it. -/
theorem run_typeAtom_lparen {n : Nat} {lp : Token} {toks : List Token} {stop : Pos}
    (hlp : lp.kind = .lparen) {type : TypeExpr} {c : Cursor}
    (h : (typeExpr n).run ⟨toks, stop, []⟩ = .ok (type, c)) :
    (typeAtom (n + 1)).run ⟨lp :: toks, stop, []⟩ =
      match (expect .rparen "')'").run c with
      | .ok (_, c) => .ok (type, c)
      | .error e => .error e := by
  have hstarts := startsType_of_typeExpr h
  have hk : (Cursor.peek ⟨toks, stop, []⟩).kind ≠ .rparen := by
    intro hk
    simp [startsType, hk] at hstarts
  rw [typeAtom, run_bind, run_next]
  simp only [Cursor.peek, Cursor.advance, List.headD_cons, List.tail_cons, hlp]
  rw [run_bind, run_peek]
  simp only
  rw [if_neg hk, run_bind, h]
  simp only
  rw [run_bind]
  cases (expect .rparen "')'").run c <;> rfl

theorem run_typeAtom_conid {n : Nat} {t : Token} {toks : List Token} {stop : Pos}
    (ht : t.kind = .conid) :
    (typeAtom (n + 1)).run ⟨t :: toks, stop, []⟩ = .ok (.con t.pos t.text, ⟨toks, stop, []⟩) := by
  rw [typeAtom, run_bind, run_next]
  simp only [Cursor.peek, Cursor.advance, List.headD_cons, List.tail_cons, ht]
  rfl

theorem run_typeArgs_cons {n : Nat} {c : Cursor} (h : startsType c.peek) (done : List TypeExpr) :
    (typeArgs (n + 1) done).run c = match (typeAtom n).run c with
      | .ok (t, c) => (typeArgs n (t :: done)).run c
      | .error e => .error e := by
  rw [typeArgs, run_bind, run_peek]
  simp only
  rw [if_pos h, run_bind]
  cases (typeAtom n).run c <;> rfl

theorem run_typeArgs_end {n : Nat} {c : Cursor} (h : startsType c.peek = false)
    (done : List TypeExpr) : (typeArgs (n + 1) done).run c = .ok (done.reverse, c) := by
  rw [typeArgs, run_bind, run_peek]
  simp only
  rw [if_neg (by simp [h])]
  rfl

section
variable {n : Nat} {ref lp : Token} {toks : List Token} {stop : Pos} {type : TypeExpr}

/-- `Ref (type)` is read as its type is. -/
theorem run_typeExpr_ref {rp : Token} (href : ref.kind = .conid) (hlp : lp.kind = .lparen)
    (hrp : rp.kind = .rparen)
    (h : (typeExpr n).run ⟨toks, stop, []⟩ = .ok (type, ⟨[rp], stop, []⟩)) :
    (typeExpr (n + 3)).run ⟨ref :: lp :: toks, stop, []⟩ =
      .ok (.app (.con ref.pos ref.text) [type], ⟨[], stop, []⟩) := by
  have hatom : (typeAtom (n + 1)).run ⟨lp :: toks, stop, []⟩ = .ok (type, ⟨[], stop, []⟩) := by
    rw [run_typeAtom_lparen hlp h, run_expect (by simpa [Cursor.peek] using hrp)]
    rfl
  rw [typeExpr, run_bind, run_typeAtom_conid href]
  simp only
  rw [run_bind, run_typeArgs_cons (by simp [startsType, Cursor.peek, hlp]), hatom]
  simp only
  rw [run_typeArgs_end (by simp [startsType, Cursor.peek, Token.eof])]
  simp only
  rw [run_bind, run_peek]
  simp [Cursor.peek, Token.eof]
  rfl

theorem run_typeExpr_open (href : ref.kind = .conid) (hlp : lp.kind = .lparen)
    (h : (typeExpr n).run ⟨toks, stop, []⟩ = .ok (type, ⟨[], stop, []⟩)) :
    ∃ e, (typeExpr (n + 3)).run ⟨ref :: lp :: toks, stop, []⟩ = .error e := by
  have hatom : ∃ e, (typeAtom (n + 1)).run ⟨lp :: toks, stop, []⟩ = .error e := by
    rw [run_typeAtom_lparen hlp h]
    exact ⟨_, rfl⟩
  obtain ⟨e, he⟩ := hatom
  rw [typeExpr, run_bind, run_typeAtom_conid href]
  simp only
  rw [run_bind, run_typeArgs_cons (by simp [startsType, Cursor.peek, hlp]), he]
  exact ⟨e, rfl⟩

end

/-! ## What is no declaration -/

theorem gives_decl_inType : Gives (fun t => t.kind.inType) (fun _ => False) decl := by
  have hbinding : ∀ n, Gives (fun t => t.kind.inType) (fun _ => False) (binding n false) := by
    intro n
    cases n with
    | zero =>
      intro c a d _ h
      exact (exhausted_fails c h).elim
    | succ n =>
      rw [binding]
      refine gives_bind (gives_expect _ _) fun t _ => gives_bind gives_params fun ps _ => ?_
      refine gives_bind (gives_expect _ _) fun eq heq => ?_
      obtain ⟨hkind, hin⟩ := heq
      rw [hkind] at hin
      rcases hin with hin | hin <;> cases hin
  rw [decl]
  refine gives_bind gives_get fun c hc => ?_
  rcases peek_cases hc with hin | he
  · have hsecond : c.peekSecond.kind.inType ∨ c.peekSecond.kind = .eof := by
      unfold Cursor.peekSecond
      cases htoks : c.toks.tail with
      | nil => exact .inr rfl
      | cons t ts => exact .inl (hc t (List.mem_of_mem_tail (by simp [htoks])))
    simp only
    split
    · rename_i hk
      rw [hk] at hin
      cases hin
    · rename_i hk
      rw [hk] at hin
      cases hin
    · split
      · rename_i hk
        rcases hsecond with hs | hs <;> rcases hk with hk | hk <;> rw [hk] at hs <;> cases hs
      · exact gives_bind (hbinding _) fun _ h => h.elim
    · exact gives_fail _ _
  · simp only [he]
    exact gives_fail _ _

end Grammar

end LazySession
