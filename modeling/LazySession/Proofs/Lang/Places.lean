import LazySession.Proofs.Lang.Spans
import LazySession.Proofs.Lang.Tidy
import LazySession.Proofs.Lang.Types

/-!
# Declarations stand one behind the other

Every declaration is read from the tokens of its own item, and has the position of one of them
(`Decl.reads_token`). As the positions of tokens increase, those of the declarations of a text do:
`Fragment.increasing_ofText` and `Module.increasing_ofText`.
-/

namespace LazySession

namespace Item

theorem toks_splitFrom (toks : List Token) : ∀ (first : Token) (seen : List Token)
    (done : List Item), (splitFrom first seen done toks).flatMap Item.toks =
      done.reverse.flatMap Item.toks ++ first :: (seen.reverse ++ toks) := by
  induction toks with
  | nil => intro first seen done; simp [splitFrom, Item.toks]
  | cons t ts ih =>
    intro first seen done
    unfold splitFrom
    split
    · rw [ih]
      simp [Item.toks]
    · rw [ih]
      simp

theorem toks_split (toks : List Token) : (split toks).flatMap Item.toks = toks := by
  cases toks with
  | nil => rfl
  | cons t ts => simp [split, toks_splitFrom]

end Item

/-! ## Declarations -/

theorem Decl.reads_token (T : Token → Prop) : Decl.Reads T fun d => ∃ t, T t ∧ d.pos = t.pos ∧
    ∀ b, d = .binding b → t.kind = .ident ∧ b.name = t.text := by
  have hexpect : ∀ {c c' : Cursor} {what : String} {t : Token}, (∀ t ∈ c.toks, T t) →
      (Reader.expect .ident what).run c = .ok (t, c') → T t ∧ t.kind = .ident := by
    intro c c' what t hc h
    obtain ⟨⟨hk, ht⟩, -⟩ := Reader.gives_expect _ _ c t c' hc h
    exact ⟨ht.resolve_right (by simp [hk]), hk⟩
  -- strict or not, a binding stands where its name does
  have hbinding : ∀ {n : Nat} {strict : Bool} {c c' : Cursor} {b : Binding},
      (∀ t ∈ c.toks, T t) → (Grammar.binding n strict).run c = .ok (b, c') →
      ∃ t, T t ∧ b.pos = t.pos ∧ ∀ b', Decl.binding b = .binding b' →
        t.kind = .ident ∧ b'.name = t.text := by
    intro n strict c c' b hc h
    cases n with
    | zero => exact absurd h (Grammar.exhausted_fails c)
    | succ n =>
      rw [Grammar.binding] at h
      obtain ⟨t, _, ht, h⟩ := Reader.bind_ok h
      obtain ⟨_, _, _, h⟩ := Reader.bind_ok h
      obtain ⟨_, _, _, h⟩ := Reader.bind_ok h
      split at h
      · cases h
      · obtain ⟨_, _, _, h⟩ := Reader.bind_ok h
        cases h
        obtain ⟨hT, hk⟩ := hexpect hc ht
        refine ⟨t, hT, rfl, fun b' hb' => ?_⟩
        cases hb'
        exact ⟨hk, rfl⟩
  intro c d c' hc h
  obtain ⟨c₁, c₂, hget, h⟩ := Reader.bind_ok h
  cases hget
  simp only at h
  split at h
  · rename_i hk
    obtain ⟨_, _, _, h⟩ := Reader.bind_ok h
    obtain ⟨_, _, _, h⟩ := Reader.bind_ok h
    cases h
    exact ⟨c.peek, (Reader.peek_cases hc).resolve_right (by simp [hk]), rfl, nofun⟩
  · obtain ⟨_, c₃, hskip, h⟩ := Reader.bind_ok h
    obtain ⟨b, _, hb, h⟩ := Reader.bind_ok h
    cases h
    exact hbinding (Reader.gives_skip c () c₃ hc hskip).2 hb
  · split at h
    · unfold Grammar.signature at h
      obtain ⟨t, _, ht, h⟩ := Reader.bind_ok h
      obtain ⟨_, _, _, h⟩ := Reader.bind_ok h
      obtain ⟨_, _, _, h⟩ := Reader.bind_ok h
      obtain ⟨_, _, _, h⟩ := Reader.bind_ok h
      obtain ⟨_, _, _, h⟩ := Reader.bind_ok h
      obtain ⟨_, _, _, h⟩ := Reader.bind_ok h
      cases h
      exact ⟨t, (hexpect hc ht).1, rfl, nofun⟩
    · obtain ⟨b, _, hb, h⟩ := Reader.bind_ok h
      cases h
      exact hbinding hc hb
  · cases h

/-- What is bound has a name without a dot, so that it is never taken for one of a module. -/
def Decl.Undotted (d : Decl) : Prop := ∀ b, d = .binding b → '.' ∉ b.name.toList

theorem Decl.reads_undotted : Decl.Reads Token.Proper Decl.Undotted := by
  intro c d c' hc h b hb
  obtain ⟨t, ht, -, hname⟩ := Decl.reads_token Token.Proper c d c' hc h
  obtain ⟨hk, he⟩ := hname b hb
  rw [he]
  exact (ht hk).2

theorem Decl.increasing_ofItems {source : String} {toks : List Token} {ds : List Decl}
    (htoks : toks.Pairwise fun t u => t.pos.Before u.pos)
    (h : Decl.ofItems source (Item.split toks) = .ok ds) :
    ds.Pairwise fun d e => d.pos.Before e.pos := by
  rw [← Item.toks_split toks, List.pairwise_flatMap] at htoks
  unfold ofItems at h
  simp only at h
  split at h
  · cases h
    rw [List.pairwise_filterMap, List.pairwise_map]
    refine htoks.2.imp fun {i j} hij d hd e he => ?_
    have hread : ∀ {k : Item} {d : Decl}, k.decl = .ok d → ∃ t ∈ k.toks, d.pos = t.pos := by
      intro k d hk
      obtain ⟨c, hc, _⟩ := Reader.runAll_ok.mp hk
      obtain ⟨t, ht, hpos, -⟩ := Decl.reads_token (· ∈ k.toks) _ d c (fun _ ht => ht) hc
      exact ⟨t, ht, hpos⟩
    split at hd
    · rename_i hi
      cases hd
      split at he
      · rename_i hj
        cases he
        obtain ⟨t, ht, hdt⟩ := hread hi
        obtain ⟨u, hu, heu⟩ := hread hj
        rw [hdt, heu]
        exact hij t ht u hu
      · cases he
    · cases hd
  · cases h

/-! ## Whole texts -/

namespace Module

variable {source text : String} {toks : List Token} {stop : Pos} {m : Module}

theorem decls_ofTokens (h : ofTokens source toks stop = .ok m) :
    ∃ rest, rest.Sublist toks ∧ Decl.ofItems source (Item.split rest) = .ok m.decls := by
  have hexpect : ∀ {c c' : Cursor} {kind : TokenKind} {what : String} {t : Token},
      (Reader.expect kind what).run c = .ok (t, c') → c'.toks.Sublist c.toks := by
    intro c c' kind what t h
    obtain ⟨u, c₁, hu, h⟩ := Reader.bind_ok h
    cases hu
    split at h
    · cases h
      exact List.tail_sublist _
    · cases h
  unfold ofTokens at h
  split at h
  · cases h
  · rename_i pos name c hc
    generalize hd : Decl.ofItems source (Item.split c.toks) = r at h
    cases r <;> cases h
    obtain ⟨_, c₁, h₁, hc⟩ := Reader.bind_ok hc
    obtain ⟨_, c₂, h₂, hc⟩ := Reader.bind_ok hc
    obtain ⟨_, c₃, h₃, hc⟩ := Reader.bind_ok hc
    cases hc
    exact ⟨c.toks, ((hexpect h₃).trans (hexpect h₂)).trans (hexpect h₁), hd⟩

theorem increasing_ofTokens (htoks : toks.Pairwise fun t u => t.pos.Before u.pos)
    (h : ofTokens source toks stop = .ok m) : m.decls.Pairwise fun d e => d.pos.Before e.pos := by
  obtain ⟨rest, hrest, hd⟩ := decls_ofTokens h
  exact Decl.increasing_ofItems (htoks.sublist hrest) hd

theorem increasing_ofText (h : ofText source text = .ok m) :
    m.decls.Pairwise fun d e => d.pos.Before e.pos := by
  unfold ofText at h
  split at h
  · cases h
  · rename_i hl
    split at h
    · cases h
    · split at h
      · exact increasing_ofTokens (Lexed.laid_ofText hl).increasing h
      · cases h

end Module

theorem Fragment.increasing_ofText {source text : String} {f : Fragment}
    (h : ofText source text = .ok f) : f.decls.Pairwise fun d e => d.pos.Before e.pos := by
  unfold ofText at h
  split at h
  · cases h
  · rename_i toks stop hl
    have htoks := (Lexed.laid_ofText hl).increasing
    split at h
    · cases h
      exact .nil
    · split at h
      · generalize hm : Module.ofTokens source _ stop = r at h
        cases r <;> cases h
        exact Module.increasing_ofTokens htoks hm
      · unfold ofItems at h
        split at h
        · generalize hd : Decl.ofItems source _ = r at h
          cases r <;> cases h
          exact Decl.increasing_ofItems htoks hd
        · split at h
          · cases h
          · split at h <;> cases h
            exact .nil

end LazySession
